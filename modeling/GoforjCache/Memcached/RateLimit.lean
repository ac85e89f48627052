import GoforjCache.Cache.RateLimit
import GoforjCache.Memcached.Lifetimes

/-!
# Memcached - Rate limiting

`RateLimit` over a Memcached store.  The record of a window lives for the window, counted from
its last call, but in whole seconds: for a window with a fraction of a second the record may be gone
before the window is over, and the count starts again.

Main results:

- Theorem `rateLimit_spec`: what a call returns, and what it leaves at the server.
- Theorem `Inv.call`, `Inv.tick`: the record of the current window holds the number of its
  calls, for windows of whole seconds.
- Theorem `limit_exceeded`: a run with one call too many, for other windows.
- Theorem `limit_kept_iff`: the limit is kept in all runs if and only if the window has whole
  seconds.
-/

namespace GoforjCache
namespace Memcached
namespace Windows

open Foundation Foundation.Transition
open RateLimit (RateLimitStatus bucketOf bucketKey bucketKey_inj statusOf toInt_bucketOf_of_lt)

/-! ## The operation -/

/-- The errors of `rateLimit`. -/
inductive Failure where
  /-- `cache rate limit requires limit > 0`. -/
  | limit
  /-- `cache rate limit requires window > 0`. -/
  | window
  /-- An error of the store. -/
  | store (err : MemcachedError)
deriving DecidableEq

/-- `Cache.rateLimit` over a Memcached store; `none` if the call does not end. -/
def rateLimit (cfg : Config) (cacheTTL : DefaultTTL) (fuel : Nat) (now : Instant) (key : Key)
    (limit : Int64) (window : Duration) (T : State Server Conn) :
    Option (Except Failure RateLimitStatus) × State Server Conn :=
  if limit ≤ 0 then (some (.error .limit), T)
  else if window ≤ 0 then (some (.error .window), T)
  else
    match increment (wire (timed nanos)) cfg allDials fuel (bucketKey key (bucketOf now window)) 1
        (cacheTTL.resolve window) T with
    | (none, T') => (none, T')
    | (some (.error err), T') => (some (.error (.store err)), T')
    | (some (.ok count), T') => (some (.ok (statusOf now limit window count)), T')

/-! ## Runs -/

/-- One server, and a key with a limit and a window between a second and thirty days. -/
structure Setup where
  cfg : Config
  addr : Addr
  cacheTTL : DefaultTTL
  key : Key
  limit : Int64
  window : Duration
  fuel : Nat
  oneAddress : OneAddress cfg addr
  oneWord : ∀ bucket, OneWord (cfg.cacheKey (bucketKey key bucket))
  limit_pos : 0 < limit
  window_ge : nanos ≤ window.toInt
  window_le : window.toInt ≤ maxRelative * nanos
  fuel_ge : 2 ≤ fuel

/-- A call that was made. -/
structure Made where
  made : Nat
  reply : Option (Except Failure RateLimitStatus)

/-- The call returned `Allowed = true`. -/
def Made.allowed (c : Made) : Bool :=
  match c.reply with
  | some (.ok status) => status.allowed
  | _ => false

/-- The store, and the calls so far. -/
structure World where
  store : State Server Conn
  log : List Made

/-- The steps. -/
inductive Event where
  | call
  | tick (n : Nat)

section Runs

variable (S : Setup)

/-- The clock. -/
def World.now (w : World) : Nat := (w.store.servers S.addr).clock

/-- One step. -/
def step (w : World) : Event → Option World
  | .call =>
    let r := rateLimit S.cfg S.cacheTTL S.fuel (w.now S : Int) S.key S.limit S.window w.store
    some ⟨r.2, w.log ++ [⟨w.now S, r.1⟩]⟩
  | .tick n => some { w with store := w.store.tick n }

/-- The length of the window in nanoseconds. -/
def Setup.length : Nat := S.window.toInt.toNat

/-- The call was made in the window `[b * w, (b + 1) * w)`. -/
def Setup.inWindow (b : Nat) (c : Made) : Bool :=
  decide (b * S.length ≤ c.made ∧ c.made < (b + 1) * S.length)

/-- The number of calls in a window. -/
def calls (log : List Made) (b : Nat) : Nat := log.countP (S.inWindow b)

/-- The key of the record of a window. -/
def Setup.full (b : Nat) : Key := S.cfg.cacheKey (bucketKey S.key (Int64.ofNat b))

/-- The connections are open and idle, and the records of the key do not exist. -/
structure World.Initial (w : World) : Prop where
  idle : ∃ T : State Server Unit, w.store = T.connected
  log : w.log = []
  range : w.now S < 2 ^ 63
  unused : ∀ b, (w.store.servers S.addr).slot (S.full b) = none

/-- The side condition of a step: `UnixNano` is defined, and the counter of a window does not
come back to zero. -/
def Fits (w : World) : Event → Prop
  | .call => calls S w.log (w.now S / S.length) + 1 < 2 ^ 64
  | .tick n => w.now S + n < 2 ^ 63

/-- In every run, at most `limit` calls are allowed in a window. -/
def Kept : Prop :=
  ∀ start es w, start.Initial S → Along (step S) (Fits S) start es →
    run (step S) start es = some w →
      ∀ b, ((w.log.countP fun c => S.inWindow b c && c.allowed : Nat) : Int) ≤ S.limit.toInt

end Runs

/-! ## Windows -/

section Windows

variable (S : Setup)

theorem Setup.window_pos : 0 < S.window := by
  have hge := S.window_ge
  unfold nanos at hge
  rw [Int64.lt_iff_toInt_lt, Int64.toInt_zero]
  omega

theorem Setup.toInt_window : S.window.toInt = S.length := by
  have hge := S.window_ge
  unfold nanos at hge
  unfold Setup.length
  omega

theorem Setup.length_pos : 0 < S.length := by
  have hge := S.window_ge
  have hwindow := S.toInt_window
  unfold nanos at hge
  omega

/-- Below `2 ^ 22` seconds, the floating-point sum never reaches the next whole second. -/
theorem wholeSeconds_eq {ttl : Duration} (hpos : 10 ^ 9 ≤ ttl.toInt.toNat)
    (hlt : ttl.toInt.toNat < 2 ^ 22 * 10 ^ 9) : wholeSeconds ttl = ttl.toInt.toNat / 10 ^ 9 := by
  have hlog : Nat.log2 (ttl.toInt.toNat / 10 ^ 9) < 22 := by
    rw [Nat.log2_lt (by omega)]
    omega
  have hpow : 2 ^ 32 ≤ 2 ^ (53 - Nat.log2 (ttl.toInt.toNat / 10 ^ 9)) :=
    Nat.pow_le_pow_right Nat.two_pos (by omega)
  have hmissing : 1 ≤ 10 ^ 9 - ttl.toInt.toNat % 10 ^ 9 := by omega
  unfold wholeSeconds
  dsimp only
  rw [if_neg]
  rw [Nat.not_le]
  calc 10 ^ 9 < 1 * 2 ^ 32 := by norm_num
    _ ≤ _ := Nat.mul_le_mul hmissing hpow

/-- The expiration time of a window of at most thirty days is cut off to whole seconds. -/
theorem Setup.seconds_window : seconds S.window = S.length / nanos := by
  have hge := S.window_ge
  have hle := S.window_le
  have hmax : maxRelative = 2592000 := by decide
  have hwindow := S.toInt_window
  unfold nanos at *
  rw [hmax] at hle
  have hwhole := wholeSeconds_eq (show 10 ^ 9 ≤ S.window.toInt.toNat by omega) (by omega)
  rw [seconds, hwhole, if_neg (by omega), hwindow]
  rfl

theorem Setup.seconds_le : seconds S.window ≤ maxRelative := by
  have hle := S.window_le
  rw [S.toInt_window] at hle
  rw [S.seconds_window]
  exact Nat.div_le_of_le_mul (by rw [Nat.mul_comm]; exact_mod_cast hle)

/-- The key that a call counts in. -/
theorem Setup.bucketOf_eq {now : Nat} (hnow : now < 2 ^ 63) :
    bucketOf (now : Int) S.window = Int64.ofNat (now / S.length) := by
  have hbucket := toInt_bucketOf_of_lt (Int.natCast_nonneg now) (by omega) S.window_pos
  have hlt : now / S.length < 2 ^ 63 := (Nat.div_le_self _ _).trans_lt hnow
  apply Int64.toInt.inj
  rw [hbucket, S.toInt_window, Int64.toInt_ofNat_of_lt hlt]
  norm_cast

/-- The records of different windows have different keys. -/
theorem Setup.full_inj {b b' : Nat} (hb : b < 2 ^ 63) (hb' : b' < 2 ^ 63)
    (h : S.full b = S.full b') : b = b' := by
  have hkey := (bucketKey_inj (S.cfg.cacheKey_injective h)).2
  have hint := congrArg Int64.toInt hkey
  rw [Int64.toInt_ofNat_of_lt hb, Int64.toInt_ofNat_of_lt hb'] at hint
  exact_mod_cast hint

theorem inWindow_iff {b : Nat} {c : Made} : S.inWindow b c = true ↔ c.made / S.length = b := by
  rw [Setup.inWindow, decide_eq_true_eq, Nat.div_eq_iff S.length_pos]
  have hpos := S.length_pos
  rw [Nat.add_mul, Nat.one_mul]
  omega

/-- One more call counts in its own window only. -/
theorem calls_concat (log : List Made) (c : Made) (b : Nat) :
    calls S (log ++ [c]) b = calls S log b + if c.made / S.length = b then 1 else 0 := by
  rw [calls, calls, List.countP_append, List.countP_singleton]
  simp only [inWindow_iff]

end Windows

/-! ## One call -/

/-- The next number of a counter, over one address.  From `2 ^ 63` on, the store cannot read
it, and leaves the expiration time of the record as it was. -/
theorem incr_next {cfg : Config} {a : Addr} (ha : OneAddress cfg a) {key : Key}
    {T : State Server Unit} {v : Nat}
    (hv : (T.servers a).startNumber (cfg.cacheKey key) = some v) (hlt : v + 1 < 2 ^ 64)
    {ttl : Duration} (httl : seconds (cfg.defaultTTL.resolve ttl) ≤ maxRelative) (fuel : Nat) :
    ∃ T' item, incr (opened (timed nanos)) cfg allDials (ascii "incr") key 1 (fuel + 2) ttl T =
        (some (if v + 1 < 2 ^ 63 then .ok (Int64.ofInt (v + 1 : Nat)) else .error .notNumber), T') ∧
      (T'.servers a).clock = (T.servers a).clock ∧
      (T'.servers a).slot (cfg.cacheKey key) = some item ∧
      counterValue item.entry.data = some (v + 1) ∧
      (item.expires = deadlineAt nanos (T.servers a).clock
          (seconds (cfg.defaultTTL.resolve ttl)) ∨
        ∃ old, (T.servers a).slot (cfg.cacheKey key) = some old ∧ item.expires = old.expires) ∧
      ∀ other, other ≠ cfg.cacheKey key → (T'.servers a).slot other = (T.servers a).slot other := by
  have hstep : counterStep (ascii "incr") v (1 : Int64).toInt.toNat = v + 1 := by
    rw [counterStep, if_pos rfl]
    exact Nat.mod_eq_of_lt hlt
  by_cases hsmall : v + 1 < 2 ^ 63
  · rcases incr_one (show 0 < nanos by decide) ha (Or.inl rfl) (show (0 : Int64) ≤ 1 by decide)
      hv (by rw [hstep]; exact hsmall) httl fuel with ⟨T', heq, hcounted⟩
    rw [hstep] at heq hcounted
    rcases hcounted.slot (by decide) httl with ⟨item, hslot, hvalue, hexpires⟩
    rw [if_pos hsmall]
    exact ⟨T', item, heq, hcounted.clock, hslot, hvalue, Or.inl hexpires, hcounted.other⟩
  · rw [if_neg hsmall]
    unfold Server.startNumber at hv
    cases hslot : (T.servers a).slot (cfg.cacheKey key) with
    | none =>
      rw [hslot] at hv
      cases hv
      exact absurd (by decide) hsmall
    | some old =>
      rw [hslot] at hv
      rcases count_number nanos (T.servers a) (cfg.cacheKey key) (Or.inl rfl)
        (show (0 : Int64) ≤ 1 by decide) hslot hv with
        ⟨s, item, hcount, hclock, hslot', hvalue, hexpires, hother⟩
      rw [hstep] at hcount hvalue
      rcases incr_refused ha hcount (formatNat_ne_notFound _).1
        (counterReply_formatNat_of_le (Nat.not_lt.mp hsmall)) ttl (fuel + 1) with
        ⟨T', heq, rfl⟩
      exact ⟨T', item, heq, hclock, hslot', hvalue, Or.inr ⟨old, rfl, hexpires⟩, hother⟩

/-- `Increment` on a one-word key does over the text of the protocol what it does over whole
commands. -/
theorem increment_connected {cfg : Config} {key : Key} (hkey : OneWord (cfg.cacheKey key))
    (fuel : Nat) (delta : Int64) (ttl : Duration) (T : State Server Unit) :
    increment (wire (timed nanos)) cfg allDials fuel key delta ttl T.connected =
      ((increment (opened (timed nanos)) cfg allDials fuel key delta ttl T).1,
        (increment (opened (timed nanos)) cfg allDials fuel key delta ttl T).2.connected) := by
  have hopened : increment (commands (timed nanos)) cfg allDials fuel key delta ttl
      (T.map fun _ => true) = _ :=
    (linkSim_opened (timed nanos)).incrementCall hkey fuel delta ttl T
  have hwire : increment (wire (timed nanos)) cfg allDials fuel key delta ttl T.connected = _ :=
    (linkSim_wire (timed nanos)).incrementCall hkey fuel delta ttl (T.map fun _ => true)
  rw [hopened] at hwire
  exact hwire

/-- What a call that finds the count `v` does: it is allowed exactly when the next count is
within the limit, and the record holds the next count.  Its expiration time is counted from now, or
is that of the record before. -/
structure Called (S : Setup) (v : Nat) (r : Option (Except Failure RateLimitStatus))
    (s s' : Server) : Prop where
  allowed : ∀ made, Made.allowed ⟨made, r⟩ = true ↔ ((v + 1 : Nat) : Int) ≤ S.limit.toInt
  clock : s'.clock = s.clock
  record : ∃ item, s'.slot (S.full (s.clock / S.length)) = some item ∧
    counterValue item.entry.data = some (v + 1) ∧
    (item.expires = some (s.clock + S.length / nanos * nanos) ∨
      ∃ old, s.slot (S.full (s.clock / S.length)) = some old ∧ item.expires = old.expires)
  other : ∀ other, other ≠ S.full (s.clock / S.length) → s'.slot other = s.slot other

/-- What a call does. -/
theorem rateLimit_spec (S : Setup) {T : State Server Unit}
    (hnow : (T.servers S.addr).clock < 2 ^ 63) {v : Nat}
    (hv : (T.servers S.addr).startNumber (S.full ((T.servers S.addr).clock / S.length)) = some v)
    (hlt : v + 1 < 2 ^ 64) :
    ∃ r, ∃ T' : State Server Unit, rateLimit S.cfg S.cacheTTL S.fuel
        ((T.servers S.addr).clock : Int) S.key S.limit S.window T.connected = (r, T'.connected) ∧
      Called S v r (T.servers S.addr) (T'.servers S.addr) := by
  have hresolve : S.cfg.defaultTTL.resolve S.window = S.window :=
    S.cfg.defaultTTL.resolve_of_pos S.window_pos
  have hseconds : seconds (S.cfg.defaultTTL.resolve S.window) ≤ maxRelative := by
    rw [hresolve]
    exact S.seconds_le
  obtain ⟨fuel, hfuel⟩ : ∃ fuel, S.fuel = fuel + 2 := ⟨S.fuel - 2, by have := S.fuel_ge; omega⟩
  rcases incr_next S.oneAddress hv hlt hseconds fuel with
    ⟨T', item, heq, hclock, hslot, hvalue, hexpires, hother⟩
  have hdeadline : deadlineAt nanos (T.servers S.addr).clock
      (seconds (S.cfg.defaultTTL.resolve S.window)) =
        some ((T.servers S.addr).clock + S.length / nanos * nanos) := by
    have hpos := seconds_pos S.window
    rw [hresolve] at hseconds ⊢
    unfold deadlineAt
    rw [if_neg (by omega), if_neg (by omega), if_pos (by exact_mod_cast hseconds),
      Int.toNat_natCast, S.seconds_window]
  rw [hdeadline] at hexpires
  have hcall : increment (wire (timed nanos)) S.cfg allDials S.fuel
      (bucketKey S.key (bucketOf ((T.servers S.addr).clock : Int) S.window)) 1
      (S.cacheTTL.resolve S.window) T.connected =
        (some (if v + 1 < 2 ^ 63 then .ok (Int64.ofInt (v + 1 : Nat)) else .error .notNumber),
          T'.connected) := by
    rw [S.bucketOf_eq hnow, S.cacheTTL.resolve_of_pos S.window_pos,
      increment_connected (S.oneWord _), hfuel, increment, if_neg (by decide), heq]
  have hreply : rateLimit S.cfg S.cacheTTL S.fuel ((T.servers S.addr).clock : Int) S.key S.limit
      S.window T.connected = (some (if v + 1 < 2 ^ 63 then .ok (statusOf (T.servers S.addr).clock
        S.limit S.window (Int64.ofInt (v + 1 : Nat))) else .error (.store .notNumber)),
          T'.connected) := by
    rw [rateLimit, if_neg (Int64.not_le.mpr S.limit_pos), if_neg (Int64.not_le.mpr S.window_pos),
      hcall]
    split_ifs <;> rfl
  refine ⟨_, T', hreply, fun made => ?_, hclock, ⟨item, hslot, hvalue, hexpires⟩, hother⟩
  have hlimit := S.limit.toInt_lt
  unfold Made.allowed
  split_ifs with hsmall
  · have hcount : (Int64.ofInt ((v + 1 : Nat) : Int)).toInt = (v + 1 : Nat) :=
      Int64.toInt_ofInt_of_le (by omega) (by omega)
    dsimp only [statusOf]
    rw [decide_eq_true_eq, Int64.le_iff_toInt_le, hcount]
  · constructor
    · intro h
      cases h
    · intro h
      omega

/-- Time passes for the servers only. -/
theorem idle_tick {store : State Server Conn} (h : ∃ T : State Server Unit, store = T.connected)
    (n : Nat) : ∃ T : State Server Unit, store.tick n = T.connected := by
  rcases h with ⟨T, rfl⟩
  exact ⟨⟨fun addr => (T.servers addr).tick n, T.pools, T.rr⟩, rfl⟩

/-- A call is made at the current time. -/
theorem step_call {S : Setup} {w : World} (hidle : ∃ T : State Server Unit, w.store = T.connected)
    (hrange : w.now S < 2 ^ 63) {v : Nat}
    (hv : (w.store.servers S.addr).startNumber (S.full (w.now S / S.length)) = some v)
    (hlt : v + 1 < 2 ^ 64) :
    ∃ r, ∃ T' : State Server Unit,
      step S w .call = some ⟨T'.connected, w.log ++ [⟨w.now S, r⟩]⟩ ∧
      Called S v r (w.store.servers S.addr) (T'.servers S.addr) := by
  rcases w with ⟨store, log⟩
  rcases hidle with ⟨T, rfl⟩
  rcases rateLimit_spec S hrange hv hlt with ⟨r, T', heq, hcalled⟩
  refine ⟨r, T', ?_, hcalled⟩
  exact congrArg (fun x => some (World.mk x.2 (log ++ [Made.mk _ x.1]))) heq

/-! ## The invariant -/

section Invariant

variable {S : Setup}

/-- The invariant: the record of a window without calls does not exist, that of the current window
holds the number of its calls and stays to the end of the window, and the calls were allowed as
their numbers say. -/
structure Inv (S : Setup) (w : World) : Prop where
  idle : ∃ T : State Server Unit, w.store = T.connected
  range : w.now S < 2 ^ 63
  made : ∀ c ∈ w.log, c.made ≤ w.now S
  unused : ∀ b < 2 ^ 63, calls S w.log b = 0 → (w.store.servers S.addr).slot (S.full b) = none
  used : 0 < calls S w.log (w.now S / S.length) → ∃ item expiry,
    (w.store.servers S.addr).slot (S.full (w.now S / S.length)) = some item ∧
      counterValue item.entry.data = some (calls S w.log (w.now S / S.length)) ∧
      item.expires = some expiry ∧ (w.now S / S.length + 1) * S.length ≤ expiry
  history : ∀ earlier c later, w.log = earlier ++ c :: later →
    (c.allowed = true ↔ ((calls S earlier (c.made / S.length) + 1 : Nat) : Int) ≤ S.limit.toInt)

variable {w w' : World}

/-- The invariant holds initially. -/
theorem World.Initial.inv (h : w.Initial S) : Inv S w := by
  refine ⟨h.idle, h.range, ?_, fun b _ _ => h.unused b, ?_, ?_⟩
  · intro c hc
    rw [h.log] at hc
    cases hc
  · intro hcalls
    rw [h.log] at hcalls
    exact absurd hcalls (lt_irrefl 0)
  · intro earlier c later hlog
    rw [h.log] at hlog
    exact absurd hlog (List.append_ne_nil_of_right_ne_nil _ (List.cons_ne_nil c later)).symm

/-- The count that a call finds is the number of the calls before it in its window. -/
theorem Inv.startNumber (hw : Inv S w) :
    (w.store.servers S.addr).startNumber (S.full (w.now S / S.length)) =
      some (calls S w.log (w.now S / S.length)) := by
  rcases Nat.eq_zero_or_pos (calls S w.log (w.now S / S.length)) with hzero | hcalls
  · rw [Server.startNumber, hw.unused _ ((Nat.div_le_self _ _).trans_lt hw.range) hzero, hzero]
  · rcases hw.used hcalls with ⟨item, _, hslot, hvalue, -⟩
    exact (Server.startNumber_of_slot hslot).trans hvalue

/-- A call keeps the invariant. -/
theorem Inv.call (hw : Inv S w) (hwhole : nanos ∣ S.length) (hfits : Fits S w .call)
    (h : step S w .call = some w') : Inv S w' := by
  rcases step_call hw.idle hw.range hw.startNumber hfits with ⟨r, T', hstep, hcalled⟩
  rw [hstep] at h
  cases h
  have hnow : World.now S ⟨T'.connected, w.log ++ [⟨w.now S, r⟩]⟩ = w.now S := hcalled.clock
  have hbucket : w.now S / S.length < 2 ^ 63 := (Nat.div_le_self _ _).trans_lt hw.range
  refine ⟨⟨T', rfl⟩, hnow ▸ hw.range, ?_, ?_, ?_, ?_⟩
  · intro c hc
    rw [hnow]
    rcases List.mem_append.mp hc with hold | hnew
    · exact hw.made c hold
    · rw [List.mem_singleton.mp hnew]
  · intro b hb hzero
    dsimp only at hzero
    rw [calls_concat] at hzero
    by_cases hcurrent : w.now S / S.length = b
    · rw [if_pos hcurrent] at hzero
      omega
    · have hne : S.full b ≠ S.full (w.now S / S.length) :=
        fun heq => hcurrent (S.full_inj hb hbucket heq).symm
      exact (hcalled.other _ hne).trans (hw.unused b hb (by omega))
  · intro _
    rw [hnow, calls_concat, if_pos rfl]
    rcases hcalled.record with ⟨item, hslot, hvalue, hexpires⟩
    have hbounds : w.now S / S.length * S.length ≤ w.now S := Nat.div_mul_le_self _ _
    rcases hexpires with hnew | ⟨old, hold, hsame⟩
    · rw [Nat.div_mul_cancel hwhole] at hnew
      refine ⟨item, _, hslot, hvalue, hnew, ?_⟩
      rw [Nat.add_mul, Nat.one_mul]
      exact Nat.add_le_add_right hbounds _
    · have hcalls : 0 < calls S w.log (w.now S / S.length) := by
        by_contra hzero
        have hnone := hw.unused _ hbucket (by omega)
        exact Option.some_ne_none old (hold.symm.trans hnone)
      rcases hw.used hcalls with ⟨item', expiry, hslot', -, hexpires', hlong⟩
      obtain rfl : old = item' := Option.some.inj (hold.symm.trans hslot')
      exact ⟨item, expiry, hslot, hvalue, hsame.trans hexpires', hlong⟩
  · intro earlier c later hlog
    rcases concat_eq_append_cons hlog with ⟨rfl, rfl⟩ | ⟨later', hold⟩
    · exact hcalled.allowed _
    · exact hw.history earlier c later' hold

/-- The passing of time keeps the invariant. -/
theorem Inv.tick (hw : Inv S w) {n : Nat} (hfits : Fits S w (.tick n))
    (h : step S w (.tick n) = some w') : Inv S w' := by
  cases h
  have hnow : World.now S { w with store := w.store.tick n } = w.now S + n := rfl
  have hslot : ∀ key, ((w.store.tick n).servers S.addr).slot key =
      ((w.store.servers S.addr).slot key).filter (Item.live (w.now S + n)) :=
    fun key => Server.slot_tick _ n key
  refine ⟨idle_tick hw.idle n, hfits, ?_, ?_, ?_, hw.history⟩
  · intro c hc
    exact (hw.made c hc).trans (Nat.le_add_right _ _)
  · intro b hb hzero
    dsimp only
    rw [hslot, hw.unused b hb hzero]
    rfl
  · rw [hnow]
    intro hcalls
    -- a window that has calls has begun
    rcases List.countP_pos_iff.mp hcalls with ⟨c, hc, hin⟩
    have hsame : w.now S / S.length = (w.now S + n) / S.length := by
      apply le_antisymm (Nat.div_le_div_right (Nat.le_add_right _ _))
      rw [← (inWindow_iff S).mp hin]
      exact Nat.div_le_div_right (hw.made c hc)
    rw [← hsame] at hcalls ⊢
    rcases hw.used hcalls with ⟨item, expiry, hitem, hvalue, hexpires, hlong⟩
    have hlive : item.live (w.now S + n) = true := by
      have hlt := Nat.lt_div_mul_add S.length_pos (a := w.now S + n)
      rw [← hsame] at hlt
      rw [Nat.add_mul, Nat.one_mul] at hlong
      rw [Item.live, hexpires]
      simp only [decide_eq_true_eq]
      omega
    refine ⟨item, expiry, ?_, hvalue, hexpires, hlong⟩
    dsimp only
    rw [hslot, hitem, Option.filter_some, if_pos hlive]

/-- Every step keeps the invariant, for a window of whole seconds. -/
theorem inv_step {e : Event} (hwhole : nanos ∣ S.length) (hw : Inv S w) (hfits : Fits S w e)
    (h : step S w e = some w') : Inv S w' := by
  cases e with
  | call => exact hw.call hwhole hfits h
  | tick n => exact hw.tick hfits h

/-- At most `limit` calls are allowed along the beginning of a log. -/
theorem Inv.allowed_le (hw : Inv S w) (b : Nat) {log later : List Made}
    (hlog : w.log = log ++ later) :
    ((log.countP fun c => S.inWindow b c && c.allowed : Nat) : Int) ≤ S.limit.toInt := by
  induction log using List.reverseRecOn generalizing later with
  | nil =>
    have hpos : 0 < S.limit.toInt := Int64.lt_iff_toInt_lt.mp S.limit_pos
    rw [List.countP_nil]
    omega
  | append_singleton log c ih =>
    rw [List.append_assoc] at hlog
    have hrest := ih hlog
    rw [List.countP_append, List.countP_singleton]
    split <;> rename_i hcounted
    · rcases Bool.and_eq_true_iff.mp hcounted with ⟨hin, hallowed⟩
      have hk := (hw.history log c later hlog).mp hallowed
      rw [(inWindow_iff S).mp hin] at hk
      -- each allowed call is one of the calls of the window
      have hsub : (log.countP fun d => S.inWindow b d && d.allowed) ≤ calls S log b := by
        apply List.countP_mono_left
        intro d _ hd
        exact (Bool.and_eq_true_iff.mp hd).1
      omega
    · exact_mod_cast hrest

end Invariant

/-! ## Windows with a fraction of a second -/

section Fraction

variable {S : Setup}

/-- After `n` calls at the beginning of the first window, which were all allowed. -/
structure Burst (S : Setup) (n : Nat) (w : World) : Prop where
  idle : ∃ T : State Server Unit, w.store = T.connected
  now : w.now S = 0
  number : (w.store.servers S.addr).startNumber (S.full 0) = some n
  expires : ∀ item, (w.store.servers S.addr).slot (S.full 0) = some item →
    item.expires = some (S.length / nanos * nanos)
  length : w.log.length = n
  allowed : ∀ c ∈ w.log, S.inWindow 0 c && c.allowed

variable {n : Nat} {w : World}

theorem Burst.call (hw : Burst S n w) (hn : n + 1 ≤ S.limit.toInt) :
    ∃ w', step S w .call = some w' ∧ Fits S w .call ∧ Burst S (n + 1) w' := by
  have hlimit := S.limit.toInt_lt
  have hbucket : w.now S / S.length = 0 := by
    rw [hw.now, Nat.zero_div]
  have hfew : calls S w.log (w.now S / S.length) ≤ n := hw.length ▸ List.countP_le_length
  rcases step_call hw.idle (by rw [hw.now]; decide) (by rw [hbucket]; exact hw.number) (by omega)
    with ⟨r, T', hstep, hcalled⟩
  have hclock : (w.store.servers S.addr).clock = 0 := hw.now
  refine ⟨_, hstep, ?_, ⟨T', rfl⟩, hcalled.clock.trans hclock, ?_, ?_, ?_, ?_⟩
  · unfold Fits
    omega
  · rcases hcalled.record with ⟨item, hslot, hvalue, -⟩
    rw [hclock, Nat.zero_div] at hslot
    exact (Server.startNumber_of_slot hslot).trans hvalue
  · intro item hitem
    rcases hcalled.record with ⟨item', hslot, -, hexpires⟩
    rw [hclock, Nat.zero_div] at hslot hexpires
    obtain rfl : item = item' := Option.some.inj (hitem.symm.trans hslot)
    rw [Nat.zero_add] at hexpires
    rcases hexpires with hnew | ⟨old, hold, hsame⟩
    · exact hnew
    · exact hsame.trans (hw.expires old hold)
  · rw [List.length_append, hw.length, List.length_singleton]
  · intro c hc
    rcases List.mem_append.mp hc with hold | hnew
    · exact hw.allowed c hold
    · rw [List.mem_singleton.mp hnew, Bool.and_eq_true_iff]
      exact ⟨(inWindow_iff S).mpr hbucket, (hcalled.allowed _).mpr (by exact_mod_cast hn)⟩

/-- After the last whole second of the window the record is gone. -/
theorem Burst.gone {t : Nat} (hw : Burst S n w) (ht : S.length / nanos * nanos = t) :
    ((w.store.tick t).servers S.addr).startNumber (S.full 0) = some 0 := by
  have hclock : (w.store.servers S.addr).clock = 0 := hw.now
  have hgone : ((w.store.servers S.addr).tick t).slot (S.full 0) = none := by
    rw [Server.slot_tick]
    cases hslot : (w.store.servers S.addr).slot (S.full 0) with
    | none => rfl
    | some item =>
      have hdead : ¬item.live ((w.store.servers S.addr).clock + t) = true := by
        rw [Item.live, hw.expires item hslot, hclock, Nat.zero_add, ht]
        simp only [decide_eq_true_eq]
        exact lt_irrefl _
      rw [Option.filter_some, if_neg hdead]
  change ((w.store.servers S.addr).tick t).startNumber (S.full 0) = _
  rw [Server.startNumber, hgone]

/-- One more call is allowed then. -/
theorem Burst.exceeds {t : Nat} (hw : Burst S n w) (hn : n ≤ S.limit.toInt)
    (hfraction : ¬nanos ∣ S.length) (ht : S.length / nanos * nanos = t) :
    ∃ w', run (step S) w [.tick t, .call] = some w' ∧ Along (step S) (Fits S) w [.tick t, .call] ∧
      (w'.log.countP fun c => S.inWindow 0 c && c.allowed) = n + 1 := by
  let u : World := { w with store := w.store.tick t }
  have hshort : t < S.length := by
    rw [← ht]
    refine lt_of_le_of_ne (Nat.div_mul_le_self _ _) fun heq => hfraction ⟨S.length / nanos, ?_⟩
    rw [Nat.mul_comm]
    exact heq.symm
  have hlength := S.window.toInt_lt
  have hlimit := S.limit.toInt_lt
  have hpos : 0 < S.limit.toInt := Int64.lt_iff_toInt_lt.mp S.limit_pos
  have hwindow := S.toInt_window
  have hnow : u.now S = t := by
    change w.now S + t = _
    rw [hw.now, Nat.zero_add]
  have hbucket : u.now S / S.length = 0 := by
    rw [hnow, Nat.div_eq_of_lt hshort]
  have hzero : (u.store.servers S.addr).startNumber (S.full (u.now S / S.length)) = some 0 := by
    rw [hbucket]
    exact hw.gone ht
  rcases step_call (idle_tick hw.idle t) (by omega) hzero (by omega) with ⟨r, T', hstep, hcalled⟩
  have hcounted : (S.inWindow 0 ⟨u.now S, r⟩ && Made.allowed ⟨u.now S, r⟩) = true :=
    Bool.and_eq_true_iff.mpr ⟨(inWindow_iff S).mpr hbucket,
      (hcalled.allowed _).mpr (by push_cast; omega)⟩
  have hfew : calls S w.log (u.now S / S.length) ≤ n := hw.length ▸ List.countP_le_length
  refine ⟨⟨T'.connected, w.log ++ [⟨u.now S, r⟩]⟩, ?_, ⟨?_, ?_⟩, ?_⟩
  · change (step S u .call).bind (fun v => Transition.run (step S) v []) = _
    rw [hstep]
    rfl
  · change w.now S + t < 2 ^ 63
    rw [hw.now]
    omega
  · rintro _ ⟨⟩
    refine ⟨?_, fun _ _ => trivial⟩
    change calls S w.log (u.now S / S.length) + 1 < 2 ^ 64
    omega
  · rw [List.countP_append, List.countP_singleton, if_pos hcounted,
      List.countP_eq_length.mpr hw.allowed, hw.length]

/-- As many calls as the limit allows, and one more. -/
theorem Burst.run {k : Nat} (hw : Burst S n w) (hn : n + k = S.limit.toInt)
    (hfraction : ¬nanos ∣ S.length) :
    ∃ w', Transition.run (step S) w
        (List.replicate k .call ++ [.tick (S.length / nanos * nanos), .call]) = some w' ∧
      Along (step S) (Fits S) w
        (List.replicate k .call ++ [.tick (S.length / nanos * nanos), .call]) ∧
      ((w'.log.countP fun c => S.inWindow 0 c && c.allowed : Nat) : Int) = S.limit.toInt + 1 := by
  induction k generalizing n w with
  | zero =>
    rcases hw.exceeds (by omega) hfraction rfl with ⟨w', hrun, halong, hcount⟩
    refine ⟨w', hrun, halong, ?_⟩
    rw [hcount]
    omega
  | succ k ih =>
    rcases hw.call (by omega) with ⟨u, hstep, hfits, hu⟩
    rcases ih hu (by push_cast at hn ⊢; omega) with ⟨w', hrun, halong, hcount⟩
    refine ⟨w', ?_, ⟨hfits, ?_⟩, hcount⟩
    · rw [List.replicate_succ, List.cons_append, run_cons, hstep]
      exact hrun
    · intro t ht
      rw [hstep] at ht
      cases ht
      exact halong

end Fraction

/-! ## Main results -/

/-- A new server at the epoch. -/
def freshWorld : World := ⟨State.connected ⟨fun _ => ⟨0, fun _ => none, 0⟩, fun _ => [], 0⟩, []⟩

theorem freshWorld_initial (S : Setup) : freshWorld.Initial S :=
  ⟨⟨_, rfl⟩, rfl, show 0 < 2 ^ 63 by decide, fun _ => rfl⟩

/-- A window with a fraction of a second lets one call too many through: after the last whole second
of the window, the record of the calls at its beginning is gone. -/
theorem limit_exceeded (S : Setup) (hfraction : ¬nanos ∣ S.length) :
    ∃ w, run (step S) freshWorld (List.replicate S.limit.toInt.toNat .call ++
        [.tick (S.length / nanos * nanos), .call]) = some w ∧
      Along (step S) (Fits S) freshWorld (List.replicate S.limit.toInt.toNat .call ++
        [.tick (S.length / nanos * nanos), .call]) ∧
      ((w.log.countP fun c => S.inWindow 0 c && c.allowed : Nat) : Int) = S.limit.toInt + 1 := by
  have hpos : 0 < S.limit.toInt := Int64.lt_iff_toInt_lt.mp S.limit_pos
  have hburst : Burst S 0 freshWorld := by
    refine ⟨⟨_, rfl⟩, rfl, rfl, ?_, rfl, ?_⟩
    · intro item hitem
      cases hitem
    · intro c hc
      cases hc
  exact hburst.run (by omega) hfraction

/--
Rate limits hold on Memcached for windows of whole seconds, and for no others.  Take any limit and
any window between a second and thirty days, on one server with a clock of nanoseconds.  In all runs
of calls at instants of that clock, in which no window sees `2 ^ 64` calls, at most
`limit` calls are allowed within each window, if and only if the window has whole seconds.
-/
theorem limit_kept_iff (S : Setup) : Kept S ↔ (nanos : Int) ∣ S.window.toInt := by
  rw [S.toInt_window, Int.natCast_dvd_natCast]
  constructor
  · intro hkept
    by_contra hfraction
    rcases limit_exceeded S hfraction with ⟨w, hrun, halong, hcount⟩
    have hle := hkept freshWorld _ w (freshWorld_initial S) halong hrun 0
    omega
  · intro hwhole start es w hstart halong hrun b
    have hw : Inv S w :=
      run_preserves_along (fun _ _ _ hs he h => inv_step hwhole hs he h) hstart.inv halong hrun
    exact hw.allowed_le b (List.append_nil w.log).symm

theorem oneWord_bucketKey {cfg : Config} {key : Key} (hscope : Words.Printable cfg.keyPrefix)
    (hkey : Words.Printable key) (bucket : Int64) :
    OneWord (cfg.cacheKey (bucketKey key bucket)) := by
  have hnumber : Words.Printable (ascii ":" ++ Decimal.formatInt bucket) := by
    refine List.forall_mem_append.mpr ⟨List.forall_mem_singleton.mpr (by decide), fun c hc => ?_⟩
    rcases Decimal.mem_formatInt hc with rfl | ⟨hlo, hhi⟩
    · decide
    · exact ⟨UInt8.le_trans (by decide) hlo, UInt8.lt_of_le_of_lt hhi (by decide)⟩
  have hbucket : Words.Printable (bucketKey key bucket) := by
    rw [bucketKey, List.append_assoc]
    exact List.forall_mem_append.mpr ⟨hkey, hnumber⟩
  have hfull : Words.Printable (cfg.cacheKey (bucketKey key bucket)) := by
    unfold Config.cacheKey
    split
    · exact hbucket
    · exact List.forall_mem_append.mpr ⟨hscope, List.forall_mem_cons.mpr ⟨by decide, hbucket⟩⟩
  have hne : cfg.cacheKey (bucketKey key bucket) ≠ [] := by
    unfold Config.cacheKey bucketKey
    split <;> simp [ascii]
  refine ⟨fun hmem => ?_, fun hmem => ?_, ?_⟩
  · exact absurd (hfull 32 hmem).1 (by decide)
  · exact absurd (hfull 10 hmem).1 (by decide)
  · rw [Words.fields_of_printable hfull hne]
    rfl

/-- A limit of one, in a window of any length. -/
def sampleSetup (window : Duration) (hge : nanos ≤ window.toInt)
    (hle : window.toInt ≤ maxRelative * nanos) : Setup where
  cfg := sampleConfig
  addr := ascii "127.0.0.1:11211"
  cacheTTL := DefaultTTL.normalize 0
  key := ascii "login"
  limit := 1
  window := window
  fuel := 2
  oneAddress := oneAddress_singleton rfl
  oneWord := oneWord_bucketKey (by unfold Words.Printable; decide +kernel)
    (by unfold Words.Printable; decide +kernel)
  limit_pos := by decide
  window_ge := hge
  window_le := hle
  fuel_ge := le_rfl

/-- The limit is kept in windows of a minute. -/
theorem limit_kept_minute : Kept (sampleSetup 60000000000 (by decide) (by decide)) :=
  (limit_kept_iff _).mpr (by decide)

/-- Windows of a second and a half. -/
def fractionSetup : Setup := sampleSetup 1500000000 (by decide) (by decide)

/-- Two calls are allowed in the window `[0, 1.5 s)`, a second apart, although the limit is
one. -/
theorem fraction_exceeds_limit :
    ∃ w, run (step fractionSetup) freshWorld [.call, .tick 1000000000, .call] = some w ∧
      (w.log.countP fun c => fractionSetup.inWindow 0 c && c.allowed) = 2 := by
  have hlength : fractionSetup.length = 1500000000 := by decide
  have hlimit : fractionSetup.limit.toInt = 1 := by decide
  have hwhole : 1500000000 / nanos * nanos = 1000000000 := by decide
  rcases limit_exceeded fractionSetup (by rw [hlength]; decide) with ⟨w, hrun, -, hcount⟩
  rw [hlength, hwhole, hlimit] at hrun
  rw [hlimit] at hcount
  exact ⟨w, hrun, by exact_mod_cast hcount⟩

end Windows
end Memcached
end GoforjCache
