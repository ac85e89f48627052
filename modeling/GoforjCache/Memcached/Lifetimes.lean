import GoforjCache.Memcached.CounterCalls
import GoforjCache.Memcached.Sharing

/-!
# Memcached - Lifetimes

The store turns a lifetime into an expiration time in whole seconds, at least one.  The server takes
an expiration time up to thirty days for a number of seconds from now, and a larger one for a Unix
time.  A lifetime of more than thirty days is sent as it is, and is a Unix time of the past.

The clock of this module has a tick for every nanosecond.

Main results:

- Theorem `opened_expires`: what a call has written has the expiration time of its lifetime.
- Theorem `lifetime_honoured_iff`: a record is there as long as its lifetime says, to the
  second, if and only if the lifetime has at most thirty days.
- Theorem `long_lifetime_expires_at_once`: a record with a longer one is never there.
-/

namespace GoforjCache
namespace Memcached

open Foundation
open Nats.Counters (CounterOp)

/-- The ticks of the clock in a second. -/
def nanos : Nat := 1000000000

/-! ## Records and their lifetimes -/

/-- The key and the lifetime of a call that writes a record. -/
def written? : Op → Option (Key × Duration)
  | .set key _ ttl | .add key _ ttl | .lockAcquire key _ ttl | .increment key _ ttl
  | .decrement key _ ttl => some (key, ttl)
  | _ => none

/-- The reply says that the record has been written. -/
def Performed : Reply Res → Prop
  | some (.ok .done) | some (.ok (.flag true)) | some (.ok (.number _)) => True
  | _ => False

/-- `Get` finds the key. -/
def Readable (cfg : Config) (S : State Server Conn) (key : Key) : Prop :=
  ∃ body, (exec (wire (timed nanos)) cfg allDials 0 (.get key) S).1 =
    some (.ok (.value (some body)))

/-- The record is there up to a second before the end of its lifetime, and no longer than a second
after it, unless the lifetime is shorter than a second. -/
def Honoured (cfg : Config) (S : State Server Conn) (key : Key) (ttl : Duration) : Prop :=
  (∀ n : Nat, n ≤ ttl.toInt - nanos → Readable cfg (S.tick n) key) ∧
    (nanos ≤ ttl.toInt → ∀ n : Nat, ttl.toInt + nanos < n → ¬Readable cfg (S.tick n) key)

/-! ## Reading -/

section OneAddress

variable {cfg : Config} {a : Addr} {key : Key}

/-- A key is found if and only if the server has it. -/
theorem readable_iff (ha : OneAddress cfg a) (hkey : OneWord (cfg.cacheKey key))
    (T : State Server Unit) :
    Readable cfg T.connected key ↔ ((T.servers a).slot (cfg.cacheKey key)).isSome = true := by
  have hop : OneWordKeys cfg (.get key) := by
    intro key' hmem
    rw [List.mem_singleton.mp hmem]
    exact hkey
  have hget : (opened (timed nanos)).get (cfg.cacheKey key) (T.servers a) () =
      (.ok ((T.servers a).read (cfg.cacheKey key)), T.servers a, ()) := by
    simp only [opened, timed, Option.map_map]
    rfl
  rcases map_exchange_at (B := timed nanos) (ha T.rr) hget .value with ⟨T', hexec, -, -⟩
  have hreply : (exec (wire (timed nanos)) cfg allDials 0 (.get key) T.connected).1 =
      some (.ok (.value ((T.servers a).read (cfg.cacheKey key)))) := by
    rw [exec_connected (timed nanos) hop]
    exact congrArg Prod.fst hexec
  unfold Readable
  rw [hreply, Server.read]
  cases (T.servers a).slot (cfg.cacheKey key) with
  | none =>
    constructor
    · rintro ⟨body, hbody⟩
      cases hbody
    · intro h
      cases h
  | some item => exact ⟨fun _ => rfl, fun _ => ⟨_, rfl⟩⟩

variable {T : State Server Unit} {ttl : Duration}

/-- A record is found until the tick at which it expires. -/
theorem readable_tick_iff (ha : OneAddress cfg a) (hkey : OneWord (cfg.cacheKey key))
    {item : Item} {second : Nat} (hitem : (T.servers a).items (cfg.cacheKey key) = some item)
    (hexpires : item.expires = some second) (n : Nat) :
    Readable cfg (T.connected.tick n) key ↔ (T.servers a).clock + n < second := by
  have hslot : ((T.servers a).tick n).slot (cfg.cacheKey key) =
      (some item).filter (Item.live ((T.servers a).clock + n)) := by
    rw [Server.slot, ← hitem]
    rfl
  refine (readable_iff ha hkey ⟨fun addr => (T.servers addr).tick n, T.pools, T.rr⟩).trans ?_
  change (((T.servers a).tick n).slot (cfg.cacheKey key)).isSome = true ↔ _
  rw [hslot, Option.filter_some, Item.live, hexpires]
  by_cases hlive : (T.servers a).clock + n < second
  · simp [hlive]
  · simp [hlive]

/-! ## Writing -/

/-- A call with another result. -/
theorem map_eq_ok {σ γ α β : Type} {f : Call σ γ α} {g : α → β} {S S' : State σ γ} {y : β}
    (h : f.map g S = (some (.ok y), S')) : ∃ x, f S = (some (.ok x), S') ∧ g x = y := by
  unfold Call.map Call.andThen at h
  split at h
  · rename_i x T hf
    cases h
    exact ⟨x, hf, rfl⟩
  · cases h
  · cases h

/-- What `set` has written, over one address. -/
theorem set_expires {value : Bytes} {s s' : Server} {full : Key}
    (h : (opened (timed nanos)).set full ttl value s () = (.ok (), s', ())) :
    s'.clock = s.clock ∧ ∃ item, s'.items full = some item ∧
      item.expires = deadlineAt nanos s.clock (seconds ttl) := by
  rcases set_timed nanos s full (length_le_of_set nanos s full h) ttl with
    ⟨s₁, item, hset, hclock, hitem, -, hexpires, -⟩
  rw [h] at hset
  rcases Prod.mk.inj (Prod.mk.inj hset).2 with ⟨rfl, -⟩
  exact ⟨hclock, item, hitem, hexpires⟩

/-- An exchange over one address that succeeds. -/
theorem exchange_ok (ha : OneAddress cfg a) {α : Type} {f : Action Server Unit α}
    {T' : State Server Unit} {x : α}
    (h : exchange (opened (timed nanos)) cfg allDials f T = (some (.ok x), T')) :
    f (T.servers a) () = (.ok x, T'.servers a, ()) := by
  rcases exchange_at (B := timed nanos) (f := f) (ha T.rr) with ⟨T₁, heq, hservers, -⟩
  rw [heq] at h
  rcases Prod.mk.inj h with ⟨hreply, rfl⟩
  have hserver : T₁.servers a = (f (T.servers a) ()).2.1 := by
    rw [hservers, Function.update_self]
  rw [hserver]
  rcases hf : f (T.servers a) () with ⟨y | ⟨err, bad⟩ | _, s, _⟩
  · rw [hf] at hreply
    cases hreply
    rfl
  · rw [hf] at hreply
    cases hreply
  · rw [hf] at hreply
    cases hreply

/-- What a call has written has the expiration time of its lifetime. -/
theorem opened_expires (ha : OneAddress cfg a) {op : Op} (hop : written? op = some (key, ttl))
    (httl : 0 < ttl) {fuel : Nat} {T' : State Server Unit} {res : Res}
    (hperformed : Performed (some (.ok res)))
    (h : exec (opened (timed nanos)) cfg allDials fuel op T = (some (.ok res), T')) :
    (T'.servers a).clock = (T.servers a).clock ∧
      ∃ item, (T'.servers a).items (cfg.cacheKey key) = some item ∧
        item.expires = deadlineAt nanos (T.servers a).clock (seconds ttl) := by
  have hresolve : cfg.defaultTTL.resolve ttl = ttl := cfg.defaultTTL.resolve_of_pos httl
  have hadd : ∀ {value : Bytes},
      (add (opened (timed nanos)) cfg allDials key value ttl).map .flag T = (some (.ok res), T') →
      (T'.servers a).clock = (T.servers a).clock ∧
        ∃ item, (T'.servers a).items (cfg.cacheKey key) = some item ∧
          item.expires = deadlineAt nanos (T.servers a).clock (seconds ttl) := by
    intro value hcall
    rcases map_eq_ok hcall with ⟨x, hstored, rfl⟩
    cases x with
    | false => exact hperformed.elim
    | true =>
      rw [add, hresolve] at hstored
      exact set_expires (add_eq_set nanos _ _ (exchange_ok ha hstored))
  have hcounter : ∀ counter : CounterOp,
      exec (opened (timed nanos)) cfg allDials fuel (toOp key counter) T = (some (.ok res), T') →
      counter.ttl = ttl → (T'.servers a).clock = (T.servers a).clock ∧
        ∃ item, (T'.servers a).items (cfg.cacheKey key) = some item ∧
          item.expires = deadlineAt nanos (T.servers a).clock (seconds ttl) := by
    intro counter hcall heq
    rw [exec_counter] at hcall
    rcases map_eq_ok hcall with ⟨n, hincr, -⟩
    have hexpires := incr_expires ha (route_verb counter) hincr
    rw [heq, hresolve] at hexpires
    exact hexpires
  cases op with
  | set k value t =>
    cases hop
    rcases map_eq_ok h with ⟨x, hstored, -⟩
    rw [set, hresolve] at hstored
    exact set_expires (exchange_ok ha hstored)
  | add k value t | lockAcquire k value t =>
    cases hop
    exact hadd h
  | increment k delta t =>
    cases hop
    exact hcounter (.increment delta ttl) h rfl
  | decrement k delta t =>
    cases hop
    exact hcounter (.decrement delta ttl) h rfl
  | get k | delete k | deleteMany ks | flush | lockRelease k owner => cases hop

/-- The seconds of a lifetime, to the second. -/
theorem seconds_bounds (httl : 0 < ttl) :
    ttl.toInt < ((seconds ttl + 1) * nanos : Nat) ∧
      ((seconds ttl * nanos : Nat) : Int) ≤ ttl.toInt + nanos := by
  have hpos : 0 < ttl.toInt := Int64.lt_iff_toInt_lt.mp httl
  have hwhole : wholeSeconds ttl = ttl.toInt.toNat / 10 ^ 9 ∨
      wholeSeconds ttl = ttl.toInt.toNat / 10 ^ 9 + 1 := by
    unfold wholeSeconds
    dsimp only
    split
    · exact Or.inr rfl
    · exact Or.inl rfl
  unfold seconds nanos
  split <;> omega

/-- A record with the expiration time of a lifetime is there as long as the lifetime says, if and
only if the server counts the expiration time from now. -/
theorem honoured_iff (ha : OneAddress cfg a) (hkey : OneWord (cfg.cacheKey key)) {item : Item}
    (httl : 0 < ttl) (hclock : 2 * nanos ≤ (T.servers a).clock)
    (hitem : (T.servers a).items (cfg.cacheKey key) = some item)
    (hexpires : item.expires = deadlineAt nanos (T.servers a).clock (seconds ttl)) :
    Honoured cfg T.connected key ttl ↔ seconds ttl ≤ maxRelative := by
  have hpos := seconds_pos ttl
  rcases seconds_bounds httl with ⟨hlower, hupper⟩
  have hpos' : 0 < ttl.toInt := Int64.lt_iff_toInt_lt.mp httl
  unfold deadlineAt at hexpires
  rw [if_neg (by omega), if_neg (by omega), Int.toNat_natCast] at hexpires
  constructor
  · intro h
    by_contra hlong
    rw [if_neg (by exact_mod_cast hlong)] at hexpires
    have hmax : maxRelative = 2592000 := by decide
    unfold nanos at hlower hupper hclock
    -- a second before the end of the lifetime, the Unix time is over
    have hread := h.1 (ttl.toInt.toNat - nanos) (by unfold nanos; omega)
    rw [readable_tick_iff ha hkey hitem hexpires] at hread
    unfold nanos at hread
    omega
  · intro hshort
    rw [if_pos (by exact_mod_cast hshort)] at hexpires
    constructor
    · intro n hn
      rw [readable_tick_iff ha hkey hitem hexpires]
      rw [Nat.add_mul] at hlower
      omega
    · intro _ n hn
      rw [readable_tick_iff ha hkey hitem hexpires]
      omega

end OneAddress

/--
Memcached honours lifetimes of at most thirty days, and no others.  Take any call of `Set`,
`Add`, `LockAcquire`, `Increment` or `Decrement` with a positive lifetime on one
server, at any time after the second second of 1970, and suppose that its reply says that the record
has been written.  The record is there at all times up to a second before the end of its lifetime,
and at none later than a second after it, if and only if the whole seconds of the lifetime are at
most thirty days.
-/
theorem lifetime_honoured_iff {cfg : Config} {a : Addr} (ha : OneAddress cfg a) {key : Key}
    (hkey : OneWord (cfg.cacheKey key)) {op : Op} {ttl : Duration}
    (hop : written? op = some (key, ttl)) (httl : 0 < ttl) (fuel : Nat) (T : State Server Unit)
    (hclock : 2 * nanos ≤ (T.servers a).clock)
    (hperformed : Performed (exec (wire (timed nanos)) cfg allDials fuel op T.connected).1) :
    Honoured cfg (exec (wire (timed nanos)) cfg allDials fuel op T.connected).2 key ttl ↔
      seconds ttl ≤ maxRelative := by
  have hkeys : OneWordKeys cfg op := by
    intro key' hmem
    have heq : key' = key := by
      cases op <;> cases hop <;> exact List.mem_singleton.mp hmem
    rw [heq]
    exact hkey
  rw [exec_connected (timed nanos) hkeys] at hperformed ⊢
  rcases hexec : exec (opened (timed nanos)) cfg allDials fuel op T with ⟨reply, T'⟩
  rw [hexec] at hperformed
  have hreply : ∃ res, reply = some (.ok res) := by
    rcases reply with _ | _ | res
    · exact hperformed.elim
    · exact hperformed.elim
    · exact ⟨res, rfl⟩
  rcases hreply with ⟨res, rfl⟩
  rcases opened_expires ha hop httl hperformed hexec with ⟨hsame, item, hitem, hexpires⟩
  rw [← hsame] at hclock hexpires
  exact honoured_iff ha hkey httl hclock hitem hexpires

/-- An empty server of the present day, with a clock of nanoseconds. -/
def presentDay : State Server Unit :=
  ⟨fun _ => ⟨1700000000000000000, fun _ => none, 0⟩, fun _ => [], 0⟩

/-- The store after `Set` with a lifetime. -/
def afterSet (ttl : Duration) : Reply Res × State Server Conn :=
  exec (wire (timed nanos)) sampleConfig allDials 0 (.set (ascii "k") (ascii "v") ttl)
    presentDay.connected

/-- A lifetime of a minute. -/
theorem lifetime_honoured_minute :
    (afterSet 60000000000).1 = some (.ok .done) ∧
      Honoured sampleConfig (afterSet 60000000000).2 (ascii "k") 60000000000 := by
  have hreply : (afterSet 60000000000).1 = some (.ok .done) := rfl
  refine ⟨hreply, (lifetime_honoured_iff (oneAddress_singleton rfl) (by decide +kernel) rfl
    (by decide) 0 presentDay (by decide) ?_).mpr (by decide)⟩
  have hperformed : Performed (afterSet 60000000000).1 := by
    rw [hreply]
    trivial
  exact hperformed

/-- A lifetime of 31 days: `Set` succeeds, and the record is not there. -/
theorem long_lifetime_expires_at_once :
    (afterSet 2678400000000000).1 = some (.ok .done) ∧
      (exec (wire (timed nanos)) sampleConfig allDials 0 (.get (ascii "k"))
        (afterSet 2678400000000000).2).1 = some (.ok (.value none)) :=
  ⟨rfl, rfl⟩

end Memcached
end GoforjCache
