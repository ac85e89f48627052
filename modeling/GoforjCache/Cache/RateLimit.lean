import GoforjCache.Foundation.Transition
import GoforjCache.Foundation.Words
import GoforjCache.Memory.Store

/-!
# Cache - Fixed-window rate limiting

`RateLimit` counts the calls on a key in the record of a derived key, the key with the number
of the current window, and every call restarts the lifetime of that record.  Calls on any keys run
over one memory store, each at one instant of a clock that does not go back; other users of the
store do anything but touch the derived keys, and go-cache's janitor may run at any time.

Main results:

- Theorem `bucketKey_inj`: derived keys tell keys and windows apart.
- Theorem `Inv.readInt64`: the record of the current window holds the number of its calls.
- Theorem `fixed_window_counts`: what the calls of a run return, as long as no window sees
  `2 ^ 63` calls.
- Theorem `count_wraps`: what happens then.
-/

namespace GoforjCache
namespace RateLimit

open Function Foundation Foundation.Transition Foundation.Decimal
open Memory (Items)

/-! ## The operation -/

/-- `RateLimitStatus`. -/
structure RateLimitStatus where
  allowed : Bool
  count : Int64
  remaining : Int64
  resetAt : Instant
deriving DecidableEq

/-- The errors of `rateLimit`. -/
inductive RateLimitError where
  /-- `cache rate limit requires limit > 0`. -/
  | limit
  /-- `cache rate limit requires window > 0`. -/
  | window
  /-- An error of the store. -/
  | store (err : CacheError)
deriving DecidableEq

/-- The number of the current window. -/
def bucketOf (now : Instant) (window : Duration) : Int64 := unixNano now / window

/-- `fmt.Sprintf("%s:%d", key, bucket)`. -/
def bucketKey (key : Key) (bucket : Int64) : Key := key ++ ascii ":" ++ formatInt bucket

/-- What the count of a call means for it. -/
def statusOf (now : Instant) (limit : Int64) (window : Duration) (count : Int64) :
    RateLimitStatus :=
  let remaining := limit - count
  { allowed := decide (count ≤ limit)
    count := count
    remaining := if remaining < 0 then 0 else remaining
    resetAt := ((bucketOf now window + 1) * window).toInt }

/-- `Cache.rateLimit` over a memory store, with the default lifetimes of the cache and of the
store. -/
def rateLimit (cacheTTL storeTTL : DefaultTTL) (m : Items) (now : Instant) (key : Key)
    (limit : Int64) (window : Duration) : Items × Except RateLimitError RateLimitStatus :=
  if limit ≤ 0 then (m, .error .limit)
  else if window ≤ 0 then (m, .error .window)
  else
    match Memory.increment storeTTL m now (bucketKey key (bucketOf now window)) 1
        (cacheTTL.resolve window) with
    | (m', .error err) => (m', .error (.store err))
    | (m', .ok count) => (m', .ok (statusOf now limit window count))

/-! ## Runs -/

/-- What is fixed: the default lifetimes, the keys that are rate limited, and the window of each
key. -/
structure Setup where
  cacheTTL : DefaultTTL
  storeTTL : DefaultTTL
  keys : Set Key
  window : Key → Duration
  window_pos : ∀ key, 0 < window key

/-- A call that was made. -/
structure Call where
  key : Key
  limit : Int64
  made : Int
  result : Except RateLimitError RateLimitStatus

/-- The store, the clock, and the calls so far. -/
structure World where
  items : Items
  now : Int
  log : List Call

/-- The steps.  `other` is any other call of the store. -/
inductive Event where
  | call (key : Key) (limit : Int64)
  | other (op : Op)
  | janitor
  | tick (d : Nat)

/-- One step. -/
def step (S : Setup) (w : World) : Event → Option World
  | .call key limit =>
    let r := rateLimit S.cacheTTL S.storeTTL w.items w.now key limit (S.window key)
    some { w with items := r.1, log := w.log ++ [⟨key, limit, w.now, r.2⟩] }
  | .other op => some { w with items := (Memory.exec S.storeTTL w.now w.items op).1 }
  | .janitor => some { w with items := ExpiringMap.deleteExpired w.items w.now }
  | .tick d => some { w with now := w.now + d }

/-- The derived keys have no records, and the clock is in range. -/
structure World.Initial (S : Setup) (w : World) : Prop where
  log : w.log = []
  nonneg : 0 ≤ w.now
  lt : w.now < 2 ^ 62
  unused : ∀ key ∈ S.keys, ∀ bucket, w.items (bucketKey key bucket) = none

/-- The side condition of a step: calls are on the rate-limited keys with positive limits, nobody
else touches the derived keys, and the clock stays in range. -/
def Admissible (S : Setup) (w : World) : Event → Prop
  | .call key limit => key ∈ S.keys ∧ 0 < limit
  | .other op => ∀ key ∈ S.keys, ∀ bucket, op.touches (bucketKey key bucket) = false
  | .janitor => True
  | .tick d => w.now + d < 2 ^ 62

/-- The call was allowed. -/
def Call.allowed (c : Call) : Bool :=
  match c.result with
  | .ok status => status.allowed
  | .error _ => false

/-- The call is on the key and in the window `[b * w, (b + 1) * w)`. -/
def Setup.inWindow (S : Setup) (key : Key) (b : Int) (c : Call) : Bool :=
  decide (c.key = key ∧ b * (S.window key).toInt ≤ c.made ∧ c.made < (b + 1) * (S.window key).toInt)

/-- The number of calls on a key in a window. -/
def calls (S : Setup) (log : List Call) (key : Key) (b : Int) : Nat := log.countP (S.inWindow key b)

/-! ## Derived keys and windows -/

/-- Derived keys tell keys and windows apart: the number of a window has no colon. -/
theorem bucketKey_inj {key key' : Key} {bucket bucket' : Int64}
    (h : bucketKey key bucket = bucketKey key' bucket') : key = key' ∧ bucket = bucket' := by
  have hcolon : ∀ n : Int64, (58 : UInt8) ∉ formatInt n := by
    intro n hmem
    rcases mem_formatInt hmem with heq | ⟨-, hle⟩
    · exact absurd heq (by decide)
    · exact absurd hle (by decide)
  have hsplit : ∀ (k : Key) (n : Int64), bucketKey k n = k ++ (58 : UInt8) :: formatInt n := by
    intro k n
    rw [bucketKey, List.append_assoc]
    rfl
  rw [hsplit, hsplit] at h
  rcases Words.append_cons_inj_of_notMem_right (hcolon bucket) (hcolon bucket') h with
    ⟨hkey, hbucket⟩
  exact ⟨hkey, formatInt_injective hbucket⟩

section Windows

variable {now : Int} {window : Duration}

/-- The number of the window of an instant of which `UnixNano` is defined. -/
theorem toInt_bucketOf_of_lt (hnonneg : 0 ≤ now) (hlt : now < 2 ^ 63) (hwindow : 0 < window) :
    (bucketOf now window).toInt = now / window.toInt := by
  have hne : window ≠ -1 := by
    rintro rfl
    exact absurd hwindow (by decide)
  have hnow : (unixNano now).toInt = now := by
    apply Int64.toInt_ofInt_of_le <;> omega
  rw [bucketOf, Int64.toInt_div_of_ne_right _ _ hne, hnow, Int.tdiv_eq_ediv_of_nonneg hnonneg]

/-- The number of the window of an instant in range. -/
theorem toInt_bucketOf (hnonneg : 0 ≤ now) (hlt : now < 2 ^ 62) (hwindow : 0 < window) :
    (bucketOf now window).toInt = now / window.toInt :=
  toInt_bucketOf_of_lt hnonneg (by omega) hwindow

/-- An instant lies in its window. -/
theorem window_bounds (now : Int) (hwindow : 0 < window) :
    now / window.toInt * window.toInt ≤ now ∧ now < (now / window.toInt + 1) * window.toInt := by
  have hpos : 0 < window.toInt := Int64.lt_iff_toInt_lt.mp hwindow
  exact ⟨Int.ediv_mul_le now hpos.ne', Int.lt_ediv_add_one_mul_self now hpos⟩

/-- The end of the window of an instant in range is a 64-bit number. -/
theorem window_end_lt (hnonneg : 0 ≤ now) (hlt : now < 2 ^ 62) (hwindow : 0 < window) :
    (now / window.toInt + 1) * window.toInt < 2 ^ 63 := by
  have hbounds := window_bounds now hwindow
  have hmax := window.toInt_lt
  rw [add_mul, one_mul] at hbounds ⊢
  rcases lt_or_ge now window.toInt with hshort | hlong
  · rw [Int.ediv_eq_zero_of_lt hnonneg hshort, zero_mul]
    omega
  · omega

/-- `ResetAt` is the end of the window, computed without overflow. -/
theorem toInt_resetAt (hnonneg : 0 ≤ now) (hlt : now < 2 ^ 62) (hwindow : 0 < window) :
    ((bucketOf now window + 1) * window).toInt = (now / window.toInt + 1) * window.toInt := by
  have hpos : 0 < window.toInt := Int64.lt_iff_toInt_lt.mp hwindow
  have hbucket := toInt_bucketOf hnonneg hlt hwindow
  have hquotient : 0 ≤ now / window.toInt := Int.ediv_nonneg hnonneg hpos.le
  have hsmall : now / window.toInt ≤ now := Int.ediv_le_self window.toInt hnonneg
  have hend := window_end_lt hnonneg hlt hwindow
  have hbounds := window_bounds now hwindow
  have hnext : (bucketOf now window + 1).toInt = now / window.toInt + 1 := by
    rw [Int64.toInt_add, hbucket]
    change (now / window.toInt + 1).bmod (2 ^ 64) = now / window.toInt + 1
    apply Int.bmod_eq_of_le <;> omega
  rw [Int64.toInt_mul, hnext]
  apply Int.bmod_eq_of_le <;> omega

/-- The window of an instant, as a number. -/
theorem bucketOf_eq (hnonneg : 0 ≤ now) (hlt : now < 2 ^ 62) (hwindow : 0 < window) :
    bucketOf now window = Int64.ofInt (now / window.toInt) := by
  rw [← toInt_bucketOf hnonneg hlt hwindow, Int64.ofInt_toInt]

end Windows

/-! ## The invariant -/

/-- The invariant: the record of a window without calls does not exist, that of the current window
holds the number of its calls, and the calls returned what their numbers say, in 64-bit
arithmetic. -/
structure Inv (S : Setup) (w : World) : Prop where
  nonneg : 0 ≤ w.now
  lt : w.now < 2 ^ 62
  made : ∀ c ∈ w.log, 0 ≤ c.made ∧ c.made ≤ w.now ∧ 0 < c.limit
  unused : ∀ key ∈ S.keys, ∀ b, 0 ≤ b → b < 2 ^ 62 → calls S w.log key b = 0 →
    w.items (bucketKey key (Int64.ofInt b)) = none
  used : ∀ key ∈ S.keys, ∀ b, 0 < calls S w.log key b → w.now / (S.window key).toInt = b →
    ∃ t, b * (S.window key).toInt ≤ t ∧ t ≤ w.now ∧
      w.items (bucketKey key (Int64.ofInt b)) =
        some ⟨formatInt (Int64.ofNat (calls S w.log key b)), ExpiringMap.deadline t (S.window key)⟩
  history : ∀ earlier c later, w.log = earlier ++ c :: later →
    c.result = .ok (statusOf c.made c.limit (S.window c.key)
      (Int64.ofNat (calls S earlier c.key (c.made / (S.window c.key).toInt) + 1)))

/-- The invariant holds initially. -/
theorem World.Initial.inv {S : Setup} {w : World} (h : w.Initial S) : Inv S w := by
  refine ⟨h.nonneg, h.lt, ?_, fun key hkey b _ _ _ => h.unused key hkey _, ?_, ?_⟩
  · intro c hc
    rw [h.log] at hc
    cases hc
  · intro key _ b hcalls
    rw [h.log] at hcalls
    exact absurd hcalls (lt_irrefl 0)
  · intro earlier c later hlog
    rw [h.log] at hlog
    exact absurd hlog (List.append_ne_nil_of_right_ne_nil _ (List.cons_ne_nil c later)).symm

section Steps

variable {S : Setup} {w : World} {key : Key}

/-- The record of the current window holds the number of its calls. -/
theorem Inv.readInt64 (hw : Inv S w) (hkey : key ∈ S.keys) :
    Memory.readInt64 w.items w.now (bucketKey key (bucketOf w.now (S.window key))) =
      .ok (Int64.ofNat (calls S w.log key (w.now / (S.window key).toInt))) := by
  have hwindow := S.window_pos key
  have hpos : 0 < (S.window key).toInt := Int64.lt_iff_toInt_lt.mp hwindow
  rw [bucketOf_eq hw.nonneg hw.lt hwindow, Memory.readInt64]
  rcases Nat.eq_zero_or_pos (calls S w.log key (w.now / (S.window key).toInt)) with hzero | hcalls
  · have hsmall : w.now / (S.window key).toInt ≤ w.now := Int.ediv_le_self _ hw.nonneg
    have hnone := hw.unused key hkey _ (Int.ediv_nonneg hw.nonneg hpos.le)
      (hsmall.trans_lt hw.lt) hzero
    rw [hzero, ExpiringMap.get, hnone]
    rfl
  · rcases hw.used key hkey _ hcalls rfl with ⟨t, hstart, hnow, hitem⟩
    -- every call restarts the lifetime, so the record outlives the window of its last call
    have hbounds := (window_bounds w.now hwindow).2
    rw [add_mul, one_mul] at hbounds
    have hlive : ExpiringMap.expired w.now (ExpiringMap.deadline t (S.window key)) = false :=
      ExpiringMap.live_within hwindow hnow (by omega)
    rw [ExpiringMap.get_eq_some_of_live hitem hlive]
    simp only [parseInt_formatInt]

/-- What a call does and returns. -/
theorem Inv.rateLimit_eq (hw : Inv S w) {limit : Int64} (hkey : key ∈ S.keys) (hlimit : 0 < limit) :
    rateLimit S.cacheTTL S.storeTTL w.items w.now key limit (S.window key) =
      (update w.items (bucketKey key (Int64.ofInt (w.now / (S.window key).toInt)))
        (some ⟨formatInt
          (Int64.ofNat (calls S w.log key (w.now / (S.window key).toInt) + 1)),
          ExpiringMap.deadline w.now (S.window key)⟩),
        .ok (statusOf w.now limit (S.window key)
          (Int64.ofNat (calls S w.log key (w.now / (S.window key).toInt) + 1)))) := by
  have hwindow := S.window_pos key
  have hnext : ∀ k : Nat, Int64.ofNat k + 1 = Int64.ofNat (k + 1) := by
    intro k
    rw [Int64.ofNat_add]
    rfl
  rw [rateLimit, if_neg (Int64.not_le.mpr hlimit), if_neg (Int64.not_le.mpr hwindow),
    Memory.increment, hw.readInt64 hkey, S.cacheTTL.resolve_of_pos hwindow]
  dsimp only
  rw [S.storeTTL.resolve_of_pos hwindow, hnext, ← bucketOf_eq hw.nonneg hw.lt hwindow]
  rfl

/-- One more call counts in its own window only. -/
theorem calls_concat (log : List Call) (c : Call) (key : Key) (b : Int) :
    calls S (log ++ [c]) key b = calls S log key b + if S.inWindow key b c then 1 else 0 := by
  rw [calls, calls, List.countP_append, List.countP_singleton]

/-- An instant lies in no window but its own. -/
theorem inWindow_iff {b : Int} {c : Call} :
    S.inWindow key b c = true ↔ c.key = key ∧ c.made / (S.window key).toInt = b := by
  have hpos : 0 < (S.window key).toInt := Int64.lt_iff_toInt_lt.mp (S.window_pos key)
  rw [Setup.inWindow, decide_eq_true_eq, Int.ediv_eq_iff_of_pos hpos, add_mul, one_mul]

/-- A call keeps the invariant. -/
theorem Inv.call (hw : Inv S w) {limit : Int64} (hkey : key ∈ S.keys) (hlimit : 0 < limit)
    {w' : World} (h : step S w (.call key limit) = some w') : Inv S w' := by
  simp only [step, hw.rateLimit_eq hkey hlimit, Option.some.injEq] at h
  generalize hc : (⟨key, limit, w.now, .ok (statusOf w.now limit (S.window key)
    (Int64.ofNat (calls S w.log key (w.now / (S.window key).toInt) + 1)))⟩ : Call) = c at h
  have hin : ∀ key' b, S.inWindow key' b c = true ↔
      key = key' ∧ w.now / (S.window key').toInt = b := by
    intro key' b
    rw [inWindow_iff, ← hc]
  have hrange : 0 ≤ w.now / (S.window key).toInt ∧ w.now / (S.window key).toInt < 2 ^ 62 := by
    have hpos : 0 < (S.window key).toInt := Int64.lt_iff_toInt_lt.mp (S.window_pos key)
    exact ⟨Int.ediv_nonneg hw.nonneg hpos.le, (Int.ediv_le_self _ hw.nonneg).trans_lt hw.lt⟩
  subst h
  refine ⟨hw.nonneg, hw.lt, ?_, ?_, ?_, ?_⟩
  · intro d hd
    rcases List.mem_append.mp hd with hold | hnew
    · exact hw.made d hold
    · rw [List.mem_singleton.mp hnew, ← hc]
      exact ⟨hw.nonneg, le_rfl, hlimit⟩
  · intro key' hkey' b hb hlt hzero
    dsimp only at hzero ⊢
    rw [calls_concat] at hzero
    have hne : bucketKey key' (Int64.ofInt b) ≠
        bucketKey key (Int64.ofInt (w.now / (S.window key).toInt)) := by
      intro heq
      rcases bucketKey_inj heq with ⟨rfl, hbucket⟩
      have hsame := congrArg Int64.toInt hbucket
      rw [Int64.toInt_ofInt_of_le (by omega) (by omega),
        Int64.toInt_ofInt_of_le (by omega) (by omega)] at hsame
      rw [(hin key' b).mpr ⟨rfl, hsame.symm⟩] at hzero
      simp at hzero
    rw [update_of_ne hne]
    exact hw.unused key' hkey' b hb hlt (by omega)
  · intro key' hkey' b hcalls hcurrent
    dsimp only at hcalls hcurrent ⊢
    by_cases hsame : key = key'
    · -- the call itself has just written the record
      subst hsame hcurrent
      refine ⟨w.now, (window_bounds w.now (S.window_pos key)).1, le_rfl, ?_⟩
      rw [update_self, calls_concat, if_pos ((hin key _).mpr ⟨rfl, rfl⟩)]
    · have hout : S.inWindow key' b c = false := by
        rw [Bool.eq_false_iff]
        exact fun hmem => hsame ((hin key' b).mp hmem).1
      rw [calls_concat, hout] at hcalls ⊢
      simp only [Bool.false_eq_true, if_false, Nat.add_zero] at hcalls ⊢
      have hne : bucketKey key' (Int64.ofInt b) ≠
          bucketKey key (Int64.ofInt (w.now / (S.window key).toInt)) :=
        fun heq => hsame (bucketKey_inj heq).1.symm
      rw [update_of_ne hne]
      exact hw.used key' hkey' b hcalls hcurrent
  · intro earlier d later hlog
    rcases concat_eq_append_cons hlog with ⟨rfl, rfl⟩ | ⟨later', hold⟩
    · rw [← hc]
    · exact hw.history earlier d later' hold

/-- A call of another user of the store keeps the invariant. -/
theorem Inv.other (hw : Inv S w) {op : Op}
    (hop : ∀ key ∈ S.keys, ∀ bucket, op.touches (bucketKey key bucket) = false) :
    Inv S { w with items := (Memory.exec S.storeTTL w.now w.items op).1 } := by
  have hframe : ∀ key ∈ S.keys, ∀ bucket,
      (Memory.exec S.storeTTL w.now w.items op).1 (bucketKey key bucket) =
        w.items (bucketKey key bucket) :=
    fun key hkey bucket => Memory.exec_frame (hop key hkey bucket) S.storeTTL w.now w.items
  refine ⟨hw.nonneg, hw.lt, hw.made, ?_, ?_, hw.history⟩
  · intro key hkey b hb hlt hzero
    dsimp only
    rw [hframe key hkey]
    exact hw.unused key hkey b hb hlt hzero
  · intro key hkey b hcalls hcurrent
    dsimp only
    rw [hframe key hkey]
    exact hw.used key hkey b hcalls hcurrent

/-- The janitor keeps the invariant: the record of the current window has not expired. -/
theorem Inv.janitor (hw : Inv S w) :
    Inv S { w with items := ExpiringMap.deleteExpired w.items w.now } := by
  refine ⟨hw.nonneg, hw.lt, hw.made, ?_, ?_, hw.history⟩
  · intro key hkey b hb hlt hzero
    dsimp only [ExpiringMap.deleteExpired]
    rw [hw.unused key hkey b hb hlt hzero]
  · intro key hkey b hcalls hcurrent
    rcases hw.used key hkey b hcalls hcurrent with ⟨t, hstart, hnow, hitem⟩
    refine ⟨t, hstart, hnow, ?_⟩
    have hbounds := (window_bounds w.now (S.window_pos key)).2
    rw [hcurrent, add_mul, one_mul] at hbounds
    exact ExpiringMap.deleteExpired_of_live hitem
      (ExpiringMap.live_within (S.window_pos key) hnow (by omega))

/-- The passing of time keeps the invariant: a window that has calls has begun. -/
theorem Inv.tick (hw : Inv S w) {d : Nat} (hlt : w.now + d < 2 ^ 62) :
    Inv S { w with now := w.now + d } := by
  have hnow := hw.nonneg
  refine ⟨?_, hlt, ?_, hw.unused, ?_, hw.history⟩
  · dsimp only
    omega
  · intro c hc
    rcases hw.made c hc with ⟨hmade, hle, hlimit⟩
    refine ⟨hmade, ?_, hlimit⟩
    dsimp only
    omega
  · intro key hkey b hcalls hlater
    rcases List.countP_pos_iff.mp hcalls with ⟨c, hc, hin⟩
    have hpos : 0 < (S.window key).toInt := Int64.lt_iff_toInt_lt.mp (S.window_pos key)
    have hmade := hw.made c hc
    rw [Setup.inWindow, decide_eq_true_eq] at hin
    have hcurrent : w.now / (S.window key).toInt = b := by
      dsimp only at hlater
      rw [Int.ediv_eq_iff_of_pos hpos] at hlater ⊢
      omega
    rcases hw.used key hkey b hcalls hcurrent with ⟨t, hstart, hle, hitem⟩
    exact ⟨t, hstart, by dsimp only; omega, hitem⟩

/-- Every admissible step keeps the invariant. -/
theorem inv_step {w' : World} {e : Event} (hw : Inv S w) (he : Admissible S w e)
    (h : step S w e = some w') : Inv S w' := by
  cases e with
  | call key limit => exact hw.call he.1 he.2 h
  | other op =>
    cases h
    exact hw.other he
  | janitor =>
    cases h
    exact hw.janitor
  | tick d =>
    cases h
    exact hw.tick he

end Steps

/-! ## What the calls return -/

/-- What the status of the `k`-th call says, without wrapping. -/
theorem statusOf_spec {k : Nat} (hk : k < 2 ^ 63) (now : Int) {limit : Int64} (hlimit : 0 < limit)
    (window : Duration) :
    (statusOf now limit window (Int64.ofNat k)).count.toInt = k ∧
    ((statusOf now limit window (Int64.ofNat k)).allowed = true ↔ (k : Int) ≤ limit.toInt) ∧
    (statusOf now limit window (Int64.ofNat k)).remaining.toInt = max (limit.toInt - k) 0 := by
  have hcount : (Int64.ofNat k).toInt = k := Int64.toInt_ofNat_of_lt hk
  have hpos : 0 < limit.toInt := Int64.lt_iff_toInt_lt.mp hlimit
  have hmax := limit.toInt_lt
  have hdiff : (limit - Int64.ofNat k).toInt = limit.toInt - k := by
    rw [Int64.toInt_sub, hcount]
    apply Int.bmod_eq_of_le <;> omega
  refine ⟨hcount, ?_, ?_⟩
  · rw [statusOf, decide_eq_true_eq, Int64.le_iff_toInt_le, hcount]
  · dsimp only [statusOf]
    split <;> rename_i hneg
    · rw [Int64.lt_iff_toInt_lt, hdiff, Int64.toInt_zero] at hneg
      rw [Int64.toInt_zero, max_eq_right hneg.le]
    · rw [Int64.lt_iff_toInt_lt, hdiff, Int64.toInt_zero, not_lt] at hneg
      rw [hdiff, max_eq_left hneg]

/-- The status that the `k`-th call on a key with window `w`, in the window with number
`b`, is to return. -/
structure Expected (now limit w b k : Int) (status : RateLimitStatus) : Prop where
  count : status.count.toInt = k
  allowed : status.allowed = true ↔ k ≤ limit
  remaining : status.remaining.toInt = max (limit - k) 0
  resetAt : status.resetAt = (b + 1) * w
  lt_resetAt : now < status.resetAt
  resetAt_le : status.resetAt ≤ now + w
  in_range : (b + 1) * w < 2 ^ 63

section Results

variable {S : Setup} {w : World}

/-- What a call returned, when fewer than `2 ^ 63` calls came before it in its window. -/
theorem Inv.expected (hw : Inv S w) {earlier later : List Call} {c : Call} {b : Int}
    (hlog : w.log = earlier ++ c :: later) (hin : S.inWindow c.key b c = true)
    (hfew : calls S earlier c.key b + 1 < 2 ^ 63) :
    ∃ status, c.result = .ok status ∧
      Expected c.made c.limit.toInt (S.window c.key).toInt b
        ((calls S earlier c.key b + 1 : Nat) : Int) status := by
  have hmem : c ∈ w.log := by
    rw [hlog]
    exact List.mem_append_right earlier List.mem_cons_self
  rcases hw.made c hmem with ⟨hnonneg, hle, hlimit⟩
  have hlt : c.made < 2 ^ 62 := hle.trans_lt hw.lt
  have hwindow := S.window_pos c.key
  rcases inWindow_iff.mp hin with ⟨-, rfl⟩
  have hresult := hw.history earlier c later hlog
  have hspec := statusOf_spec hfew c.made hlimit (S.window c.key)
  have hreset := toInt_resetAt hnonneg hlt hwindow
  have hbounds := window_bounds c.made hwindow
  refine ⟨_, hresult, hspec.1, hspec.2.1, hspec.2.2, hreset, ?_, ?_,
    window_end_lt hnonneg hlt hwindow⟩
  · exact hbounds.2.trans_eq hreset.symm
  · refine hreset.trans_le ?_
    rw [add_mul, one_mul]
    omega

/-- At most `limit` calls with a common limit are allowed along the beginning of a log. -/
theorem Inv.allowed_le (hw : Inv S w) (hfew : ∀ key b, calls S w.log key b < 2 ^ 63) {key : Key}
    {b : Int} {limit : Int64} (hlimit : 0 < limit) {log later : List Call}
    (hlog : w.log = log ++ later) :
    ((log.countP fun c => S.inWindow key b c && (decide (c.limit = limit) && c.allowed) : Nat) :
      Int) ≤ limit.toInt := by
  induction log using List.reverseRecOn generalizing later with
  | nil =>
    have hpos : 0 < limit.toInt := Int64.lt_iff_toInt_lt.mp hlimit
    rw [List.countP_nil]
    omega
  | append_singleton log c ih =>
    rw [List.append_assoc] at hlog
    have hrest := ih hlog
    rw [List.countP_append, List.countP_singleton]
    split <;> rename_i hcounted
    · simp only [Bool.and_eq_true, decide_eq_true_eq] at hcounted
      rcases hcounted with ⟨hin, hsame, hallowed⟩
      have hkey := (inWindow_iff.mp hin).1
      subst hkey hsame
      have htotal := hfew c.key b
      rw [hlog, calls, List.countP_append, List.countP_append, List.countP_singleton,
        if_pos hin] at htotal
      have hbefore : calls S log c.key b + 1 < 2 ^ 63 := by
        rw [calls]
        omega
      rcases hw.expected hlog hin hbefore with ⟨status, hresult, hexpected⟩
      rw [Call.allowed, hresult] at hallowed
      have hk := hexpected.allowed.mp hallowed
      -- each allowed call is one of the calls of the window
      have hsub : (log.countP fun d => S.inWindow c.key b d &&
          (decide (d.limit = c.limit) && d.allowed)) ≤ calls S log c.key b := by
        apply List.countP_mono_left
        intro d _ hd
        exact (Bool.and_eq_true_iff.mp hd).1
      omega
    · exact_mod_cast hrest

end Results

/--
Fixed-window rate limiting.  Take a memory store in which the derived keys are unused, and any run
of calls on rate-limited keys, each with its own positive window, any positive limits, at instants
of a clock that does not go back and stays in `[0, 2 ^ 62)`, together with the janitor and any
calls that do not touch the derived keys, in which no window sees `2 ^ 63` calls on its key.

- The `k`-th call on a key within the window `[b * w, (b + 1) * w)` returns the count
  `k`, is allowed exactly when `k` is within its limit, has `max (limit - k) 0`
  remaining, and `ResetAt` is `(b + 1) * w`, computed without overflow, after the call and
  at most a window later.  Calls on other keys and in other windows play no part.
- Within one window at most `limit` calls with a common limit are allowed.
-/
theorem fixed_window_counts {S : Setup} {start w : World} {es : List Event}
    (hinit : start.Initial S) (hadmissible : Along (step S) (Admissible S) start es)
    (hrun : run (step S) start es = some w) (hfew : ∀ key b, calls S w.log key b < 2 ^ 63) :
    (∀ earlier c later b, w.log = earlier ++ c :: later → S.inWindow c.key b c = true →
      ∃ status, c.result = .ok status ∧
        Expected c.made c.limit.toInt (S.window c.key).toInt b
          ((calls S earlier c.key b + 1 : Nat) : Int) status) ∧
    (∀ key b limit, 0 < limit →
      ((w.log.countP fun c => S.inWindow key b c && (decide (c.limit = limit) && c.allowed) :
        Nat) : Int) ≤ limit.toInt) := by
  have hw : Inv S w :=
    run_preserves_along (fun _ _ _ hs he h => inv_step hs he h) hinit.inv hadmissible hrun
  constructor
  · intro earlier c later b hlog hin
    apply hw.expected hlog hin
    have htotal := hfew c.key b
    rw [hlog, calls, List.countP_append, List.countP_cons, if_pos hin] at htotal
    rw [calls]
    omega
  · intro key b limit hlimit
    exact hw.allowed_le hfew hlimit (List.append_nil w.log).symm

/-! ## Windows of a minute -/

/-- One key with a window of a minute. -/
def sampleSetup : Setup where
  cacheTTL := DefaultTTL.normalize 0
  storeTTL := DefaultTTL.normalize 0
  keys := Set.univ
  window := fun _ => 60000000000
  window_pos := fun _ => by decide

/-- An empty store at the epoch. -/
def freshWorld : World := ⟨fun _ => none, 0, []⟩

/-- Nothing has been written. -/
theorem freshWorld_initial : freshWorld.Initial sampleSetup :=
  ⟨rfl, le_rfl, by decide, fun _ _ _ => rfl⟩

/-- Three calls within a second, with limit two, and one a minute later. -/
def fourCalls : List Event :=
  [.call (ascii "a") 2, .call (ascii "a") 2, .tick 1000000000, .call (ascii "a") 2,
    .tick 60000000000, .call (ascii "a") 2]

/-- The store after that run. -/
def fourWorld : World := (run (step sampleSetup) freshWorld fourCalls).getD freshWorld

/-- The third call is not allowed, and the next window starts again at one. -/
theorem fixed_window_counts_four :
    run (step sampleSetup) freshWorld fourCalls = some fourWorld ∧
    fourWorld.log.map Call.result =
      [.ok ⟨true, 1, 1, 60000000000⟩, .ok ⟨true, 2, 0, 60000000000⟩,
        .ok ⟨false, 3, 0, 60000000000⟩, .ok ⟨true, 1, 1, 120000000000⟩] ∧
    (∀ key b limit, 0 < limit →
      ((fourWorld.log.countP fun c =>
        sampleSetup.inWindow key b c && (decide (c.limit = limit) && c.allowed) : Nat) : Int) ≤
          limit.toInt) := by
  have hrun : run (step sampleSetup) freshWorld fourCalls = some fourWorld := rfl
  have hadmissible : Along (step sampleSetup) (Admissible sampleSetup) freshWorld fourCalls := by
    refine ⟨⟨trivial, by decide⟩, ?_⟩
    rintro _ ⟨⟩
    refine ⟨⟨trivial, by decide⟩, ?_⟩
    rintro _ ⟨⟩
    refine ⟨show (0 : Int) + (1000000000 : Nat) < 2 ^ 62 by decide, ?_⟩
    rintro _ ⟨⟩
    refine ⟨⟨trivial, by decide⟩, ?_⟩
    rintro _ ⟨⟩
    refine ⟨show (0 : Int) + (1000000000 : Nat) + (60000000000 : Nat) < 2 ^ 62 by decide, ?_⟩
    rintro _ ⟨⟩
    exact ⟨⟨trivial, by decide⟩, fun _ _ => trivial⟩
  have hfew : ∀ key b, calls sampleSetup fourWorld.log key b < 2 ^ 63 := by
    intro key b
    have hlength : calls sampleSetup fourWorld.log key b ≤ 4 := List.countP_le_length
    omega
  exact ⟨hrun, rfl, (fixed_window_counts freshWorld_initial hadmissible hrun hfew).2⟩

/-! ## Too many calls -/

/-- Calls on one key, one after the other at one instant. -/
theorem run_replicate_call (S : Setup) (key : Key) (limit : Int64) (n : Nat) (w : World) :
    ∃ w' made, run (step S) w (List.replicate n (.call key limit)) = some w' ∧
      w'.log = w.log ++ made ∧ made.length = n ∧
      ∀ c ∈ made, c.key = key ∧ c.limit = limit ∧ c.made = w.now := by
  induction n generalizing w with
  | zero => exact ⟨w, [], rfl, (List.append_nil w.log).symm, rfl, fun c hc => by cases hc⟩
  | succ n ih =>
    rw [List.replicate_succ]
    obtain ⟨u, hu⟩ : ∃ u, step S w (.call key limit) = some u := ⟨_, rfl⟩
    have hlog : ∃ result, u.log = w.log ++ [⟨key, limit, w.now, result⟩] ∧ u.now = w.now := by
      cases hu
      exact ⟨_, rfl, rfl⟩
    rcases hlog with ⟨result, hlog, hnow⟩
    rcases ih u with ⟨w', made, hrun, hmade, hlength, hall⟩
    refine ⟨w', ⟨key, limit, w.now, result⟩ :: made, ?_, ?_, ?_, ?_⟩
    · rw [run_cons, hu]
      exact hrun
    · rw [hmade, hlog, List.append_assoc]
      rfl
    · rw [List.length_cons, hlength]
    · intro c hc
      rcases List.mem_cons.mp hc with rfl | hmem
      · exact ⟨rfl, rfl, rfl⟩
      · rw [← hnow]
        exact hall c hmem

/-- The `2 ^ 63`-th call on a key in one window returns a negative count, and is allowed
although the limit is one: the count is a 64-bit integer. -/
theorem count_wraps :
    ∃ es w earlier c status, freshWorld.Initial sampleSetup ∧
      Along (step sampleSetup) (Admissible sampleSetup) freshWorld es ∧
      run (step sampleSetup) freshWorld es = some w ∧ w.log = earlier ++ [c] ∧
      sampleSetup.inWindow c.key 0 c = true ∧ calls sampleSetup earlier c.key 0 + 1 = 2 ^ 63 ∧
      c.limit = 1 ∧ c.result = .ok status ∧ status.count.toInt = -2 ^ 63 ∧
      status.allowed = true := by
  rcases run_replicate_call sampleSetup (ascii "a") 1 (2 ^ 63) freshWorld with
    ⟨w, made, hrun, hlog, hlength, hall⟩
  have hadmissible : Along (step sampleSetup) (Admissible sampleSetup) freshWorld
      (List.replicate (2 ^ 63) (.call (ascii "a") 1)) := by
    apply along_of_forall
    intro e he w
    rw [List.eq_of_mem_replicate he]
    exact ⟨trivial, by decide⟩
  have hw : Inv sampleSetup w :=
    run_preserves_along (fun _ _ _ hs he h => inv_step hs he h) freshWorld_initial.inv hadmissible
      hrun
  have hin : ∀ c ∈ made, c.key = ascii "a" ∧ sampleSetup.inWindow (ascii "a") 0 c = true := by
    intro c hc
    rcases hall c hc with ⟨hkey, -, hmade⟩
    refine ⟨hkey, inWindow_iff.mpr ⟨hkey, ?_⟩⟩
    rw [hmade]
    rfl
  rcases List.eq_nil_or_concat' made with rfl | ⟨earlier, c, rfl⟩
  · exact absurd hlength (by decide)
  · have hc := hin c (List.mem_append_right earlier List.mem_cons_self)
    have hcalls : calls sampleSetup earlier (ascii "a") 0 = 2 ^ 63 - 1 := by
      rw [List.length_append, List.length_singleton] at hlength
      rw [calls, List.countP_eq_length.mpr fun d hd => (hin d (List.mem_append_left [c] hd)).2]
      omega
    have hlimit := (hall c (List.mem_append_right earlier List.mem_cons_self)).2
    have hresult := hw.history earlier c [] hlog
    have hwindow := (inWindow_iff.mp hc.2).2
    rw [hc.1, hlimit.1] at hresult
    rw [hwindow, hcalls] at hresult
    refine ⟨_, w, earlier, c, _, freshWorld_initial, hadmissible, hrun, hlog, ?_, ?_, hlimit.1,
      hresult, ?_, ?_⟩
    · rw [hc.1]
      exact hc.2
    · rw [hc.1, hcalls]
      rfl
    · change (Int64.ofNat (2 ^ 63 - 1 + 1)).toInt = -2 ^ 63
      decide
    · change decide (Int64.ofNat (2 ^ 63 - 1 + 1) ≤ 1) = true
      decide

end RateLimit
end GoforjCache
