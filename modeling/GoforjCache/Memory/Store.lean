import GoforjCache.Core.Contract

/-!
# Memory - The in-process store

The operations of `memoryStore` over the go-cache engine, which is an
expiring map: an entry is dead exactly when the clock has passed its positive
expiration.  The store writes byte slices only, so the other representations that
`readInt64` accepts never occur here.

Main results:

- Theorem `exec_frame`: a call leaves the records of all other keys alone.
- Theorem `exec_plan`: a call means what the contract says, on the record of its key.
- Theorem `lockAcquire_spec`: a lock is granted exactly when its key
  has no live record.
- Theorem `lockRelease_changes`: a release removes at most the record that
  carries the releasing owner.
-/

namespace GoforjCache
namespace Memory

open Function Foundation

/-- The engine behind the store. -/
abbrev Items := ExpiringMap Key Bytes

/-! ## Operations -/

/-- `memoryStore.Get`. -/
def get (m : Items) (now : Instant) (key : Key) : Option Bytes := m.get now key

/-- `memoryStore.Set`. -/
def set (d : DefaultTTL) (m : Items) (now : Instant) (key : Key) (value : Bytes)
    (ttl : Duration) : Items :=
  m.set now key value (d.resolve ttl)

/-- `memoryStore.Add`: the engine's refusal is reported as `false`. -/
def add (d : DefaultTTL) (m : Items) (now : Instant) (key : Key) (value : Bytes)
    (ttl : Duration) : Items × Bool :=
  match m.add now key value (d.resolve ttl) with
  | none => (m, false)
  | some m' => (m', true)

/-- `memoryStore.LockAcquire`. -/
def lockAcquire (d : DefaultTTL) (m : Items) (now : Instant) (key : Key) (owner : Bytes)
    (ttl : Duration) : Items × Bool :=
  add d m now key owner ttl

/-- `memoryStore.LockRelease`. -/
def lockRelease (m : Items) (now : Instant) (key : Key) (owner : Bytes) : Items × Bool :=
  match m.get now key with
  | none => (m, false)
  | some value => if value = owner then (m.delete key, true) else (m, false)

/-- `memoryStore.readInt64`: zero for a miss, an error for other text. -/
def readInt64 (m : Items) (now : Instant) (key : Key) : Except CacheError Int64 :=
  match m.get now key with
  | none => .ok 0
  | some value =>
    match Decimal.parseInt value with
    | some n => .ok n
    | none => .error (.notNumeric key)

/-- `memoryStore.Increment`. -/
def increment (d : DefaultTTL) (m : Items) (now : Instant) (key : Key) (delta : Int64)
    (ttl : Duration) : Items × Except CacheError Int64 :=
  match readInt64 m now key with
  | .error err => (m, .error err)
  | .ok current =>
    let next := current + delta
    (m.set now key (Decimal.formatInt next) (d.resolve ttl), .ok next)

/-- `memoryStore.Decrement`. -/
def decrement (d : DefaultTTL) (m : Items) (now : Instant) (key : Key) (delta : Int64)
    (ttl : Duration) : Items × Except CacheError Int64 :=
  increment d m now key (-delta) ttl

/-- `memoryStore.Delete`. -/
def delete (m : Items) (key : Key) : Items := ExpiringMap.delete m key

/-- `memoryStore.DeleteMany`. -/
def deleteMany (m : Items) (keys : List Key) : Items := keys.foldl delete m

/-- `memoryStore.Flush`. -/
def flush : Items := ExpiringMap.flush

/-- The result of a counter operation. -/
def counterRes : Except CacheError Int64 → Res
  | .ok n => .number n
  | .error err => .error err

/-- Any operation of the contract, at one instant. -/
def exec (d : DefaultTTL) (now : Instant) (m : Items) : Op → Items × Res
  | .get key => (m, .value (get m now key))
  | .set key value ttl => (set d m now key value ttl, .done)
  | .add key value ttl => let r := add d m now key value ttl; (r.1, .flag r.2)
  | .increment key delta ttl =>
    let r := increment d m now key delta ttl; (r.1, counterRes r.2)
  | .decrement key delta ttl =>
    let r := decrement d m now key delta ttl; (r.1, counterRes r.2)
  | .delete key => (delete m key, .done)
  | .deleteMany keys => (deleteMany m keys, .done)
  | .flush => (flush, .done)
  | .lockAcquire key owner ttl =>
    let r := lockAcquire d m now key owner ttl; (r.1, .flag r.2)
  | .lockRelease key owner => let r := lockRelease m now key owner; (r.1, .flag r.2)

/-! ## The contract -/

/-- `Add` either writes its own record or reports `false` and changes
nothing. -/
theorem add_spec (d : DefaultTTL) (m : Items) (now : Instant) (key : Key) (value : Bytes)
    (ttl : Duration) :
    (m.get now key = none ∧ add d m now key value ttl =
      (update m key (some ⟨value, ExpiringMap.deadline now (d.resolve ttl)⟩), true)) ∨
    ((m.get now key).isSome ∧ add d m now key value ttl = (m, false)) := by
  unfold add ExpiringMap.add
  cases hget : m.get now key with
  | none => exact Or.inl ⟨rfl, rfl⟩
  | some v => exact Or.inr ⟨rfl, rfl⟩

/-- A release either removes a live record that carries the owner or changes
nothing. -/
theorem lockRelease_spec (m : Items) (now : Instant) (key : Key) (owner : Bytes) :
    (m.get now key = some owner ∧ lockRelease m now key owner = (update m key none, true)) ∨
    (m.get now key ≠ some owner ∧ lockRelease m now key owner = (m, false)) := by
  unfold lockRelease
  cases hget : m.get now key with
  | none => exact Or.inr ⟨by simp, rfl⟩
  | some v =>
    by_cases hv : v = owner
    · subst hv
      exact Or.inl ⟨rfl, by simp [ExpiringMap.delete]⟩
    · exact Or.inr ⟨by simpa using hv, by simp [hv]⟩

/-- A conditional write follows its plan. -/
theorem add_plan (d : DefaultTTL) (now : Instant) (m : Items) (key : Key) (value : Bytes)
    (ttl : Duration) :
    ((add d m now key value ttl).1, Res.flag (add d m now key value ttl).2) =
      (update m key ((planAdd value ttl (m.get now key)).1.apply d now (m key)),
        (planAdd value ttl (m.get now key)).2) := by
  unfold add ExpiringMap.add
  cases m.get now key with
  | none => rfl
  | some v => simp [planAdd, Change.apply]

/-- A counter update follows its plan. -/
theorem increment_plan (d : DefaultTTL) (now : Instant) (m : Items) (key : Key) (delta : Int64)
    (ttl : Duration) :
    ((increment d m now key delta ttl).1, counterRes (increment d m now key delta ttl).2) =
      (update m key ((planIncrement key delta ttl (m.get now key)).1.apply d now (m key)),
        (planIncrement key delta ttl (m.get now key)).2) := by
  unfold increment readInt64
  cases m.get now key with
  | none => rfl
  | some body =>
    cases hparse : Decimal.parseInt body with
    | some n => simp [planIncrement, hparse, Change.apply, counterRes, ExpiringMap.set]
    | none => simp [planIncrement, hparse, Change.apply, counterRes]

variable {op : Op} {key : Key} {now : Instant} {m : Items}

/-- A call on one record answers by its plan and changes the record by it. -/
theorem exec_plan (d : DefaultTTL) (now : Instant) (m : Items) (h : op.single = some key) :
    exec d now m op =
      (update m key ((op.plan (m.get now key)).1.apply d now (m key)),
        (op.plan (m.get now key)).2) := by
  cases op with
  | get k =>
    cases h
    simp [exec, get, Op.plan, Change.apply]
  | set k value ttl | delete k =>
    cases h
    rfl
  | add k value ttl | lockAcquire k value ttl =>
    cases h
    exact add_plan d now m key value ttl
  | increment k delta ttl =>
    cases h
    exact increment_plan d now m key delta ttl
  | decrement k delta ttl =>
    cases h
    exact increment_plan d now m key (-delta) ttl
  | lockRelease k owner =>
    cases h
    simp only [exec, Op.plan]
    rcases lockRelease_spec m now key owner with ⟨hget, heq⟩ | ⟨hget, heq⟩
    · rw [heq, if_pos hget]
      rfl
    · rw [heq, if_neg hget]
      simp [Change.apply]
  | deleteMany keys => cases h
  | flush => cases h

theorem deleteMany_of_notMem {keys : List Key} (h : key ∉ keys) (m : Items) :
    deleteMany m keys key = m key := by
  unfold deleteMany
  induction keys generalizing m with
  | nil => rfl
  | cons k keys ih =>
    rw [List.mem_cons, not_or] at h
    rw [List.foldl_cons, ih h.2]
    exact update_of_ne h.1 _ _

theorem deleteMany_of_mem {keys : List Key} (h : key ∈ keys) (m : Items) :
    deleteMany m keys key = none := by
  unfold deleteMany
  induction keys generalizing m with
  | nil => cases h
  | cons k keys ih =>
    rw [List.foldl_cons]
    by_cases hmem : key ∈ keys
    · exact ih hmem _
    · obtain rfl : key = k := by simpa [hmem] using h
      have hkept := deleteMany_of_notMem hmem (delete m key)
      rw [deleteMany] at hkept
      rw [hkept]
      exact update_self _ _ _

/-! ## Frame -/

/-- A call leaves the records of the keys it does not touch alone. -/
theorem exec_frame (h : op.touches key = false) (d : DefaultTTL) (now : Instant) (m : Items) :
    (exec d now m op).1 key = m key := by
  cases hsingle : op.single with
  | some k =>
    have hne : key ≠ k := by simpa [Op.touches, Op.keys_of_single hsingle] using h
    rw [exec_plan d now m hsingle]
    exact update_of_ne hne _ _
  | none =>
    rcases Op.of_single_eq_none hsingle with ⟨keys, rfl⟩ | rfl
    · exact deleteMany_of_notMem (by simpa [Op.touches, Op.keys] using h) m
    · simp [Op.touches, Op.keys] at h

/-- A call whose result says that it was not applied changes nothing. -/
theorem exec_unapplied {d : DefaultTTL} (h : (exec d now m op).2.applied = false) :
    (exec d now m op).1 = m := by
  cases hsingle : op.single with
  | some k =>
    rw [exec_plan d now m hsingle] at h ⊢
    dsimp only at h ⊢
    rw [Op.plan_unapplied h]
    exact update_eq_self k m
  | none =>
    rcases Op.of_single_eq_none hsingle with ⟨keys, rfl⟩ | rfl
    · cases h
    · cases h

/-- A record that was just written is read back. -/
theorem get_of_written {d : Duration} (hd : 0 < d) (key : Key) (v : Bytes) :
    get (update m key (some ⟨v, ExpiringMap.deadline now d⟩)) now key = some v := by
  exact ExpiringMap.get_eq_some_of_live (update_self _ _ _)
    (ExpiringMap.live_at_write hd now)

/-! ## Lock operations -/

/-- A lock is granted exactly when its key has no live record; the grant writes
the owner's record and a refusal changes nothing. -/
theorem lockAcquire_spec (d : DefaultTTL) (m : Items) (now : Instant) (key : Key)
    (owner : Bytes) {ttl : Duration} (httl : 0 < ttl) :
    (m.get now key = none ∧ lockAcquire d m now key owner ttl =
      (update m key (some ⟨owner, ExpiringMap.deadline now ttl⟩), true)) ∨
    ((m.get now key).isSome ∧ lockAcquire d m now key owner ttl = (m, false)) := by
  have hspec := add_spec d m now key owner ttl
  rw [d.resolve_of_pos httl] at hspec
  exact hspec

/-- A release removes at most the record that carries the releasing owner. -/
theorem lockRelease_changes {owner : Bytes} {k : Key}
    (hk : (lockRelease m now key owner).1 k ≠ m k) :
    k = key ∧ (lockRelease m now key owner).1 k = none ∧
      ∃ item, m k = some item ∧ item.value = owner := by
  rcases lockRelease_spec m now key owner with ⟨hget, heq⟩ | ⟨-, heq⟩
  · rw [heq] at hk ⊢
    have hkk : k = key := by
      by_contra hne
      exact hk (update_of_ne hne _ _)
    subst hkk
    obtain ⟨item, hitem, -, hval⟩ := ExpiringMap.get_eq_some_iff.mp hget
    exact ⟨rfl, update_self _ _ _, item, hitem, hval⟩
  · rw [heq] at hk
    exact absurd rfl hk

end Memory
end GoforjCache
