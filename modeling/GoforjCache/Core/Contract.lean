import GoforjCache.Core.Types
import GoforjCache.Foundation.Decimal
import GoforjCache.Foundation.ExpiringMap

/-!
# Core - The store contract, key by key

What a call of `cachecore.Store` means, apart from how a store keeps its records: it
looks at the live value of its key, answers from it, and keeps, replaces or drops the record.
The stores are compared with this meaning and, through it, with one another.

Main results:

- Theorem `Change.live_apply`: what a change leaves behind depends on the live record
  only.
- Theorem `Op.plan_unapplied`: a call whose answer says that it was not applied keeps the
  record.
-/

namespace GoforjCache

open Foundation Foundation.Decimal

/-- What a call does to the record of its key. -/
inductive Change where
  | keep
  | put (value : Bytes) (ttl : Duration)
  | drop
deriving DecidableEq

/-- The record after a change at an instant. -/
def Change.apply (d : DefaultTTL) (now : Instant) (item : Option (Item Bytes)) :
    Change → Option (Item Bytes)
  | keep => item
  | put value ttl => some ⟨value, ExpiringMap.deadline now (d.resolve ttl)⟩
  | drop => none

/-- What a change leaves behind depends on the live record only. -/
theorem Change.live_apply (d : DefaultTTL) (now : Instant) (c : Change)
    {a b : Option (Item Bytes)} (h : ExpiringMap.live now a = ExpiringMap.live now b) :
    ExpiringMap.live now (c.apply d now a) = ExpiringMap.live now (c.apply d now b) := by
  cases c with
  | keep => exact h
  | put value ttl => rfl
  | drop => rfl

/-- The key of a call that works on one record. -/
def Op.single : Op → Option Key
  | get key => some key
  | set key _ _ => some key
  | add key _ _ => some key
  | increment key _ _ => some key
  | decrement key _ _ => some key
  | delete key => some key
  | deleteMany _ => none
  | flush => none
  | lockAcquire key _ _ => some key
  | lockRelease key _ => some key

variable {op : Op} {key : Key}

/-- The one record of a call is that of the one key it names. -/
theorem Op.keys_of_single (h : op.single = some key) : op.keys = some [key] := by
  cases op <;> cases h <;> rfl

/-- A call on one record touches its key only. -/
theorem Op.touches_of_single (h : op.single = some key) (other : Key) :
    op.touches other = decide (other = key) := by
  simp [Op.touches, Op.keys_of_single h]

theorem Op.touches_deleteMany (keys : List Key) (key : Key) :
    (Op.deleteMany keys).touches key = decide (key ∈ keys) := by
  simp [Op.touches, Op.keys]

/-- The lifetime a call is given. -/
def Op.ttl : Op → Option Duration
  | set _ _ ttl => some ttl
  | add _ _ ttl => some ttl
  | increment _ _ ttl => some ttl
  | decrement _ _ ttl => some ttl
  | lockAcquire _ _ ttl => some ttl
  | _ => none

/-- Only `DeleteMany` and `Flush` work on more than one record. -/
theorem Op.of_single_eq_none (h : op.single = none) :
    (∃ keys, op = .deleteMany keys) ∨ op = .flush := by
  cases op with
  | deleteMany keys => exact Or.inl ⟨keys, rfl⟩
  | flush => exact Or.inr rfl
  | _ => cases h

/-- A conditional write. -/
def planAdd (value : Bytes) (ttl : Duration) : Option Bytes → Change × Res
  | none => (.put value ttl, .flag true)
  | some _ => (.keep, .flag false)

/-- A counter update: a miss counts from zero, other text is refused. -/
def planIncrement (key : Key) (delta : Int64) (ttl : Duration) : Option Bytes → Change × Res
  | none => (.put (formatInt (0 + delta)) ttl, .number (0 + delta))
  | some body =>
    match parseInt body with
    | some n => (.put (formatInt (n + delta)) ttl, .number (n + delta))
    | none => (.keep, .error (.notNumeric key))

/-- A counter update of a number. -/
theorem planIncrement_of_number {body : Bytes} {n : Int64} (h : parseInt body = some n)
    (key : Key) (delta : Int64) (ttl : Duration) :
    planIncrement key delta ttl (some body) =
      (.put (formatInt (n + delta)) ttl, .number (n + delta)) := by
  simp only [planIncrement, h]

/-- A counter update of other text. -/
theorem planIncrement_of_text {body : Bytes} (h : parseInt body = none) (key : Key)
    (delta : Int64) (ttl : Duration) :
    planIncrement key delta ttl (some body) = (.keep, .error (.notNumeric key)) := by
  simp only [planIncrement, h]

/-- What a call on one record does and answers, given the live value.  The two calls without
a single record drop theirs. -/
def Op.plan : Op → Option Bytes → Change × Res
  | get _, live => (.keep, .value live)
  | set _ value ttl, _ => (.put value ttl, .done)
  | add _ value ttl, live => planAdd value ttl live
  | increment key delta ttl, live => planIncrement key delta ttl live
  | decrement key delta ttl, live => planIncrement key (-delta) ttl live
  | delete _, _ => (.drop, .done)
  | deleteMany _, _ => (.drop, .done)
  | flush, _ => (.drop, .done)
  | lockAcquire _ owner ttl, live => planAdd owner ttl live
  | lockRelease _ owner, live =>
    if live = some owner then (.drop, .flag true) else (.keep, .flag false)

/-- The key, the signed delta and the lifetime of a counter call. -/
def Op.counter : Op → Option (Key × Int64 × Duration)
  | increment key delta ttl => some (key, delta, ttl)
  | decrement key delta ttl => some (key, -delta, ttl)
  | _ => none

/-- A counter call works on the record of its key. -/
theorem Op.single_of_counter {delta : Int64} {ttl : Duration}
    (h : op.counter = some (key, delta, ttl)) : op.single = some key := by
  cases op <;> cases h <;> rfl

/-- A counter call is a counter update. -/
theorem Op.plan_of_counter {delta : Int64} {ttl : Duration}
    (h : op.counter = some (key, delta, ttl)) (live : Option Bytes) :
    op.plan live = planIncrement key delta ttl live := by
  cases op <;> cases h <;> rfl

/-- A call without a single record answers the same whatever a record holds. -/
theorem Op.plan_of_single_eq_none (h : op.single = none) (a b : Option Bytes) :
    op.plan a = op.plan b := by
  rcases Op.of_single_eq_none h with ⟨keys, rfl⟩ | rfl <;> rfl

/-- What a call writes has the lifetime the call is given. -/
theorem Op.ttl_of_put {live : Option Bytes} {value : Bytes} {ttl : Duration}
    (h : (op.plan live).1 = .put value ttl) : op.ttl = some ttl := by
  have hadd : ∀ body ttl', (planAdd body ttl' live).1 = .put value ttl → some ttl' = some ttl := by
    intro body ttl' hput
    cases live with
    | none =>
      cases hput
      rfl
    | some other => cases hput
  have hincrement : ∀ key delta ttl', (planIncrement key delta ttl' live).1 = .put value ttl →
      some ttl' = some ttl := by
    intro key delta ttl' hput
    unfold planIncrement at hput
    split at hput
    · cases hput
      rfl
    · split at hput <;> cases hput
      rfl
  cases op with
  | get key | delete key | deleteMany keys | flush => cases h
  | set key body ttl' =>
    cases h
    rfl
  | add key body ttl' | lockAcquire key body ttl' => exact hadd body ttl' h
  | increment key delta ttl' => exact hincrement key delta ttl' h
  | decrement key delta ttl' => exact hincrement key (-delta) ttl' h
  | lockRelease key owner =>
    dsimp only [Op.plan] at h
    split at h <;> cases h

/-- A call whose answer says that it was not applied keeps the record. -/
theorem Op.plan_unapplied {live : Option Bytes} (h : (op.plan live).2.applied = false) :
    (op.plan live).1 = .keep := by
  have hadd : ∀ value ttl, (planAdd value ttl live).2.applied = false →
      (planAdd value ttl live).1 = .keep := by
    intro value ttl hno
    cases live with
    | none => cases hno
    | some body => rfl
  have hincrement : ∀ key delta ttl, (planIncrement key delta ttl live).2.applied = false →
      (planIncrement key delta ttl live).1 = .keep := by
    intro key delta ttl hno
    unfold planIncrement at hno ⊢
    split at hno
    · cases hno
    · split at hno
      · cases hno
      · rfl
  cases op with
  | get key => rfl
  | set key value ttl | delete key | deleteMany keys | flush => cases h
  | add key value ttl | lockAcquire key value ttl => exact hadd value ttl h
  | increment key delta ttl => exact hincrement key delta ttl h
  | decrement key delta ttl => exact hincrement key (-delta) ttl h
  | lockRelease key owner =>
    dsimp only [Op.plan] at h ⊢
    split at h
    · cases h
    · rename_i hother
      rw [if_neg hother]

end GoforjCache
