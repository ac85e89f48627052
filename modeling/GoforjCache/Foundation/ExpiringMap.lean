import Mathlib.Logic.Function.Basic
import Mathlib.Tactic

/-!
# Foundation - Expiring maps

A map whose entries carry a 64-bit expiration in nanoseconds.  Zero and negative
expirations never expire; a positive one is dead exactly when the wrapped clock
has passed it.  Dead entries stay in the map until they are overwritten or
collected, and every read skips them.

Main results:

- Theorem `live_within`: an entry written at `t` with lifetime
  `d` is live at every instant from `t` to `t + d`, whatever the
  64-bit timestamps do.
- Theorem `live_live`: while the 64-bit view of the clock does not go back,
  only what is live now can be live later.
-/

namespace GoforjCache
namespace Foundation

/-- The 64-bit nanosecond view of an unbounded instant. -/
def unixNano (now : Int) : Int64 := Int64.ofInt now

/-- One entry of an expiring map. -/
structure Item (V : Type*) where
  value : V
  expiration : Int64
deriving DecidableEq, Repr

/-- An expiring map. -/
abbrev ExpiringMap (K V : Type*) := K → Option (Item V)

namespace ExpiringMap

variable {K V : Type*} [DecidableEq K]

/-- An expiration has passed when it is positive and below the clock. -/
def expired (now : Int) (expiration : Int64) : Bool :=
  decide (0 < expiration) && decide (expiration < unixNano now)

/-- The expiration of an entry written now with lifetime `d`. -/
def deadline (now : Int) (d : Int64) : Int64 :=
  if 0 < d then unixNano (now + d.toInt) else 0

/-- The live value of a key. -/
def get (m : ExpiringMap K V) (now : Int) (k : K) : Option V :=
  match m k with
  | none => none
  | some item => if expired now item.expiration then none else some item.value

/-- Write a key unconditionally. -/
def set (m : ExpiringMap K V) (now : Int) (k : K) (v : V) (d : Int64) : ExpiringMap K V :=
  Function.update m k (some ⟨v, deadline now d⟩)

/-- Write a key that has no live entry; `none` reports that it exists. -/
def add (m : ExpiringMap K V) (now : Int) (k : K) (v : V) (d : Int64) : Option (ExpiringMap K V) :=
  match get m now k with
  | some _ => none
  | none => some (set m now k v d)

/-- Remove a key. -/
def delete (m : ExpiringMap K V) (k : K) : ExpiringMap K V := Function.update m k none

/-- Remove every key. -/
def flush : ExpiringMap K V := fun _ => none

/-- Collect every entry whose expiration has passed. -/
def deleteExpired (m : ExpiringMap K V) (now : Int) : ExpiringMap K V := fun k =>
  match m k with
  | none => none
  | some item => if expired now item.expiration then none else some item

/-! ## Lifetimes -/

variable {now : Int} {d : Int64} {m : ExpiringMap K V} {k : K}

/-- An entry written at `t` with lifetime `d` has not expired at any
instant of its lifetime.  When the written timestamp wraps it is not positive, so
the entry never expires; when the clock has wrapped too, both views are shifted
alike. -/
theorem live_within {t : Int} (hd : 0 < d) (hlo : t ≤ now) (hhi : now ≤ t + d.toInt) :
    expired now (deadline t d) = false := by
  have hmax := d.toInt_lt
  simp only [expired, deadline, hd, if_true, unixNano, Int64.lt_iff_toInt_lt,
    Int64.toInt_ofInt, Int64.toInt_zero, Bool.and_eq_false_iff, decide_eq_false_iff_not] at *
  simp only [Int.bmod, Int64.size]
  omega

/-- In particular it has not expired when it is written. -/
theorem live_at_write (hd : 0 < d) (t : Int) : expired t (deadline t d) = false := by
  have hpos := Int64.lt_iff_toInt_lt.mp hd
  rw [Int64.toInt_zero] at hpos
  exact live_within hd le_rfl (by omega)

/-- On a clock within the range of 64-bit nanoseconds an entry that has not expired is within its
lifetime. -/
theorem le_of_live {t : Int} (hd : 0 < d) (ht : 0 ≤ t) (hnow : now < 2 ^ 63)
    (hlive : expired now (deadline t d) = false) : now ≤ t + d.toInt := by
  have hpos := Int64.lt_iff_toInt_lt.mp hd
  have hmax := d.toInt_lt
  by_contra hlate
  simp only [expired, deadline, hd, if_true, unixNano, Int64.lt_iff_toInt_lt,
    Int64.toInt_ofInt, Int64.toInt_zero, Bool.and_eq_false_iff, decide_eq_false_iff_not] at *
  simp only [Int.bmod, Int64.size] at hlive
  omega

/-! ## Reads after writes -/

section

omit [DecidableEq K]

/-- A live entry is read back. -/
theorem get_eq_some_of_live {item : Item V} (hk : m k = some item)
    (hlive : expired now item.expiration = false) : get m now k = some item.value := by
  simp [get, hk, hlive]

/-- A read sees an entry exactly when it is present and has not expired. -/
theorem get_eq_some_iff {v : V} :
    get m now k = some v ↔
      ∃ item, m k = some item ∧ expired now item.expiration = false ∧ item.value = v := by
  unfold get
  cases m k with
  | none => simp
  | some item => cases expired now item.expiration <;> simp

/-- Collection keeps every live entry. -/
theorem deleteExpired_of_live {item : Item V} (hk : m k = some item)
    (hlive : expired now item.expiration = false) : deleteExpired m now k = some item := by
  simp [deleteExpired, hk, hlive]

/-! ## Live entries -/

/-- An optional entry with a dead one dropped. -/
def live (now : Int) : Option (Item V) → Option (Item V)
  | none => none
  | some item => if expired now item.expiration then none else some item

/-- A read returns the value of the live entry. -/
theorem get_eq_live (m : ExpiringMap K V) (now : Int) (k : K) :
    get m now k = (live now (m k)).map Item.value := by
  unfold get live
  cases m k with
  | none => rfl
  | some item => cases hdead : expired now item.expiration <;> simp [hdead]

end

/-- An entry that has expired stays expired while the 64-bit view of the clock does not go
back. -/
theorem expired_mono {later : Int} (h : unixNano now ≤ unixNano later) {expiration : Int64}
    (hdead : expired now expiration = true) : expired later expiration = true := by
  simp only [expired, Bool.and_eq_true, decide_eq_true_eq] at hdead ⊢
  exact ⟨hdead.1, Int64.lt_of_lt_of_le hdead.2 h⟩

/-- Later, only what is live now can be live. -/
theorem live_live {later : Int} (h : unixNano now ≤ unixNano later) (item : Option (Item V)) :
    live later (live now item) = live later item := by
  cases item with
  | none => rfl
  | some item =>
    cases hdead : expired now item.expiration with
    | false => simp [live, hdead]
    | true => simp [live, hdead, expired_mono h hdead]

omit [DecidableEq K] in
/-- Collection does not change what is live. -/
theorem live_deleteExpired (m : ExpiringMap K V) (now : Int) (k : K) :
    live now (deleteExpired m now k) = live now (m k) :=
  live_live (Int64.le_refl _) (m k)

end ExpiringMap
end Foundation
end GoforjCache
