import Mathlib.Data.Nat.Digits.Defs
import Mathlib.Data.Nat.Digits.Lemmas
import Mathlib.Tactic

/-!
# Foundation - Decimal integers

Base-ten text of 64-bit signed integers: an optional sign and at least one digit,
leading zeros allowed, values outside the 64-bit range refused.

Main results:

- Theorem `parseInt_formatInt`: every 64-bit integer is read back from its
  own text.
-/

namespace GoforjCache
namespace Foundation
namespace Decimal

/-! ## Digits -/

/-- The value of one ASCII digit. -/
def digitValue (c : UInt8) : Option Nat :=
  if 48 ≤ c ∧ c ≤ 57 then some (c.toNat - 48) else none

/-- The ASCII code of one digit. -/
def digitByte (d : Nat) : UInt8 := (48 + d).toUInt8

/-- The number written by a nonempty string of digits. -/
def parseDigits (s : List UInt8) : Option Nat :=
  if s = [] then none
  else s.foldlM (fun acc c => (digitValue c).map fun d => d + 10 * acc) 0

/-- The decimal digits of a number, most significant first. -/
def formatNat (n : Nat) : List UInt8 :=
  if n = 0 then [48] else ((Nat.digits 10 n).map digitByte).reverse

/-- Digits below ten are read back. -/
theorem digitValue_digitByte {d : Nat} (hd : d < 10) : digitValue (digitByte d) = some d := by
  interval_cases d <;> decide

/-- Reading little-endian digits from the most significant end rebuilds the number. -/
theorem foldlM_digits {ds : List Nat} (hds : ∀ d ∈ ds, d < 10) :
    (ds.map digitByte).reverse.foldlM
      (fun acc c => (digitValue c).map fun d => d + 10 * acc) 0 = some (Nat.ofDigits 10 ds) := by
  rw [List.foldlM_reverse]
  induction ds with
  | nil => rfl
  | cons d ds ih =>
    have hhead : d < 10 := hds d List.mem_cons_self
    have htail := ih fun e he => hds e (List.mem_cons_of_mem d he)
    rw [List.map_cons, List.foldrM_cons, htail, Nat.ofDigits_cons]
    simp [digitValue_digitByte hhead]

/-- Every number is read back from its digits. -/
theorem parseDigits_formatNat (n : Nat) : parseDigits (formatNat n) = some n := by
  by_cases hn : n = 0
  · subst hn
    decide
  · have hne : ((Nat.digits 10 n).map digitByte).reverse ≠ [] := by
      simpa using Nat.digits_ne_nil_iff_ne_zero.mpr hn
    have hlt : ∀ d ∈ Nat.digits 10 n, d < 10 := fun d hd =>
      Nat.digits_lt_base (by norm_num) hd
    rw [parseDigits, formatNat, if_neg hn, if_neg hne, foldlM_digits hlt, Nat.ofDigits_digits]

/-- The text of a number consists of digits. -/
theorem mem_formatNat {n : Nat} {c : UInt8} (h : c ∈ formatNat n) : 48 ≤ c ∧ c ≤ 57 := by
  unfold formatNat at h
  split at h
  · rw [List.mem_singleton.mp h]
    decide
  · rw [List.mem_reverse] at h
    rcases List.mem_map.mp h with ⟨d, hd, rfl⟩
    have hlt : d < 10 := Nat.digits_lt_base (by norm_num) hd
    interval_cases d <;> decide

/-- The text of a number is not empty. -/
theorem formatNat_ne_nil (n : Nat) : formatNat n ≠ [] := by
  intro h
  have hparse := parseDigits_formatNat n
  simp [h, parseDigits] at hparse

/-- The text of a number starts with a digit. -/
theorem formatNat_head (n : Nat) : ∃ c rest, formatNat n = c :: rest ∧ c ≠ 43 ∧ c ≠ 45 := by
  have hparse := parseDigits_formatNat n
  cases htext : formatNat n with
  | nil => simp [htext, parseDigits] at hparse
  | cons c rest =>
    refine ⟨c, rest, rfl, ?_, ?_⟩ <;>
    · rintro rfl
      simp [htext, parseDigits, digitValue] at hparse

/-! ## Signed integers -/

/-- `strconv.ParseInt(s, 10, 64)`; `none` stands for a syntax or range
error. -/
def parseInt (s : List UInt8) : Option Int64 :=
  match s with
  | [] => none
  | c :: rest =>
    if c = 45 then
      match parseDigits rest with
      | some n => if n ≤ 2 ^ 63 then some (Int64.ofInt (-n)) else none
      | none => none
    else
      match parseDigits (if c = 43 then rest else s) with
      | some n => if n < 2 ^ 63 then some (Int64.ofInt n) else none
      | none => none

/-- `strconv.FormatInt(n, 10)`. -/
def formatInt (n : Int64) : List UInt8 :=
  if n.toInt < 0 then 45 :: formatNat n.toInt.natAbs else formatNat n.toInt.natAbs

/-- Every 64-bit integer is read back from its text. -/
theorem parseInt_formatInt (n : Int64) : parseInt (formatInt n) = some n := by
  have hlo := n.le_toInt
  have hhi := n.toInt_lt
  by_cases hneg : n.toInt < 0
  · have habs : (-(n.toInt.natAbs : Int)) = n.toInt := by omega
    have hrange : n.toInt.natAbs ≤ 2 ^ 63 := by omega
    rw [formatInt, if_pos hneg]
    simp only [parseInt, if_true, parseDigits_formatNat, if_pos hrange, habs, Int64.ofInt_toInt]
  · have habs : ((n.toInt.natAbs : Int)) = n.toInt := by omega
    have hrange : n.toInt.natAbs < 2 ^ 63 := by omega
    obtain ⟨c, rest, htext, hplus, hminus⟩ := formatNat_head n.toInt.natAbs
    have hparse := parseDigits_formatNat n.toInt.natAbs
    rw [formatInt, if_neg hneg, htext]
    rw [htext] at hparse
    simp only [parseInt, if_neg hminus, if_neg hplus, hparse, if_pos hrange, habs,
      Int64.ofInt_toInt]

/-- The text of a number in the 64-bit range is read as a signed integer. -/
theorem parseInt_formatNat {n : Nat} (hn : n < 2 ^ 63) :
    parseInt (formatNat n) = some (Int64.ofInt n) := by
  have hparse := parseDigits_formatNat n
  rcases formatNat_head n with ⟨c, rest, htext, hplus, hminus⟩
  rw [htext] at hparse ⊢
  simp only [parseInt, if_neg hminus, if_neg hplus, hparse, if_pos hn]

/-- The text of a larger number is refused. -/
theorem parseInt_formatNat_of_le {n : Nat} (hn : 2 ^ 63 ≤ n) : parseInt (formatNat n) = none := by
  have hparse := parseDigits_formatNat n
  rcases formatNat_head n with ⟨c, rest, htext, hplus, hminus⟩
  rw [htext] at hparse ⊢
  simp only [parseInt, if_neg hminus, if_neg hplus, hparse, if_neg (Nat.not_lt.mpr hn)]

/-- Distinct integers have distinct texts. -/
theorem formatInt_injective : Function.Injective formatInt := by
  intro n m h
  have hparse := parseInt_formatInt n
  rw [h, parseInt_formatInt] at hparse
  exact (Option.some.inj hparse).symm

/-- The text of an integer consists of digits and a sign. -/
theorem mem_formatInt {n : Int64} {c : UInt8} (h : c ∈ formatInt n) :
    c = 45 ∨ (48 ≤ c ∧ c ≤ 57) := by
  unfold formatInt at h
  split at h
  · rcases List.mem_cons.mp h with rfl | hmem
    · exact Or.inl rfl
    · exact Or.inr (mem_formatNat hmem)
  · exact Or.inr (mem_formatNat h)

end Decimal
end Foundation
end GoforjCache
