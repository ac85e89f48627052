import Mathlib.Data.List.Basic
import Mathlib.Tactic

/-!
# Foundation - Unpadded URL-safe base64

Three bytes make four digits of six bits each.  At the end one byte makes two digits and two bytes
make three, with zero bits after the last one, and nothing is filled up.  A reader skips line
breaks, refuses other characters and a single digit at the end, and does not look at the bits after
the last byte.

Main results:

- Theorem `decode_encode`: text decodes to the bytes it was made of.
- Theorem `mem_encode`: text consists of letters, digits, hyphens and underscores.
- Theorem `two_le_length_encode`: the text of any byte has two characters or more.
-/

namespace GoforjCache
namespace Foundation
namespace Base64

/-! ## Digits -/

/-- The alphabet. -/
def alphabet : List UInt8 :=
  "ABCDEFGHIJKLMNOPQRSTUVWXYZabcdefghijklmnopqrstuvwxyz0123456789-_".toList.map
    fun c => c.toNat.toUInt8

/-- The character of a number below 64. -/
def digit (n : Nat) : UInt8 := alphabet.getD n 0

/-- The number of a character. -/
def value (b : UInt8) : Option Nat := alphabet.idxOf? b

theorem length_alphabet : alphabet.length = 64 := by decide +kernel

/-- No character stands for two numbers. -/
theorem nodup_alphabet : alphabet.Nodup := by decide +kernel

variable {n : Nat}

theorem digit_eq_getElem (h : n < alphabet.length) : digit n = alphabet[n] := by
  rw [digit, List.getD_eq_getElem?_getD, List.getElem?_eq_getElem h, Option.getD_some]

/-- A digit stands for its number. -/
theorem value_digit (h : n < 64) : value (digit n) = some n := by
  rw [← length_alphabet] at h
  rw [digit_eq_getElem h, value, List.idxOf?_eq_some_iff]
  refine ⟨h, rfl, fun m hm heq => ?_⟩
  have hsame := nodup_alphabet.getElem_inj_iff.mp heq
  omega

theorem digit_mem (h : n < 64) : digit n ∈ alphabet := by
  rw [← length_alphabet] at h
  rw [digit_eq_getElem h]
  exact List.getElem_mem h

/-! ## Groups of three bytes -/

/-- The six-bit numbers of a byte string. -/
def digits : List UInt8 → List Nat
  | [] => []
  | [a] =>
    let v := a.toNat * 65536
    [v / 262144 % 64, v / 4096 % 64]
  | [a, b] =>
    let v := a.toNat * 65536 + b.toNat * 256
    [v / 262144 % 64, v / 4096 % 64, v / 64 % 64]
  | a :: b :: c :: rest =>
    let v := a.toNat * 65536 + b.toNat * 256 + c.toNat
    v / 262144 % 64 :: v / 4096 % 64 :: v / 64 % 64 :: v % 64 :: digits rest

/-- The bytes of six-bit numbers; a single one at the end has no byte. -/
def bytes : List Nat → Option (List UInt8)
  | [] => some []
  | [_] => none
  | [x, y] =>
    let v := x * 262144 + y * 4096
    some [UInt8.ofNat (v / 65536)]
  | [x, y, z] =>
    let v := x * 262144 + y * 4096 + z * 64
    some [UInt8.ofNat (v / 65536), UInt8.ofNat (v / 256)]
  | x :: y :: z :: w :: rest =>
    let v := x * 262144 + y * 4096 + z * 64 + w
    (bytes rest).map fun bs =>
      UInt8.ofNat (v / 65536) :: UInt8.ofNat (v / 256) :: UInt8.ofNat v :: bs

/-- Six-bit numbers are below 64. -/
theorem digits_lt (bs : List UInt8) : ∀ n ∈ digits bs, n < 64 := by
  have hmod : ∀ n, n % 64 < 64 := fun n => Nat.mod_lt n (by decide)
  induction bs using digits.induct with
  | case1 => simp [digits]
  | case2 a => simp [digits, hmod]
  | case3 a b => simp [digits, hmod]
  | case4 a b c rest ih =>
    simp only [digits, List.forall_mem_cons]
    exact ⟨hmod _, hmod _, hmod _, hmod _, ih⟩

/-- A byte from a number with the same low bits. -/
theorem ofNat_eq {b : UInt8} (h : n % 256 = b.toNat) : UInt8.ofNat n = b := by
  apply UInt8.toNat_inj.mp
  rw [UInt8.toNat_ofNat', ← h]

/-- The bytes are read back from their six-bit numbers. -/
theorem bytes_digits (bs : List UInt8) : bytes (digits bs) = some bs := by
  induction bs using digits.induct with
  | case1 => rfl
  | case2 a =>
    have ha := a.toNat_lt
    simp only [digits, bytes]
    rw [ofNat_eq (b := a)]
    omega
  | case3 a b =>
    have ha := a.toNat_lt
    have hb := b.toNat_lt
    simp only [digits, bytes]
    rw [ofNat_eq (b := a) (by omega), ofNat_eq (b := b) (by omega)]
  | case4 a b c rest ih =>
    have ha := a.toNat_lt
    have hb := b.toNat_lt
    have hc := c.toNat_lt
    simp only [digits, bytes, ih, Option.map_some]
    rw [ofNat_eq (b := a) (by omega), ofNat_eq (b := b) (by omega), ofNat_eq (b := c) (by omega)]

/-! ## Text -/

/-- `RawURLEncoding.EncodeToString`. -/
def encode (bs : List UInt8) : List UInt8 := (digits bs).map digit

/-- A line break, which a reader skips. -/
def isBreak (b : UInt8) : Bool := b == 13 || b == 10

/-- `RawURLEncoding.DecodeString`; `none` is an error. -/
def decode (text : List UInt8) : Option (List UInt8) :=
  ((text.filter fun b => !isBreak b).mapM value).bind bytes

/-- Text consists of characters of the alphabet. -/
theorem mem_encode {bs : List UInt8} {b : UInt8} (h : b ∈ encode bs) : b ∈ alphabet := by
  obtain ⟨n, hn, rfl⟩ := List.mem_map.mp h
  exact digit_mem (digits_lt bs n hn)

/-- The text of any byte has two characters or more. -/
theorem two_le_length_encode {bs : List UInt8} (h : bs ≠ []) : 2 ≤ (encode bs).length := by
  rw [encode, List.length_map]
  match bs, h with
  | [a], _ => exact le_rfl
  | [a, b], _ => exact Nat.le_succ 2
  | a :: b :: c :: rest, _ =>
    simp only [digits, List.length_cons]
    omega

/-- The numbers of digits are read back. -/
theorem mapM_value_map_digit {ns : List Nat} (h : ∀ n ∈ ns, n < 64) :
    (ns.map digit).mapM value = some ns := by
  induction ns with
  | nil => rfl
  | cons n ns ih =>
    have hn := value_digit (h n List.mem_cons_self)
    have hns := ih fun m hm => h m (List.mem_cons_of_mem n hm)
    simp [List.mapM_cons, hn, hns]

/-- Text decodes to the bytes it was made of. -/
theorem decode_encode (bs : List UInt8) : decode (encode bs) = some bs := by
  have hbreak : (alphabet.all fun b => !isBreak b) = true := by decide +kernel
  have hfilter : ((encode bs).filter fun b => !isBreak b) = encode bs :=
    List.filter_eq_self.mpr fun b hb => List.all_eq_true.mp hbreak b (mem_encode hb)
  rw [decode, hfilter, encode, mapM_value_map_digit (digits_lt bs), Option.bind_some, bytes_digits]

end Base64
end Foundation
end GoforjCache
