import Mathlib.Algebra.Order.Group.Nat
import Mathlib.Data.List.Basic
import Mathlib.Tactic

/-!
# Foundation - Fixed-width and hexadecimal byte codes

Big-endian integers of a fixed number of bytes, as binary record headers use them, and the
hexadecimal text of a byte string, as file names use it.

Main results:

- Theorem `BigEndian.read_put`: reading `w` bytes back gives the number modulo
  `256 ^ w`; so 64-bit words round trip and a longer number is truncated.
- Theorem `Hex.decode_encode`: hexadecimal text decodes to the bytes it was made of.
-/

namespace GoforjCache
namespace Foundation

/-! ## Big-endian integers -/

namespace BigEndian

/-- The `w` low bytes of a number, the most significant one first. -/
def put : Nat → Nat → List UInt8
  | 0, _ => []
  | w + 1, n => put w (n / 256) ++ [UInt8.ofNat n]

/-- The number with the given bytes. -/
def read (bs : List UInt8) : Nat := bs.foldl (fun acc b => acc * 256 + b.toNat) 0

@[simp]
theorem length_put (w n : Nat) : (put w n).length = w := by
  induction w generalizing n with
  | zero => rfl
  | succ w ih => rw [put, List.length_append, ih, List.length_singleton]

/-- One more byte shifts the number by one digit. -/
theorem read_append_singleton (bs : List UInt8) (b : UInt8) :
    read (bs ++ [b]) = read bs * 256 + b.toNat := by
  rw [read, List.foldl_append]
  rfl

/-- Reading back what was put gives the number modulo the width. -/
theorem read_put (w n : Nat) : read (put w n) = n % 256 ^ w := by
  induction w generalizing n with
  | zero => simp [put, read, Nat.mod_one]
  | succ w ih =>
    have hbyte : (UInt8.ofNat n).toNat = n % 256 := UInt8.toNat_ofNat'
    rw [put, read_append_singleton, ih, hbyte, pow_succ']
    have hdiv := Nat.mod_mul (x := n) (a := 256) (b := 256 ^ w)
    omega

/-- `PutUint64`. -/
def putUint64 (x : UInt64) : List UInt8 := put 8 x.toNat

/-- `Uint64`. -/
def uint64 (bs : List UInt8) : UInt64 := UInt64.ofNat (read bs)

/-- `PutUint32`. -/
def putUint32 (x : UInt32) : List UInt8 := put 4 x.toNat

/-- `Uint32`. -/
def uint32 (bs : List UInt8) : UInt32 := UInt32.ofNat (read bs)

@[simp]
theorem length_putUint64 (x : UInt64) : (putUint64 x).length = 8 := length_put 8 _

@[simp]
theorem length_putUint32 (x : UInt32) : (putUint32 x).length = 4 := length_put 4 _

/-- A 64-bit word is read back. -/
@[simp]
theorem uint64_putUint64 (x : UInt64) : uint64 (putUint64 x) = x := by
  have hlt : x.toNat < 256 ^ 8 := x.toNat_lt
  rw [uint64, putUint64, read_put, Nat.mod_eq_of_lt hlt, UInt64.ofNat_toNat]

/-- A 32-bit word is read back. -/
@[simp]
theorem uint32_putUint32 (x : UInt32) : uint32 (putUint32 x) = x := by
  have hlt : x.toNat < 256 ^ 4 := x.toNat_lt
  rw [uint32, putUint32, read_put, Nat.mod_eq_of_lt hlt, UInt32.ofNat_toNat]

end BigEndian

/-! ## Hexadecimal text -/

namespace Hex

/-- The lower-case digit of a number below sixteen. -/
def digit (n : Nat) : UInt8 :=
  if n < 10 then UInt8.ofNat (48 + n) else UInt8.ofNat (87 + n)

/-- The number of a digit, in either case. -/
def value (b : UInt8) : Option Nat :=
  if 48 ≤ b ∧ b ≤ 57 then some (b.toNat - 48)
  else if 97 ≤ b ∧ b ≤ 102 then some (b.toNat - 87)
  else if 65 ≤ b ∧ b ≤ 70 then some (b.toNat - 55)
  else none

/-- `hex.EncodeToString`. -/
def encode (bs : List UInt8) : List UInt8 :=
  bs.flatMap fun b => [digit (b.toNat / 16), digit (b.toNat % 16)]

/-- `hex.DecodeString`: an error for an odd length or another character. -/
def decode : List UInt8 → Option (List UInt8)
  | [] => some []
  | [_] => none
  | hi :: lo :: rest => do
    let a ← value hi
    let b ← value lo
    let bs ← decode rest
    return UInt8.ofNat (a * 16 + b) :: bs

/-- A digit stands for its number. -/
theorem value_digit {n : Nat} (h : n < 16) : value (digit n) = some n := by
  interval_cases n <;> rfl

/-- The text of a byte and of the rest. -/
theorem encode_cons (b : UInt8) (bs : List UInt8) :
    encode (b :: bs) = digit (b.toNat / 16) :: digit (b.toNat % 16) :: encode bs :=
  rfl

@[simp]
theorem length_encode (bs : List UInt8) : (encode bs).length = 2 * bs.length := by
  induction bs with
  | nil => rfl
  | cons b bs ih =>
    rw [encode_cons, List.length_cons, List.length_cons, ih, List.length_cons]
    omega

/-- Hexadecimal text decodes to the bytes it was made of. -/
theorem decode_encode (bs : List UInt8) : decode (encode bs) = some bs := by
  induction bs with
  | nil => rfl
  | cons b bs ih =>
    have hlt : b.toNat < 256 := b.toNat_lt
    have hhi : b.toNat / 16 < 16 := by omega
    have hlo : b.toNat % 16 < 16 := by omega
    have hsum : b.toNat / 16 * 16 + b.toNat % 16 = b.toNat := by omega
    rw [encode_cons, decode, value_digit hhi, value_digit hlo, ih]
    change some (UInt8.ofNat (b.toNat / 16 * 16 + b.toNat % 16) :: bs) = some (b :: bs)
    rw [hsum, UInt8.ofNat_toNat]

/-- Different byte strings have different texts. -/
theorem encode_injective : Function.Injective encode := by
  intro a b h
  have hdecode := congrArg decode h
  rw [decode_encode, decode_encode] at hdecode
  exact Option.some.inj hdecode

end Hex

end Foundation
end GoforjCache
