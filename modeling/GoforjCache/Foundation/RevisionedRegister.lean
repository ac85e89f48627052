import Mathlib.Data.Option.Basic
import Mathlib.Tactic

/-!
# Foundation - Revisioned registers

A register whose every change gets a new revision, larger than all before.  Conditional
writes succeed at the exact revision they name; a read that is still at the current revision
is a read of the current value.  This is the interface under which optimistic
read-check-write sequences are sound.

Main results:

- Theorem `Remembers.change`: what a client read stays true of the register until the
  revision moves on, whatever is written in between.
-/

namespace GoforjCache
namespace Foundation

/-- A register: the revision of its last change, and its value unless it is absent or
deleted. -/
structure Register (V : Type*) where
  revision : Nat
  value : Option V
deriving DecidableEq

namespace Register

variable {V : Type*}

/-- Every change takes a new revision; revisions may be shared with other registers, so any
number of them may be skipped. -/
def change (r : Register V) (skip : Nat) (value : Option V) : Register V :=
  ⟨r.revision + skip + 1, value⟩

/-- Write a register that is absent or deleted. -/
def create (r : Register V) (skip : Nat) (value : V) : Option (Register V) :=
  match r.value with
  | none => some (r.change skip (some value))
  | some _ => none

/-- Write a register at a revision. -/
def update (r : Register V) (skip : Nat) (value : V) (last : Nat) : Option (Register V) :=
  if r.revision = last then some (r.change skip (some value)) else none

/-- Delete a register at a revision. -/
def deleteAt (r : Register V) (skip : Nat) (last : Nat) : Option (Register V) :=
  if r.revision = last then some (r.change skip none) else none

/-- Delete a register unconditionally. -/
def purge (r : Register V) (skip : Nat) : Register V := r.change skip none

/-- A client has read the value at a revision: the revision is not ahead of the register, and
while the register is at it the value is the one that was read. -/
structure Remembers (r : Register V) (revision : Nat) (value : V) : Prop where
  le : revision ≤ r.revision
  value_eq : r.revision = revision → r.value = some value

variable {r r' : Register V} {value : V} {skip : Nat}

theorem remembers_read (h : r.value = some value) : r.Remembers r.revision value :=
  ⟨le_rfl, fun _ => h⟩

/-- No change makes a memory false. -/
theorem Remembers.change {revision : Nat} (h : r.Remembers revision value) (skip : Nat)
    (value' : Option V) : (r.change skip value').Remembers revision value := by
  have hle := h.le
  refine ⟨?_, ?_⟩
  · dsimp only [Register.change]
    omega
  · intro heq
    dsimp only [Register.change] at heq
    omega

/-- A successful create found no value. -/
theorem create_eq_some (h : r.create skip value = some r') :
    r.value = none ∧ r' = r.change skip (some value) := by
  unfold create at h
  split at h
  · rename_i hnone
    exact ⟨hnone, (Option.some.inj h).symm⟩
  · cases h

/-- A successful update found its revision. -/
theorem update_eq_some {last : Nat} (h : r.update skip value last = some r') :
    r.revision = last ∧ r' = r.change skip (some value) := by
  unfold update at h
  split at h
  · rename_i heq
    exact ⟨heq, (Option.some.inj h).symm⟩
  · cases h

/-- A successful conditional delete found its revision. -/
theorem deleteAt_eq_some {last : Nat} (h : r.deleteAt skip last = some r') :
    r.revision = last ∧ r' = r.change skip none := by
  unfold deleteAt at h
  split at h
  · rename_i heq
    exact ⟨heq, (Option.some.inj h).symm⟩
  · cases h

end Register
end Foundation
end GoforjCache
