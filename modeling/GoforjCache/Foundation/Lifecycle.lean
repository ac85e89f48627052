import Mathlib.Tactic

/-!
# Foundation - Ownership lifecycles

The abstract life of one resource that several slots compete for: a slot
reserves the free resource, the reservation is granted or abandoned, a granted
resource is taken by one slot for release, and the release closes the lifecycle
or restores it.  The slot in charge of a transition is part of the phase, so a
transition by any other slot does not exist.

Main results:

- Theorem `InCharge.advance`: the claims of the slots follow the phase from
  move to move.
- Theorem `advance_balanced`: along every transition the number of grants
  exceeds the number of closed lifecycles by one exactly while the resource is
  held or being released.
-/

namespace GoforjCache
namespace Foundation

open Function

/-- Phase of one resource; `acquiring` and `releasing` name the slot in
charge. -/
inductive Phase (τ : Type*) where
  | free
  | acquiring (t : τ)
  | held
  | releasing (t : τ)

namespace Phase

variable {τ : Type*}

/-- Number of lifecycles that are open in a phase. -/
def openCount : Phase τ → Nat
  | free => 0
  | acquiring _ => 0
  | held => 1
  | releasing _ => 1

end Phase

/-- A resource together with the history of its lifecycles. -/
structure Lifecycle (τ : Type*) where
  phase : Phase τ
  granted : Nat
  closed : Nat

/-- The transitions a slot can make. -/
inductive Move where
  | reserve
  | grant
  | abandon
  | beginRelease
  | close
  | restore

namespace Lifecycle

variable {τ : Type*}

/-- A fresh resource. -/
def fresh : Lifecycle τ := ⟨.free, 0, 0⟩

/-- The transition relation: `L.Advance t m L'` when slot `t` may make
move `m` in `L`. -/
inductive Advance (t : τ) : Move → Lifecycle τ → Lifecycle τ → Prop where
  | reserve (g c : Nat) : Advance t .reserve ⟨.free, g, c⟩ ⟨.acquiring t, g, c⟩
  | grant (g c : Nat) : Advance t .grant ⟨.acquiring t, g, c⟩ ⟨.held, g + 1, c⟩
  | abandon (g c : Nat) : Advance t .abandon ⟨.acquiring t, g, c⟩ ⟨.free, g, c⟩
  | beginRelease (g c : Nat) : Advance t .beginRelease ⟨.held, g, c⟩ ⟨.releasing t, g, c⟩
  | close (g c : Nat) : Advance t .close ⟨.releasing t, g, c⟩ ⟨.free, g, c + 1⟩
  | restore (g c : Nat) : Advance t .restore ⟨.releasing t, g, c⟩ ⟨.held, g, c⟩

variable {m : Move} {L L' : Lifecycle τ}

/-- A move by one slot mentions no other slot, before or after. -/
theorem advance_other {t u : τ} (hu : u ≠ t) (h : Advance t m L L') :
    (L.phase ≠ .acquiring u ∧ L.phase ≠ .releasing u) ∧
      (L'.phase ≠ .acquiring u ∧ L'.phase ≠ .releasing u) := by
  cases h <;> simp [Ne.symm hu]

/-- Grants minus closed lifecycles is the number of open ones. -/
def Balanced (L : Lifecycle τ) : Prop := L.granted = L.closed + L.phase.openCount

theorem fresh_balanced : (fresh : Lifecycle τ).Balanced := rfl

/-- Every transition keeps grants and closed lifecycles in balance. -/
theorem advance_balanced {t : τ} (h : Advance t m L L') (hL : L.Balanced) : L'.Balanced := by
  cases h <;> simp_all [Balanced, Phase.openCount]

/-! ## Slots in charge -/

/-- The calls of the slots agree with a phase: exactly the slot in charge runs a
call that reserves, or one that releases. -/
structure InCharge {α : Type*} (reserves releases : α → Prop) (p : Phase τ)
    (calls : τ → α) : Prop where
  reserving : ∀ t, reserves (calls t) ↔ p = .acquiring t
  releasing : ∀ t, releases (calls t) ↔ p = .releasing t

variable {α : Type*} {reserves releases : α → Prop} {calls : τ → α} {t : τ}

/-- At most one slot reserves or releases. -/
theorem InCharge.unique {p : Phase τ} (h : InCharge reserves releases p calls) {u : τ}
    (ht : reserves (calls t) ∨ releases (calls t))
    (hu : reserves (calls u) ∨ releases (calls u)) : t = u := by
  rw [h.reserving, h.releasing] at ht hu
  rcases ht with ht | ht <;> rcases hu with hu | hu <;> simp_all

variable [DecidableEq τ]

/-- A call that is replaced by one with the same claims stays in charge. -/
theorem InCharge.frame {p : Phase τ} (h : InCharge reserves releases p calls) {c : α}
    (hres : reserves c ↔ reserves (calls t)) (hrel : releases c ↔ releases (calls t)) :
    InCharge reserves releases p (update calls t c) where
  reserving u := by
    by_cases hu : u = t
    · subst u
      rw [update_self, hres, h.reserving t]
    · rw [update_of_ne hu, h.reserving u]
  releasing u := by
    by_cases hu : u = t
    · subst u
      rw [update_self, hrel, h.releasing t]
    · rw [update_of_ne hu, h.releasing u]

/-- A move of one slot hands over the charge when its new call matches the new
phase. -/
theorem InCharge.advance (h : InCharge reserves releases L.phase calls) (hadv : Advance t m L L')
    {c : α} (hres : reserves c ↔ L'.phase = .acquiring t)
    (hrel : releases c ↔ L'.phase = .releasing t) :
    InCharge reserves releases L'.phase (update calls t c) where
  reserving u := by
    by_cases hu : u = t
    · subst u
      rw [update_self, hres]
    · have hphase := advance_other hu hadv
      rw [update_of_ne hu, h.reserving u]
      exact iff_of_false hphase.1.1 hphase.2.1
  releasing u := by
    by_cases hu : u = t
    · subst u
      rw [update_self, hrel]
    · have hphase := advance_other hu hadv
      rw [update_of_ne hu, h.releasing u]
      exact iff_of_false hphase.1.2 hphase.2.2

end Lifecycle
end Foundation
end GoforjCache
