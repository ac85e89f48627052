import Mathlib.Logic.Function.Basic
import Mathlib.Tactic

/-!
# Foundation - Tenants of an exclusive resource

A resource that is reserved, granted, released and free again, together with the slots that use it
between a grant and the release.  A slot that was granted the resource starts its work, or leaves
it; after its work it leaves, and only then it releases the resource.  A release that fails puts the
resource back as held, and nobody is left who would release it.

Main results:

- Theorem `Sound.step`: every step keeps the tenants exclusive and the grants balanced.
- Theorem `Counted.step`: the grants are counted by the starts, except for a grant that is not
  used yet.
-/

namespace GoforjCache
namespace Foundation

open Function

namespace Tenancy

/-- The phase of the resource. -/
inductive Mode where
  | free
  | acquiring
  | held
  | releasing
deriving DecidableEq, Repr

/-- The number of grants that are not closed in a phase. -/
def Mode.openCount : Mode → Nat
  | free => 0
  | acquiring => 0
  | held => 1
  | releasing => 1

/-- What a slot is doing with the resource. -/
inductive Stage where
  | apart
  | granted
  | working
  | leaving
deriving DecidableEq, Repr

/-- The steps of a slot. -/
inductive Act where
  | reserve
  | grant
  | abandon
  | start
  | skip
  | finish
  | release
  | close
  | restore
deriving DecidableEq, Repr

end Tenancy

/-- The resource with its history and its tenants. -/
structure Tenancy (τ : Type) where
  phase : Tenancy.Mode
  granted : Nat
  closed : Nat
  stage : τ → Tenancy.Stage

namespace Tenancy

variable {τ : Type} [DecidableEq τ]

/-- The step relation: `Step t T a T'` when slot `t` may do `a` in `T`. -/
inductive Step (t : τ) (T : Tenancy τ) : Act → Tenancy τ → Prop where
  | reserve (hphase : T.phase = .free) : Step t T .reserve { T with phase := .acquiring }
  | grant (hphase : T.phase = .acquiring) :
      Step t T .grant
        { T with
          phase := .held
          granted := T.granted + 1
          stage := update T.stage t .granted }
  | abandon (hphase : T.phase = .acquiring) : Step t T .abandon { T with phase := .free }
  | start (hstage : T.stage t = .granted) :
      Step t T .start { T with stage := update T.stage t .working }
  | skip (hstage : T.stage t = .granted) :
      Step t T .skip { T with stage := update T.stage t .leaving }
  | finish (hstage : T.stage t = .working) :
      Step t T .finish { T with stage := update T.stage t .leaving }
  | release (hstage : T.stage t = .leaving) :
      Step t T .release
        { T with
          phase := .releasing
          stage := update T.stage t .apart }
  | close (hphase : T.phase = .releasing) :
      Step t T .close { T with phase := .free, closed := T.closed + 1 }
  | restore (hphase : T.phase = .releasing) : Step t T .restore { T with phase := .held }

/-! ## Exclusion -/

/-- A tenant holds the resource, there is at most one of them, and the grants are balanced. -/
structure Sound (T : Tenancy τ) : Prop where
  held : ∀ t, T.stage t ≠ .apart → T.phase = .held
  unique : ∀ t u, T.stage t ≠ .apart → T.stage u ≠ .apart → t = u
  balanced : T.granted = T.closed + T.phase.openCount

variable {T T' : Tenancy τ} {t : τ} {n : Nat}

omit [DecidableEq τ] in
/-- A resource that is not held has no tenant. -/
theorem Sound.vacant (h : Sound T) (hphase : T.phase ≠ .held) (t : τ) : T.stage t = .apart := by
  by_contra hstage
  exact hphase (h.held t hstage)

omit [DecidableEq τ] in
/-- Without a tenant only the balance matters. -/
theorem sound_of_vacant (hvacant : ∀ t, T.stage t = .apart)
    (hbalanced : T.granted = T.closed + T.phase.openCount) : Sound T where
  held t ht := absurd (hvacant t) ht
  unique t _ ht _ := absurd (hvacant t) ht
  balanced := hbalanced

/-- A tenant that changes its stage stays the only one. -/
theorem Sound.restage (h : Sound T) (ht : T.stage t ≠ .apart) (s : Stage) :
    Sound { T with stage := update T.stage t s } := by
  have htenant : ∀ u, update T.stage t s u ≠ .apart → u = t := by
    intro u hu
    by_contra hne
    rw [update_of_ne hne] at hu
    exact hne (h.unique u t hu ht)
  refine ⟨fun _ _ => h.held t ht, fun u v hu hv => ?_, h.balanced⟩
  rw [htenant u hu, htenant v hv]

/-- Every step keeps the tenants exclusive and the grants balanced. -/
theorem Sound.step {a : Act} (h : Sound T) (hstep : Step t T a T') : Sound T' := by
  have hbalanced := h.balanced
  cases hstep with
  | reserve hphase | abandon hphase | close hphase | restore hphase =>
    rw [hphase] at hbalanced
    exact sound_of_vacant (h.vacant (by rw [hphase]; decide)) hbalanced
  | start hstage | skip hstage | finish hstage => exact h.restage (by rw [hstage]; decide) _
  | grant hphase =>
    rw [hphase] at hbalanced
    have hvacant := h.vacant (by rw [hphase]; decide)
    have htenant : ∀ u, update T.stage t .granted u ≠ .apart → u = t := by
      intro u hu
      by_contra hne
      rw [update_of_ne hne] at hu
      exact hu (hvacant u)
    refine ⟨fun _ _ => rfl, fun u v hu hv => ?_, congrArg (· + 1) hbalanced⟩
    rw [htenant u hu, htenant v hv]
  | release hstage =>
    have hleaving : T.stage t ≠ .apart := by
      rw [hstage]
      decide
    rw [h.held t hleaving] at hbalanced
    refine sound_of_vacant (fun u => ?_) hbalanced
    by_cases hu : u = t
    · rw [hu]
      exact update_self _ _ _
    · dsimp only
      rw [update_of_ne hu]
      by_contra hstage'
      exact hu (h.unique u t hstage' hleaving)

/-! ## Grants and starts -/

/-- The grants are counted by the number `n` of starts, except for one that is not used yet. -/
def Counted (T : Tenancy τ) (n : Nat) : Prop :=
  (T.granted = n ∧ ∀ t, T.stage t ≠ .granted) ∨ (T.granted = n + 1 ∧ ∃ t, T.stage t = .granted)

omit [DecidableEq τ] in
/-- There are no more starts than grants. -/
theorem Counted.le (h : Counted T n) : n ≤ T.granted := by
  rcases h with ⟨hgranted, -⟩ | ⟨hgranted, -⟩ <;> omega

/-- A change of one slot that was not granted the resource, and is not after it. -/
theorem Counted.frame (h : Counted T n) {s : Stage} (hfrom : T.stage t ≠ .granted)
    (hto : s ≠ .granted) (hgranted : T'.granted = T.granted)
    (hstage : T'.stage = update T.stage t s) : Counted T' n := by
  have hsame : ∀ u, T'.stage u = .granted ↔ T.stage u = .granted := by
    intro u
    rw [hstage]
    by_cases hu : u = t
    · rw [hu, update_self]
      exact iff_of_false hto hfrom
    · rw [update_of_ne hu]
  unfold Counted
  simp only [ne_eq, hsame, hgranted]
  exact h

/-- The slot that uses its grant was the only one. -/
theorem Counted.use (hsound : Sound T) (h : Counted T n) (ht : T.stage t = .granted) {s : Stage}
    (hto : s ≠ .granted) : Counted { T with stage := update T.stage t s } (n + 1) := by
  rcases h with ⟨-, hnone⟩ | ⟨hgranted, -⟩
  · exact absurd ht (hnone t)
  · refine Or.inl ⟨hgranted, fun u hu => ?_⟩
    dsimp only at hu
    by_cases hut : u = t
    · rw [hut, update_self] at hu
      exact hto hu
    · rw [update_of_ne hut] at hu
      exact hut (hsound.unique u t (by rw [hu]; decide) (by rw [ht]; decide))

/-- Every step but a skip keeps the count, with the starts among the steps. -/
theorem Counted.step {a : Act} (hsound : Sound T) (h : Counted T n) (hstep : Step t T a T')
    (hskip : a ≠ .skip) : Counted T' (n + if a = .start then 1 else 0) := by
  cases hstep with
  | reserve _ | abandon _ | close _ | restore _ => exact h
  | skip _ => exact absurd rfl hskip
  | start hstage => exact h.use hsound hstage (by decide)
  | finish hstage | release hstage =>
    exact h.frame (by rw [hstage]; decide) (by decide) rfl rfl
  | grant hphase =>
    -- nobody else was granted a resource that is being acquired
    have hvacant := hsound.vacant (by rw [hphase]; decide)
    rcases h with ⟨hgranted, -⟩ | ⟨-, u, hu⟩
    · exact Or.inr ⟨congrArg (· + 1) hgranted, t, update_self _ _ _⟩
    · rw [hvacant u] at hu
      cases hu

end Tenancy
end Foundation
end GoforjCache
