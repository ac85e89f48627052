import Mathlib.Data.List.Basic
import Mathlib.Tactic

/-!
# Foundation - Executable transition systems

A transition system is given by a partial step function.  All nondeterminism
of the modelled system (the scheduler, the clock, the answers of a backend) is
carried by the event, so a run is a list of events and a disabled event has no
successor.

Main results:

- Theorem `run_append`: runs compose along the concatenation of events.
- Theorem `run_preserves`: a property kept by every step is kept by every
  run.
- Theorem `run_preserves_along`: the same for runs whose steps all meet a
  side condition.
- Theorem `reachable_invariant`: a property that holds initially and is
  kept by every step holds in every reachable state.
- Theorem `concat_eq_append_cons`: an entry of a log that was made longer
  is the last one or one of the old ones.
-/

namespace GoforjCache
namespace Foundation
namespace Transition

variable {σ ε : Type*}

/-! ## Runs -/

/-- Execute a list of events.  The run is undefined as soon as one event is
disabled in the state reached so far. -/
def run (step : σ → ε → Option σ) : σ → List ε → Option σ
  | s, [] => some s
  | s, e :: es => (step s e).bind fun t => run step t es

@[simp]
theorem run_nil (step : σ → ε → Option σ) (s : σ) : run step s [] = some s := rfl

@[simp]
theorem run_cons (step : σ → ε → Option σ) (s : σ) (e : ε) (es : List ε) :
    run step s (e :: es) = (step s e).bind fun t => run step t es :=
  rfl

/-- A run over a concatenation is a run over the first part followed by a run
over the second one. -/
theorem run_append (step : σ → ε → Option σ) (s : σ) (es fs : List ε) :
    run step s (es ++ fs) = (run step s es).bind fun t => run step t fs := by
  induction es generalizing s with
  | nil => rfl
  | cons e es ih =>
    rw [List.cons_append, run_cons, run_cons, Option.bind_assoc]
    congr 1
    funext t
    exact ih t

variable {step : σ → ε → Option σ}

/-- The intermediate state of a run over a concatenation. -/
theorem run_append_eq_some {s u : σ} {es fs : List ε}
    (h : run step s (es ++ fs) = some u) :
    ∃ t, run step s es = some t ∧ run step t fs = some u := by
  rw [run_append] at h
  exact Option.bind_eq_some_iff.mp h

/-- The first step of a nonempty run. -/
theorem run_cons_eq_some {s u : σ} {e : ε} {es : List ε}
    (h : run step s (e :: es) = some u) : ∃ t, step s e = some t ∧ run step t es = some u := by
  rw [run_cons] at h
  exact Option.bind_eq_some_iff.mp h

/-! ## Invariants -/

/-- A property kept by every step is kept by every run. -/
theorem run_preserves {P : σ → Prop}
    (hstep : ∀ s e t, P s → step s e = some t → P t) {s t : σ} {es : List ε}
    (hs : P s) (hrun : run step s es = some t) : P t := by
  induction es generalizing s with
  | nil =>
    cases hrun
    exact hs
  | cons e es ih =>
    obtain ⟨u, hu, hrest⟩ := run_cons_eq_some hrun
    exact ih (hstep s e u hs hu) hrest

/-- Every step of the run meets the side condition `G` in the state in
which it is taken. -/
def Along (step : σ → ε → Option σ) (G : σ → ε → Prop) : σ → List ε → Prop
  | _, [] => True
  | s, e :: es => G s e ∧ ∀ t, step s e = some t → Along step G t es

/-- A decidable side condition can be checked along a run. -/
instance decidableAlong (step : σ → ε → Option σ) (G : σ → ε → Prop)
    [∀ s e, Decidable (G s e)] : (s : σ) → (es : List ε) → Decidable (Along step G s es)
  | _, [] => .isTrue trivial
  | s, e :: es =>
    match h : step s e with
    | none => decidable_of_iff (G s e) (by simp [Along, h])
    | some t =>
      have := decidableAlong step G t es
      decidable_of_iff (G s e ∧ Along step G t es) (by simp [Along, h])

/-- A side condition that every event of the run meets in every state is met
along the run. -/
theorem along_of_forall {G : σ → ε → Prop} {es : List ε}
    (h : ∀ e ∈ es, ∀ s, G s e) (s : σ) : Along step G s es := by
  induction es generalizing s with
  | nil => trivial
  | cons e es ih =>
    refine ⟨h e List.mem_cons_self s, ?_⟩
    intro t _
    exact ih (fun e' he' => h e' (List.mem_cons_of_mem e he')) t

/-- Two side conditions that are met along a run are met together. -/
theorem Along.and {G H : σ → ε → Prop} {s : σ} {es : List ε}
    (hG : Along step G s es) (hH : Along step H s es) :
    Along step (fun s e => G s e ∧ H s e) s es := by
  induction es generalizing s with
  | nil => trivial
  | cons e es ih => exact ⟨⟨hG.1, hH.1⟩, fun t ht => ih (hG.2 t ht) (hH.2 t ht)⟩

/-- A property kept by every step that meets the side condition is kept by
every run that meets it throughout. -/
theorem run_preserves_along {G : σ → ε → Prop} {P : σ → Prop}
    (hstep : ∀ s e t, P s → G s e → step s e = some t → P t) {s t : σ} {es : List ε} (hs : P s)
    (hG : Along step G s es) (hrun : run step s es = some t) : P t := by
  induction es generalizing s with
  | nil =>
    cases hrun
    exact hs
  | cons e es ih =>
    obtain ⟨u, hu, hrest⟩ := run_cons_eq_some hrun
    exact ih (hstep s e u hs hG.1 hu) (hG.2 u hu) hrest

/-- A side condition that follows from another one and an invariant is met along every run that
meets the other one. -/
theorem along_of_invariant {G G' : σ → ε → Prop} {P : σ → Prop}
    (hstep : ∀ s e t, P s → G s e → step s e = some t → P t) (himp : ∀ s e, P s → G s e → G' s e)
    {s : σ} {es : List ε} (hs : P s) (hG : Along step G s es) : Along step G' s es := by
  induction es generalizing s with
  | nil => trivial
  | cons e es ih =>
    refine ⟨himp s e hs hG.1, ?_⟩
    intro t ht
    exact ih (hstep s e t hs hG.1 ht) (hG.2 t ht)

/-- A run that leaves a property kept by every event but `x` passes through
`x`, in a state that still has the property. -/
theorem run_leaves {P : σ → Prop} {G : ε → Prop} {x : ε}
    (hstep : ∀ s e t, P s → G e → e ≠ x → step s e = some t → P t) {s t : σ} {es : List ε}
    (hs : P s) (hG : ∀ e ∈ es, G e) (hrun : run step s es = some t) (ht : ¬P t) :
    ∃ pre u post, es = pre ++ x :: post ∧ run step s pre = some u ∧ P u ∧
      run step u (x :: post) = some t := by
  induction es generalizing s with
  | nil =>
    cases hrun
    exact absurd hs ht
  | cons e es ih =>
    by_cases hx : e = x
    · subst hx
      exact ⟨[], s, es, rfl, rfl, hs, hrun⟩
    · obtain ⟨v, hv, hrest⟩ := run_cons_eq_some hrun
      have hPv := hstep s e v hs (hG e List.mem_cons_self) hx hv
      obtain ⟨pre, u, post, rfl, hpre, hu, hpost⟩ :=
        ih hPv (fun e' he' => hG e' (List.mem_cons_of_mem e he')) hrest
      refine ⟨e :: pre, u, post, rfl, ?_, hu, hpost⟩
      rw [run_cons, hv]
      exact hpre

/-- A state is reachable when some run from an initial state ends in it. -/
def Reachable (init : σ → Prop) (step : σ → ε → Option σ) (t : σ) : Prop :=
  ∃ s es, init s ∧ run step s es = some t

/-- Induction over reachable states. -/
theorem reachable_invariant {init : σ → Prop} {P : σ → Prop}
    (hinit : ∀ s, init s → P s) (hstep : ∀ s e t, P s → step s e = some t → P t) {t : σ}
    (h : Reachable init step t) : P t := by
  obtain ⟨s, es, hs, hrun⟩ := h
  exact run_preserves hstep (hinit s hs) hrun

/-! ## Logs -/

/-- An entry of a log that was made longer is the last one or one of the old ones. -/
theorem concat_eq_append_cons {α : Type*} {log earlier later : List α} {c d : α}
    (h : log ++ [c] = earlier ++ d :: later) :
    (earlier = log ∧ d = c) ∨ ∃ later', log = earlier ++ d :: later' := by
  rcases List.eq_nil_or_concat' later with rfl | ⟨later', e, rfl⟩
  · rcases List.append_inj' h rfl with ⟨hlog, hlast⟩
    exact Or.inl ⟨hlog.symm, (List.cons.inj hlast).1.symm⟩
  · right
    refine ⟨later', ?_⟩
    rw [← List.cons_append, ← List.append_assoc] at h
    exact (List.append_inj' h rfl).1

end Transition
end Foundation
end GoforjCache
