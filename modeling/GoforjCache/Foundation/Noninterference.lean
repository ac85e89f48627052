import Mathlib.Data.List.Basic
import Mathlib.Logic.Function.Basic

/-!
# Foundation - Noninterference between two parties

A system takes events and answers each of them.  Some events are observed; the others belong to
someone else.  The other party does not interfere when the answers to the observed events are the
same in every run and in the run without its events.

The proof rule relates the states of the two runs: observed events give the same answer from
related states and keep them related, and an event of the other party keeps the state that it
changes related to the state of the run without it.

For systems whose state is a table, an event is local to a set of keys when it reads and writes
only the entries of these keys.  Parties that are local to disjoint sets of keys do not interfere.

Main results:

- Theorem `observed_eq_of_unwinding`: the rule.
- Theorem `observed_eq_of_local`: the rule for tables.
-/

namespace GoforjCache
namespace Foundation
namespace Noninterference

/-! ## Observed answers -/

section Systems

variable {σ ε ρ : Type}

/-- The answers to the observed events of a run. -/
def observed (step : σ → ε → σ × ρ) (watched : ε → Bool) : σ → List ε → List ρ
  | _, [] => []
  | s, e :: es =>
    if watched e then (step s e).2 :: observed step watched (step s e).1 es
    else observed step watched (step s e).1 es

variable {step : σ → ε → σ × ρ} {watched : ε → Bool}

theorem observed_cons_of_watched {e : ε} (h : watched e = true) (s : σ) (es : List ε) :
    observed step watched s (e :: es) = (step s e).2 :: observed step watched (step s e).1 es :=
  if_pos h

theorem observed_cons_of_not_watched {e : ε} (h : watched e = false) (s : σ) (es : List ε) :
    observed step watched s (e :: es) = observed step watched (step s e).1 es :=
  if_neg (by simp [h])

/-- The answers to the observed events are those of the run without the others. -/
theorem observed_eq_of_unwinding {R : σ → σ → Prop} {es : List ε}
    (hwatched : ∀ e ∈ es, watched e = true → ∀ s s', R s s' →
      (step s' e).2 = (step s e).2 ∧ R (step s e).1 (step s' e).1)
    (hother : ∀ e ∈ es, watched e = false → ∀ s s', R s s' → R (step s e).1 s') {s s' : σ}
    (h : R s s') : observed step watched s es = observed step watched s' (es.filter watched) := by
  -- the second run stands still while the first one takes an event of the other party
  induction es generalizing s s' with
  | nil => rfl
  | cons e es ih =>
    have htail := fun {s s'} => @ih (fun e he => hwatched e (List.mem_cons_of_mem _ he))
      (fun e he => hother e (List.mem_cons_of_mem _ he)) s s'
    rcases Bool.eq_false_or_eq_true (watched e) with he | he
    · rcases hwatched e List.mem_cons_self he s s' h with ⟨hanswer, hstate⟩
      rw [List.filter_cons_of_pos he, observed_cons_of_watched he,
        observed_cons_of_watched he, hanswer, htail hstate]
    · rw [List.filter_cons_of_neg (by simp [he]), observed_cons_of_not_watched he]
      exact htail (hother e List.mem_cons_self he s s' h)

end Systems

/-! ## Tables -/

section Tables

variable {κ ν ρ ρ' : Type}

/-- The tables have the same entries for the keys of a set. -/
def AgreeOn (F : κ → Prop) (t t' : κ → ν) : Prop := ∀ k, F k → t' k = t k

/-- The answer and the new entries of the keys are functions of the entries of the keys, and the
other entries stay. -/
structure Local (F : κ → Prop) (f : (κ → ν) → (κ → ν) × ρ) : Prop where
  congr : ∀ t t', AgreeOn F t t' → (f t').2 = (f t).2 ∧ AgreeOn F (f t).1 (f t').1
  frame : ∀ t k, ¬F k → (f t).1 k = t k

variable {F : κ → Prop} {f : (κ → ν) → (κ → ν) × ρ}

theorem Local.of_eq {g : (κ → ν) → (κ → ν) × ρ} (h : Local F g) (heq : ∀ t, f t = g t) :
    Local F f := by
  rw [funext heq]
  exact h

/-- The answer is passed through a function. -/
theorem Local.map (h : Local F f) (g : ρ → ρ') : Local F fun t => ((f t).1, g (f t).2) where
  congr := fun t t' hagree =>
    ⟨congrArg g (h.congr t t' hagree).1, (h.congr t t' hagree).2⟩
  frame := h.frame

/-- One function after the other; the second one sees the answer of the first one. -/
theorem Local.andThen {g : ρ → (κ → ν) → (κ → ν) × ρ'} (hf : Local F f)
    (hg : ∀ r, Local F (g r)) : Local F fun t => g (f t).2 (f t).1 where
  congr := by
    intro t t' hagree
    rcases hf.congr t t' hagree with ⟨hanswer, hnew⟩
    rw [hanswer]
    exact (hg _).congr _ _ hnew
  frame := by
    intro t k hk
    rw [(hg _).frame _ k hk]
    exact hf.frame t k hk

/-- A function that only answers. -/
theorem local_const (F : κ → Prop) (r : ρ) : Local F fun t : κ → ν => (t, r) where
  congr := fun _ _ hagree => ⟨rfl, hagree⟩
  frame := fun _ _ _ => rfl

/-- A function that looks at the entry of one key first, and is local after each entry that it may
find. -/
theorem local_of_entry {k : κ} (hk : F k)
    (h : ∀ v, ∃ g : (κ → ν) → (κ → ν) × ρ, Local F g ∧ ∀ t, t k = v → f t = g t) :
    Local F f where
  congr := by
    intro t t' hagree
    rcases h (t k) with ⟨g, hg, heq⟩
    rw [heq t rfl, heq t' (hagree k hk)]
    exact hg.congr t t' hagree
  frame := by
    intro t j hj
    rcases h (t k) with ⟨g, hg, heq⟩
    rw [heq t rfl]
    exact hg.frame t j hj

/-- A function that writes the entry of one key. -/
theorem local_update [DecidableEq κ] {k : κ} (hk : F k) (v : ν) (r : ρ) :
    Local F fun t => (Function.update t k v, r) where
  congr := by
    refine fun t t' hagree => ⟨rfl, ?_⟩
    intro j hj
    by_cases hjk : j = k
    · subst hjk
      simp
    · simpa [hjk] using hagree j hj
  frame := by
    intro t j hj
    have hjk : j ≠ k := by
      rintro rfl
      exact hj hk
    exact Function.update_of_ne hjk v t

/-- A function that writes one value for every key of a subset. -/
theorem local_fill {D : κ → Prop} [DecidablePred D] (hD : ∀ k, D k → F k) (v : ν) (r : ρ) :
    Local F fun t => (fun k => if D k then v else t k, r) where
  congr := by
    refine fun t t' hagree => ⟨rfl, ?_⟩
    intro j hj
    dsimp only
    rw [hagree j hj]
  frame := fun t j hj => if_neg fun hDj => hj (hD j hDj)

variable {ε : Type} {run : ε → (κ → ν) → (κ → ν) × ρ} {watched : ε → Bool} {es : List ε}
  {G : κ → Prop}

/-- Parties that are local to disjoint sets of keys do not interfere. -/
theorem observed_eq_of_local (hwatched : ∀ e ∈ es, watched e = true → Local F (run e))
    (hother : ∀ e ∈ es, watched e = false → Local G (run e)) (hdisjoint : ∀ k, F k → ¬G k)
    (t : κ → ν) :
    observed (fun t e => run e t) watched t es =
      observed (fun t e => run e t) watched t (es.filter watched) := by
  have hstart : AgreeOn F t t := fun _ _ => rfl
  refine observed_eq_of_unwinding ?_ ?_ hstart
  · exact fun e he hw s s' hagree => (hwatched e he hw).congr s s' hagree
  · intro e he hw s s' hagree k hk
    rw [(hother e he hw).frame s k (hdisjoint k hk)]
    exact hagree k hk

end Tables

end Noninterference
end Foundation
end GoforjCache
