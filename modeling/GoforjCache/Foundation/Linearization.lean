import Mathlib.Data.List.Nodup
import Mathlib.Tactic

/-!
# Foundation - Histories and linearizations

A concurrent object is observed through the calls and returns of its operations.  A sequential
order of the operations explains such a history when it gives every returned call its result
and keeps calls in order of which the first had returned before the second was made.  Calls
that have not returned may be part of the order or not.

To find such an order it is enough to name, for each call, a moment between its invocation and
its return at which it takes effect.  A `Record` keeps the history together with the
operations in the order of these moments.

Main results:

- Theorems `Record.Inv.invoke`, `Record.Inv.commit` and `Record.Inv.respond`: a
  record in which every call takes effect once, after it was made and before it returns, is
  linearized by the order of the effects.
-/

namespace GoforjCache
namespace Foundation
namespace Linearization

variable {Op Res : Type*}

/-- What an observer sees: a call under a fresh number, and its return. -/
inductive Action (Op Res : Type*) where
  | call (id : Nat) (op : Op)
  | ret (id : Nat) (res : Res)
deriving DecidableEq

/-- One operation of a sequential order, with the result it has there. -/
structure Entry (Op Res : Type*) where
  id : Nat
  op : Op
  res : Res
deriving DecidableEq

/-- The sequential order `log` explains the history. -/
structure Linearizes (history : List (Action Op Res)) (log : List (Entry Op Res)) : Prop where
  complete : ∀ id res, .ret id res ∈ history → ∃ e ∈ log, e.id = id ∧ e.res = res
  genuine : ∀ e ∈ log, .call e.id e.op ∈ history
  once : (log.map Entry.id).Nodup
  realTime : ∀ a res b op, [.ret a res, .call b op].Sublist history →
    ∀ eb ∈ log, eb.id = b → ∃ ea ∈ log, ea.id = a ∧ [ea, eb].Sublist log

/-- A pair within a list with one more element at its end. -/
theorem pair_sublist_concat {α : Type*} {x y z : α} {l : List α} :
    [x, y].Sublist (l ++ [z]) ↔ [x, y].Sublist l ∨ x ∈ l ∧ y = z := by
  constructor
  · intro h
    obtain ⟨l₁, l₂, heq, h₁, h₂⟩ := List.sublist_append_iff.mp h
    rcases List.sublist_singleton.mp h₂ with rfl | rfl
    · rw [List.append_nil] at heq
      exact Or.inl (heq ▸ h₁)
    · have hsplit : [x] ++ [y] = l₁ ++ [z] := heq
      obtain ⟨rfl, hy⟩ := List.append_inj' hsplit rfl
      exact Or.inr ⟨List.singleton_sublist.mp h₁, (List.cons.inj hy).1⟩
  · rintro (h | ⟨hx, rfl⟩)
    · exact h.trans (List.sublist_append_left l [z])
    · exact (List.singleton_sublist.mpr hx).append (List.Sublist.refl [y])

/-! ## Records -/

/-- A history, the calls that have taken effect in the order in which they did, and the next
fresh number. -/
structure Record (Op Res : Type*) where
  history : List (Action Op Res)
  log : List (Entry Op Res)
  next : Nat

namespace Record

/-- The record before the first call. -/
def empty : Record Op Res := ⟨[], [], 0⟩

/-- A call is made, under the next fresh number. -/
def invoke (r : Record Op Res) (op : Op) : Record Op Res :=
  { r with history := r.history ++ [.call r.next op], next := r.next + 1 }

/-- A call takes effect. -/
def commit (r : Record Op Res) (e : Entry Op Res) : Record Op Res := { r with log := r.log ++ [e] }

/-- A call returns. -/
def respond (r : Record Op Res) (id : Nat) (res : Res) : Record Op Res :=
  { r with history := r.history ++ [.ret id res] }

/-- The call was made and has not taken effect. -/
structure Open (r : Record Op Res) (id : Nat) (op : Op) : Prop where
  called : .call id op ∈ r.history
  pending : ∀ e ∈ r.log, e.id ≠ id

/-- The call has taken effect with a result. -/
def Committed (r : Record Op Res) (id : Nat) (res : Res) : Prop :=
  ∃ e ∈ r.log, e.id = id ∧ e.res = res

/-- The invariant of a record that is kept as intended. -/
structure Inv (r : Record Op Res) : Prop where
  bound : ∀ id op, .call id op ∈ r.history → id < r.next
  linearizes : Linearizes r.history r.log

/-- The empty record satisfies the invariant. -/
theorem inv_empty : (empty : Record Op Res).Inv where
  bound := by
    intro id op h
    cases h
  linearizes :=
    { complete := by
        intro id res h
        cases h
      genuine := by
        intro e h
        cases h
      once := List.nodup_nil
      realTime := by
        intro a res b op h
        cases h }

variable {r : Record Op Res}

/-- The numbers of calls that have taken effect are not fresh. -/
theorem Inv.lt_next (h : r.Inv) {e : Entry Op Res} (he : e ∈ r.log) : e.id < r.next :=
  h.bound e.id e.op (h.linearizes.genuine e he)

/-- Making a call keeps the invariant. -/
theorem Inv.invoke (h : r.Inv) (op : Op) : (r.invoke op).Inv where
  bound := by
    intro id op' hmem
    rcases List.mem_append.mp hmem with hold | hnew
    · exact Nat.lt_succ_of_lt (h.bound id op' hold)
    · cases List.mem_singleton.mp hnew
      exact Nat.lt_succ_self _
  linearizes :=
    { complete := by
        intro id res hmem
        rcases List.mem_append.mp hmem with hold | hnew
        · exact h.linearizes.complete id res hold
        · cases List.mem_singleton.mp hnew
      genuine := by
        intro e he
        exact List.mem_append_left _ (h.linearizes.genuine e he)
      once := h.linearizes.once
      realTime := by
        intro a res b op' hsub eb heb hb
        rcases pair_sublist_concat.mp hsub with hold | ⟨-, hnew⟩
        · exact h.linearizes.realTime a res b op' hold eb heb hb
        · -- the new call has not taken effect
          cases hnew
          exact absurd hb (h.lt_next heb).ne }

variable {id : Nat} {op : Op} {res : Res}

/-- A pending call may take effect. -/
theorem Inv.commit (h : r.Inv) (hopen : r.Open id op) (res : Res) :
    (r.commit ⟨id, op, res⟩).Inv where
  bound := h.bound
  linearizes :=
    { complete := by
        intro id' res' hmem
        obtain ⟨e, he, hid, hres⟩ := h.linearizes.complete id' res' hmem
        exact ⟨e, List.mem_append_left _ he, hid, hres⟩
      genuine := by
        intro e he
        rcases List.mem_append.mp he with hold | hnew
        · exact h.linearizes.genuine e hold
        · rw [List.mem_singleton.mp hnew]
          exact hopen.called
      once := by
        rw [Record.commit, List.map_append, List.nodup_append]
        refine ⟨h.linearizes.once, List.nodup_singleton _, ?_⟩
        intro a ha b hb
        obtain ⟨e, he, rfl⟩ := List.mem_map.mp ha
        rw [List.mem_singleton.mp hb]
        exact hopen.pending e he
      realTime := by
        intro a res' b op' hsub eb heb hb
        rcases List.mem_append.mp heb with hold | hnew
        · obtain ⟨ea, hea, ha, hsub'⟩ := h.linearizes.realTime a res' b op' hsub eb hold hb
          exact ⟨ea, List.mem_append_left _ hea, ha, hsub'.trans (List.sublist_append_left _ _)⟩
        · -- what returned before this call was made has taken effect already
          have hret : Action.ret a res' ∈ r.history := hsub.subset List.mem_cons_self
          obtain ⟨ea, hea, ha, -⟩ := h.linearizes.complete a res' hret
          refine ⟨ea, List.mem_append_left _ hea, ha, ?_⟩
          exact pair_sublist_concat.mpr (Or.inr ⟨hea, List.mem_singleton.mp hnew⟩) }

/-- A call that has taken effect may return its result. -/
theorem Inv.respond (h : r.Inv) (hcommitted : r.Committed id res) : (r.respond id res).Inv where
  bound := by
    intro id' op hmem
    rcases List.mem_append.mp hmem with hold | hnew
    · exact h.bound id' op hold
    · cases List.mem_singleton.mp hnew
  linearizes :=
    { complete := by
        intro id' res' hmem
        rcases List.mem_append.mp hmem with hold | hnew
        · exact h.linearizes.complete id' res' hold
        · cases List.mem_singleton.mp hnew
          exact hcommitted
      genuine := by
        intro e he
        exact List.mem_append_left _ (h.linearizes.genuine e he)
      once := h.linearizes.once
      realTime := by
        intro a res' b op hsub eb heb hb
        rcases pair_sublist_concat.mp hsub with hold | ⟨-, hnew⟩
        · exact h.linearizes.realTime a res' b op hold eb heb hb
        · cases hnew }

/-! ## What the record knows of a call -/

/-- A new call is pending. -/
theorem Inv.open_invoke (h : r.Inv) (op : Op) : (r.invoke op).Open r.next op where
  called := List.mem_append_right _ (List.mem_singleton.mpr rfl)
  pending := fun _ he => (h.lt_next he).ne

/-- The number of a pending call is not fresh. -/
theorem Inv.open_lt (h : r.Inv) (hopen : r.Open id op) : id < r.next := h.bound id op hopen.called

/-- The number of a call that has taken effect is not fresh. -/
theorem Inv.committed_lt (h : r.Inv) (hc : r.Committed id res) : id < r.next := by
  obtain ⟨e, he, rfl, -⟩ := hc
  exact h.lt_next he

theorem Open.invoke (h : r.Open id op) (op' : Op) : (r.invoke op').Open id op :=
  ⟨List.mem_append_left _ h.called, h.pending⟩

theorem Open.respond (h : r.Open id op) (id' : Nat) (res : Res) : (r.respond id' res).Open id op :=
  ⟨List.mem_append_left _ h.called, h.pending⟩

/-- The effect of another call leaves a call pending. -/
theorem Open.commit (h : r.Open id op) {e : Entry Op Res} (hne : e.id ≠ id) :
    (r.commit e).Open id op := by
  refine ⟨h.called, ?_⟩
  intro e' he'
  rcases List.mem_append.mp he' with hold | hnew
  · exact h.pending e' hold
  · rw [List.mem_singleton.mp hnew]
    exact hne

theorem committed_commit (r : Record Op Res) (e : Entry Op Res) :
    (r.commit e).Committed e.id e.res :=
  ⟨e, List.mem_append_right _ (List.mem_singleton.mpr rfl), rfl, rfl⟩

theorem Committed.commit (h : r.Committed id res) (e : Entry Op Res) :
    (r.commit e).Committed id res := by
  obtain ⟨e', he', hid, hres⟩ := h
  exact ⟨e', List.mem_append_left _ he', hid, hres⟩

end Record

end Linearization
end Foundation
end GoforjCache
