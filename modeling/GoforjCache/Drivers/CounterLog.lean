import GoforjCache.Nats.Counters
import Mathlib.Algebra.BigOperators.Group.Finset.Basic

/-!
# Drivers - The log of a counter

One counter call per slot, each with a fixed operation.  The writes that took effect form a log;
the calls that have returned a number are those of the log.  A `Tally` keeps this account
along a run, whatever the backend does in between.

Main results:

- Theorem `Tally.concat`: one more write of the total so far plus the operation of its call.
- Theorem `Tally.amounts_eq_sum`: when every call has returned, the log holds each operation
  once.
- Theorem `Tally.result_injective`: with positive changes no number is returned twice.
-/

namespace GoforjCache
namespace CounterLog

open Function Nats.Counters

variable {τ : Type}

/-! ## Sums along a log -/

/-- With positive changes the results along a log are above the start. -/
theorem lt_result_of_sums {n : Int} {log : List (Applied τ)} (h : Sums n log)
    (hpos : ∀ e ∈ log, 0 < e.op.amount) : ∀ e ∈ log, n < e.result.toInt := by
  induction log generalizing n with
  | nil =>
    intro e he
    cases he
  | cons e log ih =>
    have hfirst := hpos e List.mem_cons_self
    intro e' he'
    rcases List.mem_cons.mp he' with rfl | hmem
    · have hresult := h.1
      omega
    · have hrest := ih h.2 (fun d hd => hpos d (List.mem_cons_of_mem e hd)) e' hmem
      omega

/-- With positive changes the results along a log increase. -/
theorem pairwise_result_of_sums {n : Int} {log : List (Applied τ)} (h : Sums n log)
    (hpos : ∀ e ∈ log, 0 < e.op.amount) :
    log.Pairwise fun e e' => e.result.toInt < e'.result.toInt := by
  induction log generalizing n with
  | nil => exact List.Pairwise.nil
  | cons e log ih =>
    have hrest : ∀ d ∈ log, 0 < d.op.amount := fun d hd => hpos d (List.mem_cons_of_mem e hd)
    refine List.Pairwise.cons ?_ (ih h.2 hrest)
    intro e' he'
    rw [h.1]
    exact lt_result_of_sums h.2 hrest e' he'

/-! ## The account of a run -/

/-- The account of the writes so far: each is that of one call, with the wrapped total as its
result, and the calls that have returned a number are those that have written. -/
structure Tally (op : τ → CounterOp) (n : Int64) (log : List (Applied τ))
    (returned : τ → Option Int64) : Prop where
  ops : ∀ e ∈ log, e.op = op e.slot
  sums : WrappedSums n.toInt log
  nodup : (log.map Applied.slot).Nodup
  returned_iff : ∀ o m, returned o = some m ↔ ∃ e ∈ log, e.slot = o ∧ e.result = m

section Account

variable {op : τ → CounterOp} {n : Int64} {log : List (Applied τ)} {returned : τ → Option Int64}

/-- Nothing has been written and nothing returned. -/
theorem Tally.nil (h : ∀ o, returned o = none) : Tally op n [] returned where
  ops := fun e he => by cases he
  sums := trivial
  nodup := List.nodup_nil
  returned_iff := by
    intro o m
    simp [h o]

variable {o : τ}

/-- A call that has not returned has not written. -/
theorem Tally.slot_ne (h : Tally op n log returned) (hbefore : returned o = none) :
    ∀ e ∈ log, e.slot ≠ o := by
  intro e he hslot
  have hreturned := (h.returned_iff o e.result).mpr ⟨e, he, hslot, rfl⟩
  rw [hbefore] at hreturned
  cases hreturned

/-- One more write: the total so far plus the operation of a call that has not written. -/
theorem Tally.concat [DecidableEq τ] (h : Tally op n log returned) {next : Int64}
    (hbefore : returned o = none) (hnext : next = total n log + (op o).applied) :
    Tally op n (log ++ [⟨o, op o, next⟩]) (update returned o (some next)) := by
  have hnew := h.slot_ne hbefore
  have htotal : next = total n (log ++ [⟨o, op o, next⟩]) := by rw [total_concat, hnext]
  constructor
  · intro e he
    rcases List.mem_append.mp he with hold | hlast
    · exact h.ops e hold
    · rw [List.mem_singleton.mp hlast]
  · exact h.sums.concat htotal
  · rw [List.map_append, List.nodup_append]
    refine ⟨h.nodup, List.nodup_singleton o, ?_⟩
    intro slot hslot slot' hslot'
    rcases List.mem_map.mp hslot with ⟨e, he, rfl⟩
    rw [List.mem_singleton.mp hslot']
    exact hnew e he
  · refine (forall_update_iff returned fun q r => ∀ m, r = some m ↔
      ∃ e ∈ log ++ [⟨o, op o, next⟩], e.slot = q ∧ e.result = m).mpr ⟨?_, ?_⟩
    · intro m
      rw [result_concat]
      constructor
      · intro hm
        exact Or.inr ⟨rfl, Option.some.inj hm⟩
      · rintro (⟨e, he, hslot, -⟩ | ⟨-, hm⟩)
        · exact absurd hslot (hnew e he)
        · exact congrArg some hm
    · intro q hq m
      rw [result_concat, h.returned_iff q m]
      constructor
      · exact Or.inl
      · rintro (hold | ⟨hslot, -⟩)
        · exact hold
        · exact absurd hslot.symm hq

/-- Once a call has returned, something was written. -/
theorem Tally.log_ne_nil (h : Tally op n log returned) (hreturned : (returned o).isSome) :
    log ≠ [] := by
  rcases Option.isSome_iff_exists.mp hreturned with ⟨m, hm⟩
  rcases (h.returned_iff o m).mp hm with ⟨e, he, -⟩
  exact List.ne_nil_of_mem he

/-- The log holds the operations of the calls that have written. -/
theorem Tally.amounts_eq_sum_slots [DecidableEq τ] (h : Tally op n log returned) :
    amounts log = ∑ o ∈ (log.map Applied.slot).toFinset, (op o).amount :=
  calc amounts log
      = ((log.map Applied.slot).map fun o => (op o).amount).sum := by
        unfold amounts
        rw [List.map_map]
        congr 1
        apply List.map_congr_left
        intro e he
        rw [h.ops e he]
        rfl
    _ = ∑ o ∈ (log.map Applied.slot).toFinset, (op o).amount := (List.sum_toFinset _ h.nodup).symm

/-- When every call has returned, the log holds the operation of each call once. -/
theorem Tally.amounts_eq_sum [Fintype τ] (h : Tally op n log returned)
    (hall : ∀ o, (returned o).isSome) : amounts log = ∑ o, (op o).amount := by
  classical
  have hmem : ∀ o, o ∈ log.map Applied.slot := by
    intro o
    rcases Option.isSome_iff_exists.mp (hall o) with ⟨m, hm⟩
    rcases (h.returned_iff o m).mp hm with ⟨e, he, hslot, -⟩
    exact List.mem_map.mpr ⟨e, he, hslot⟩
  have huniv : (log.map Applied.slot).toFinset = Finset.univ := by
    ext o
    simp only [List.mem_toFinset, hmem o, Finset.mem_univ]
  rw [h.amounts_eq_sum_slots, huniv]

/-- One more call does not exceed the sum of all calls, if none of them is negative. -/
theorem Tally.amounts_add_le [Fintype τ] (h : Tally op n log returned)
    (hnonneg : ∀ o, 0 ≤ (op o).amount) (hbefore : returned o = none) :
    amounts log + (op o).amount ≤ ∑ q, (op q).amount := by
  classical
  have hnew : o ∉ (log.map Applied.slot).toFinset := by
    rw [List.mem_toFinset, List.mem_map]
    rintro ⟨e, he, hslot⟩
    exact h.slot_ne hbefore e he hslot
  calc amounts log + (op o).amount
      = ∑ q ∈ insert o (log.map Applied.slot).toFinset, (op q).amount := by
        rw [Finset.sum_insert hnew, h.amounts_eq_sum_slots, add_comm]
    _ ≤ ∑ q, (op q).amount := Finset.sum_le_univ_sum_of_nonneg hnonneg

/-- The wrapped total is the sum while all partial sums are 64-bit integers. -/
theorem toInt_total (hrange : InRange n.toInt log) :
    (total n log).toInt = n.toInt + amounts log := by
  apply toInt_ofInt_of_range
  apply hrange.total
  have hlo := n.le_toInt
  have hhi := n.toInt_lt
  omega

/-- With positive changes no two calls return the same number. -/
theorem Tally.result_injective (h : Tally op n log returned) (hrange : InRange n.toInt log)
    (hpos : ∀ o, 0 < (op o).amount) {p : τ} {m : Int64} (ho : returned o = some m)
    (hp : returned p = some m) : o = p := by
  rcases (h.returned_iff o m).mp ho with ⟨e, he, rfl, hm⟩
  rcases (h.returned_iff p m).mp hp with ⟨e', he', rfl, hm'⟩
  have hincreasing := pairwise_result_of_sums (h.sums.sums hrange) fun d hd => by
    rw [h.ops d hd]
    exact hpos d.slot
  have hnodup : (log.map Applied.result).Nodup := by
    rw [List.Nodup, List.pairwise_map]
    apply hincreasing.imp
    intro d d' hlt heq
    rw [heq] at hlt
    exact lt_irrefl _ hlt
  exact congrArg Applied.slot (List.inj_on_of_nodup_map hnodup he he' (hm.trans hm'.symm))

end Account

/-! ## Program counters -/

section Phases

variable [DecidableEq τ] {P : Type} {r : P → Option Int64} {phases : τ → P}
variable {op : τ → CounterOp} {n : Int64} {log : List (Applied τ)}

/-- The results after a call has moved. -/
theorem returned_update (o : τ) (p : P) :
    (fun q => r (update phases o p q)) = update (fun q => r (phases q)) o (r p) := by
  funext q
  exact apply_update (fun _ => r) phases o p q

variable {o : τ} {p : P}

/-- A call that moves and keeps its result, if any, keeps the account. -/
theorem Tally.keep (h : Tally op n log fun q => r (phases q)) (hsame : r p = r (phases o)) :
    Tally op n log fun q => r (update phases o p q) := by
  rw [returned_update, hsame, update_eq_self o fun q => r (phases q)]
  exact h

/-- A call that moves to no result keeps the account. -/
theorem Tally.put (h : Tally op n log fun q => r (phases q)) (hbefore : r (phases o) = none)
    (hafter : r p = none) : Tally op n log fun q => r (update phases o p q) :=
  h.keep (hafter.trans hbefore.symm)

/-- A call that writes the total so far plus its operation, and returns it, is entered. -/
theorem Tally.wrote (h : Tally op n log fun q => r (phases q)) {next : Int64}
    (hbefore : r (phases o) = none) (hafter : r p = some next)
    (hnext : next = total n log + (op o).applied) :
    Tally op n (log ++ [⟨o, op o, next⟩]) fun q => r (update phases o p q) := by
  rw [returned_update, hafter]
  exact h.concat hbefore hnext

end Phases

end CounterLog
end GoforjCache
