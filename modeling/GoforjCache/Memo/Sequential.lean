import GoforjCache.Foundation.Transition
import GoforjCache.Memo.Store

/-!
# Memo - Calls that nothing overlaps

A call of `memoStore` from its beginning to its end, over any backend with the lock
capability.  No other call runs meanwhile, so the generation of a read is still the present one when
the read ends, and its answer is published.

Main results:

- Theorem `entries_alone`: what a call has to keep about the backend so that a property of the
  memo entries is kept.
-/

namespace GoforjCache
namespace Memo

open Function Foundation.Transition

/-! ## One call -/

section Alone

variable {σ : Type} (exec : σ → Op → σ × Res)

/-- A read: the memo entry, or the answer of the backend, which is published unless it is an
error. -/
def readAlone (s : σ × Table) (key : Key) : (σ × Table) × Res :=
  match s.2.items key with
  | some content => (s, .value content)
  | none =>
    let r := exec s.1 (.get key)
    match r.2 with
    | .value content => ((r.1, s.2.publish key content s.2.generation), .value content)
    | res => ((r.1, s.2), res)

/-- A mutation: the call of the backend, and the invalidation if it was applied. -/
def writeAlone (s : σ × Table) (op : Op) : (σ × Table) × Res :=
  let r := exec s.1 op
  ((r.1, if r.2.applied then s.2.invalidate op else s.2), r.2)

/-- Any call. -/
def alone (s : σ × Table) : Op → (σ × Table) × Res
  | .get key => readAlone exec s key
  | op => writeAlone exec s op

/-- A call reads a key or is none of the reads. -/
theorem read_or_write (op : Op) : (∃ key, op = .get key) ∨ ∀ key, op ≠ .get key := by
  cases op with
  | get key => exact Or.inl ⟨key, rfl⟩
  | _ =>
    right
    rintro key ⟨⟩

variable {exec} {s : σ × Table} {op : Op} {key : Key}

theorem alone_write (hop : ∀ key, op ≠ .get key) : alone exec s op = writeAlone exec s op := by
  cases op with
  | get key => exact absurd rfl (hop key)
  | _ => rfl

theorem alone_hit {content : Option Bytes} (h : s.2.items key = some content) :
    alone exec s (.get key) = (s, .value content) := by
  simp [alone, readAlone, h]

theorem alone_miss {content : Option Bytes} (h : s.2.items key = none)
    (hvalue : (exec s.1 (.get key)).2 = .value content) :
    alone exec s (.get key) = (((exec s.1 (.get key)).1,
      ⟨update s.2.items key (some content), s.2.generation⟩), .value content) := by
  simp [alone, readAlone, h, hvalue, Table.publish]

theorem alone_fails (h : s.2.items key = none)
    (herror : ∀ content, (exec s.1 (.get key)).2 ≠ .value content) :
    alone exec s (.get key) = (((exec s.1 (.get key)).1, s.2), (exec s.1 (.get key)).2) := by
  simp only [alone, readAlone, h]

/-- A call other than `Get` answers as the backend does. -/
theorem alone_answer (hop : ∀ key, op ≠ .get key) : (alone exec s op).2 = (exec s.1 op).2 := by
  rw [alone_write hop]
  rfl

/-- The entries after a call other than `Get`: those of the keys it changed are gone. -/
theorem alone_items (hop : ∀ key, op ≠ .get key) (key : Key) :
    (alone exec s op).1.2.items key =
      if (exec s.1 op).2.applied = true ∧ op.touches key = true then none
      else s.2.items key := by
  rw [alone_write hop, writeAlone]
  by_cases happlied : (exec s.1 op).2.applied = true
  · simp only [happlied, if_true, true_and]
    exact Table.invalidate_items s.2 hop key
  · simp [happlied]

/-- A read changes no entry of another key. -/
theorem alone_items_of_ne {other : Key} (hne : other ≠ key) :
    (alone exec s (.get key)).1.2.items other = s.2.items other := by
  cases hitem : s.2.items key with
  | some content => rw [alone_hit hitem]
  | none =>
    by_cases hvalue : ∃ content, (exec s.1 (.get key)).2 = .value content
    · obtain ⟨content, hvalue⟩ := hvalue
      rw [alone_miss hitem hvalue]
      exact update_of_ne hne _ _
    · push Not at hvalue
      rw [alone_fails hitem hvalue]

/-! ## Properties of the entries -/

/-- Every memo entry stands in a relation to the backend. -/
def Entries (R : σ → Key → Option Bytes → Prop) (s : σ × Table) : Prop :=
  ∀ key content, s.2.items key = some content → R s.1 key content

theorem entries_empty (R : σ → Key → Option Bytes → Prop) (b : σ) : Entries R (b, Table.empty) := by
  intro key content h
  cases h

/-- A call keeps a property of the entries if the answers of the backend have it, and if the backend
call keeps it for the entries that the memo store does not forget. -/
theorem entries_alone {R : σ → Key → Option Bytes → Prop} (h : Entries R s)
    (hread : ∀ key content, op = .get key → (exec s.1 op).2 = .value content →
      R (exec s.1 op).1 key content)
    (hkeep : ∀ key content, s.2.items key = some content → R s.1 key content →
      ¬((exec s.1 op).2.applied = true ∧ op.touches key = true) → R (exec s.1 op).1 key content) :
    Entries R (alone exec s op).1 := by
  rcases read_or_write op with ⟨key, rfl⟩ | hop
  · cases hitem : s.2.items key with
    | some content =>
      rw [alone_hit hitem]
      exact h
    | none =>
      -- The entries of other keys are none of those that the call names.
      have hold : Entries R ((exec s.1 (.get key)).1, s.2) := by
        intro k content hk
        have hne : k ≠ key := by
          rintro rfl
          rw [hitem] at hk
          cases hk
        exact hkeep k content hk (h k content hk) (by simp [Op.touches, Op.keys, hne])
      by_cases hvalue : ∃ content, (exec s.1 (.get key)).2 = .value content
      · obtain ⟨content, hvalue⟩ := hvalue
        rw [alone_miss hitem hvalue]
        intro k content' hk
        dsimp only at hk ⊢
        by_cases hkey : k = key
        · subst hkey
          rw [update_self] at hk
          cases hk
          exact hread k content rfl hvalue
        · rw [update_of_ne hkey] at hk
          exact hold k content' hk
      · push Not at hvalue
        rw [alone_fails hitem hvalue]
        exact hold
  · intro key content hitem
    rw [alone_items hop] at hitem
    split at hitem
    · cases hitem
    · rename_i hnot
      rw [alone_write hop]
      exact hkeep key content hitem (h key content hitem) hnot

end Alone

end Memo
end GoforjCache
