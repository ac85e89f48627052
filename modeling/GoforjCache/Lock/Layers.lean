import GoforjCache.Lock.Client
import GoforjCache.Memo.Store
import GoforjCache.Memory.Store

/-!
# Locks - Lock operations through wrapper layers

A Cache or a handle talks to the memory store through any stack of the layers that
`WrapStore` and `NewMemoStore` build.  The shaping and encrypting layers
hand lock operations down unchanged, a memo layer invalidates its own table after
the call below succeeded, and a layer built from an invalid configuration fails.

Main results:

- Theorem `Stack.lockAcquire_spec`: through any stack, an acquisition that
  reports success is the memory store's and any other changes nothing.
- Theorem `Stack.lockRelease_spec`: the same for a release.
-/

namespace GoforjCache
namespace Lock

open Foundation
open Direct (Answer)

/-- The layers between a client and the one memory store; `memo` names its
table. -/
inductive Stack where
  | memory
  | shaping (inner : Stack)
  | encrypting (inner : Stack)
  | memo (inner : Stack) (table : Nat)
  | failing (err : CacheError)
deriving DecidableEq, Repr

/-- Outcome of a lock call below the client: the memory store afterwards, the
answer, and the memo tables that have yet to forget the key, innermost first. -/
structure Outcome where
  items : Memory.Items
  answer : Answer
  forgets : List Nat

/-- A memo layer forgets the key after a call below it that succeeded. -/
def Outcome.memoized (o : Outcome) (table : Nat) : Outcome :=
  if o.answer.succeeded then { o with forgets := o.forgets ++ [table] } else o

@[simp]
theorem Outcome.memoized_items (o : Outcome) (table : Nat) :
    (o.memoized table).items = o.items := by
  unfold Outcome.memoized
  split <;> rfl

@[simp]
theorem Outcome.memoized_answer (o : Outcome) (table : Nat) :
    (o.memoized table).answer = o.answer := by
  unfold Outcome.memoized
  split <;> rfl

namespace Stack

/-- `LockAcquire` of the outermost layer. -/
def lockAcquire (d : DefaultTTL) (m : Memory.Items) (now : Instant) (key : Key)
    (owner : Bytes) (ttl : Duration) : Stack → Outcome
  | memory =>
    let r := Memory.lockAcquire d m now key owner ttl
    ⟨r.1, ⟨r.2, none⟩, []⟩
  | shaping inner => inner.lockAcquire d m now key owner ttl
  | encrypting inner => inner.lockAcquire d m now key owner ttl
  | memo inner table => (inner.lockAcquire d m now key owner ttl).memoized table
  | failing err => ⟨m, ⟨false, some err⟩, []⟩

/-- `LockRelease` of the outermost layer. -/
def lockRelease (m : Memory.Items) (now : Instant) (key : Key) (owner : Bytes) : Stack → Outcome
  | memory =>
    let r := Memory.lockRelease m now key owner
    ⟨r.1, ⟨r.2, none⟩, []⟩
  | shaping inner => inner.lockRelease m now key owner
  | encrypting inner => inner.lockRelease m now key owner
  | memo inner table => (inner.lockRelease m now key owner).memoized table
  | failing err => ⟨m, ⟨false, some err⟩, []⟩

/-- An acquisition through a stack either succeeds as the memory store's does, or
changes nothing and does not report success. -/
theorem lockAcquire_spec (d : DefaultTTL) (m : Memory.Items) (now : Instant) (key : Key)
    (owner : Bytes) {ttl : Duration} (httl : 0 < ttl) (st : Stack) :
    ((st.lockAcquire d m now key owner ttl).answer.succeeded = true ∧
      m.get now key = none ∧ (st.lockAcquire d m now key owner ttl).items =
        Function.update m key (some ⟨owner, ExpiringMap.deadline now ttl⟩)) ∨
    ((st.lockAcquire d m now key owner ttl).answer.succeeded = false ∧
      (st.lockAcquire d m now key owner ttl).items = m) := by
  induction st with
  | memory =>
    unfold lockAcquire
    rcases Memory.lockAcquire_spec d m now key owner httl with ⟨hfree, heq⟩ | ⟨-, heq⟩
    · exact Or.inl ⟨by simp [heq, Answer.succeeded], hfree, by rw [heq]⟩
    · exact Or.inr ⟨by simp [heq, Answer.succeeded], by rw [heq]⟩
  | shaping inner ih => exact ih
  | encrypting inner ih => exact ih
  | memo inner table ih =>
    simpa only [lockAcquire, Outcome.memoized_items, Outcome.memoized_answer] using ih
  | failing err => exact Or.inr ⟨rfl, rfl⟩

/-- A release through a stack either returns no error and leaves what the memory
store's release leaves, or changes nothing. -/
theorem lockRelease_spec (m : Memory.Items) (now : Instant) (key : Key) (owner : Bytes)
    (st : Stack) :
    ((st.lockRelease m now key owner).answer.err = none ∧
      (st.lockRelease m now key owner).items = (Memory.lockRelease m now key owner).1) ∨
    ((st.lockRelease m now key owner).answer.err ≠ none ∧
      (st.lockRelease m now key owner).items = m) := by
  induction st with
  | memory => exact Or.inl ⟨rfl, rfl⟩
  | shaping inner ih => exact ih
  | encrypting inner ih => exact ih
  | memo inner table ih =>
    simpa only [lockRelease, Outcome.memoized_items, Outcome.memoized_answer] using ih
  | failing err => exact Or.inr ⟨by simp [lockRelease], rfl⟩

end Stack
end Lock
end GoforjCache
