import GoforjCache.Core.Types

/-!
# Memo - One memoStore over any backend

The fields `items` and `generation` of `memoStore`, the critical
sections over them, and the calls that run through one store at the granularity of
those sections and of atomic backend calls.  A memo entry remembers what the backend
answered, a hit or a miss; the generation is the 64-bit counter that every
invalidation advances.

The backend is any store whose calls are atomic and which keeps to the contract: a
call changes the content of the keys it names only, and only when it reports that it
applied.

Main results:

- Theorem `Table.invalidate_items`: the invalidation of a call forgets exactly
  the keys the call touches.
- Definition `step`: one step of one call.
-/

namespace GoforjCache
namespace Memo

open Function

/-- The guarded fields of `memoStore`.  An entry `some none` is a
memoized miss. -/
structure Table where
  items : Key → Option (Option Bytes)
  generation : UInt64

namespace Table

/-- `NewMemoStore` starts with an empty map at generation zero. -/
def empty : Table := ⟨fun _ => none, 0⟩

/-- `memoStore.forget`. -/
def forget (m : Table) (key : Key) : Table where
  items := update m.items key none
  generation := m.generation + 1

/-- The critical section of `DeleteMany`: one generation for all keys. -/
def forgetMany (m : Table) (keys : List Key) : Table where
  items := keys.foldl (fun items key => update items key none) m.items
  generation := m.generation + 1

/-- The critical section of `Flush`. -/
def forgetAll (m : Table) : Table where
  items := fun _ => none
  generation := m.generation + 1

/-- The critical section that ends a read: publish unless the generation moved. -/
def publish (m : Table) (key : Key) (content : Option Bytes) (generation : UInt64) : Table :=
  if m.generation = generation then
    { m with items := update m.items key (some content) }
  else m

/-- The invalidation that goes with a mutation. -/
def invalidate (m : Table) : Op → Table
  | .get _ => m
  | .set key _ _ => m.forget key
  | .add key _ _ => m.forget key
  | .increment key _ _ => m.forget key
  | .decrement key _ _ => m.forget key
  | .delete key => m.forget key
  | .deleteMany keys => m.forgetMany keys
  | .flush => m.forgetAll
  | .lockAcquire key _ _ => m.forget key
  | .lockRelease key _ => m.forget key

/-- Forgetting many keys forgets exactly the listed ones. -/
theorem forgetMany_items (m : Table) (keys : List Key) (key : Key) :
    (m.forgetMany keys).items key = if keys.contains key then none else m.items key := by
  unfold forgetMany
  generalize m.items = items
  induction keys generalizing items with
  | nil => rfl
  | cons k keys ih =>
    have hfold := ih (update items k none)
    rw [List.foldl_cons, hfold, List.contains_cons]
    by_cases hk : key = k
    · subst hk
      simp
    · simp [hk]

/-- The invalidation of a mutation forgets exactly the keys the call touches. -/
theorem invalidate_items (m : Table) {op : Op} (hop : ∀ key, op ≠ .get key) (key : Key) :
    (m.invalidate op).items key = if op.touches key then none else m.items key := by
  have hforget : ∀ k, (m.forget k).items key = if [k].contains key then none else m.items key := by
    intro k
    by_cases hk : key = k
    · subst hk
      simp [forget]
    · simp [forget, hk]
  cases op with
  | get k => exact absurd rfl (hop k)
  | deleteMany keys => exact forgetMany_items m keys key
  | flush => rfl
  | set k _ _ | add k _ _ | increment k _ _ | decrement k _ _ | delete k | lockAcquire k _ _
  | lockRelease k _ => exact hforget k

/-- Every invalidation advances the generation by one. -/
theorem invalidate_generation (m : Table) {op : Op} (hop : ∀ key, op ≠ .get key) :
    (m.invalidate op).generation = m.generation + 1 := by
  cases op with
  | get k => exact absurd rfl (hop k)
  | _ => rfl

end Table

/-! ## Backends -/

/-- A store with atomic calls that keeps to the contract.  `isLockStore` tells
whether it has the lock capability. -/
structure Backend (σ : Type) where
  content : σ → Key → Option Bytes
  exec : σ → Op → σ × Res
  isLockStore : Bool
  get_value : ∀ s key, (exec s (.get key)).2 = .value (content s key) ∨
    ∃ err, (exec s (.get key)).2 = .error err
  frame : ∀ s op key, op.touches key = false → content (exec s op).1 key = content s key
  unapplied : ∀ s op, (exec s op).2.applied = false → content (exec s op).1 = content s

/-- The backend call of a mutation.  Without the lock capability `LockAcquire`
falls back to `Add`, and `LockRelease` to `Delete`, which it reports as
released. -/
def Backend.perform {σ : Type} (B : Backend σ) (s : σ) (op : Op) : σ × Res :=
  match B.isLockStore, op with
  | false, .lockAcquire key owner ttl => B.exec s (.add key owner ttl)
  | false, .lockRelease key _ =>
    match B.exec s (.delete key) with
    | (s', .error err) => (s', .error err)
    | (s', _) => (s', .flag true)
  | _, op => B.exec s op

/-! ## Calls and steps -/

/-- Program counter of one call.  `began` is the number of invalidations before
the snapshot of a read; the code sees its low 64 bits only. -/
inductive Call where
  | idle
  | started (op : Op)
  /-- A read that missed the memo, with its generation snapshot. -/
  | reading (key : Key) (generation : UInt64) (began : Nat)
  /-- A read that has the backend's answer and is about to publish it. -/
  | fetched (key : Key) (generation : UInt64) (began : Nat) (content : Option Bytes)
  /-- A mutation that took effect and has not run its invalidation. -/
  | applied (op : Op) (res : Res)
  | done (op : Op) (res : Res)
deriving DecidableEq, Repr

/-- One memo store with its backend and one call per identifier in `ι`.  The
last four fields are the history: how many invalidations ran, how many mutations took
effect, the content after each, and the call that made each. -/
structure State (σ ι : Type) where
  backend : σ
  table : Table
  calls : ι → Call
  bumps : Nat
  version : Nat
  snapshot : Nat → Key → Option Bytes
  writer : Nat → Option (ι × Op)

/-- The steps of the calls. -/
inductive Event (ι : Type) where
  | start (c : ι) (op : Op)
  | probe (c : ι)
  | call (c : ι)
  | finish (c : ι)

variable {σ ι : Type} [DecidableEq ι]

/-- Move one call to a new program counter. -/
def State.put (s : State σ ι) (c : ι) (pc : Call) : State σ ι :=
  { s with calls := update s.calls c pc }

/-- A mutation takes effect in the backend. -/
def State.commit (B : Backend σ) (s : State σ ι) (c : ι) (op : Op) (backend : σ) (res : Res) :
    State σ ι :=
  { s with
    backend := backend
    calls := update s.calls c (.applied op res)
    version := s.version + 1
    snapshot := update s.snapshot (s.version + 1) (B.content backend)
    writer := update s.writer (s.version + 1) (some (c, op)) }

/-- One step of one call. -/
def step (B : Backend σ) (s : State σ ι) : Event ι → Option (State σ ι)
  | .start c op =>
    match s.calls c with
    | .idle => some (s.put c (.started op))
    | _ => none
  | .probe c =>
    match s.calls c with
    | .started (.get key) =>
      match s.table.items key with
      | some content => some (s.put c (.done (.get key) (.value content)))
      | none => some (s.put c (.reading key s.table.generation s.bumps))
    | _ => none
  | .call c =>
    match s.calls c with
    | .reading key generation began =>
      let r := B.exec s.backend (.get key)
      match r.2 with
      | .value content =>
        some ({ s with backend := r.1 }.put c (.fetched key generation began content))
      | res => some ({ s with backend := r.1 }.put c (.done (.get key) res))
    | .started (.get _) => none
    | .started op =>
      let r := B.perform s.backend op
      if r.2.applied then some (s.commit B c op r.1 r.2)
      else some ({ s with backend := r.1 }.put c (.done op r.2))
    | _ => none
  | .finish c =>
    match s.calls c with
    | .fetched key generation _ content =>
      some ({ s with table := s.table.publish key content generation }.put c
        (.done (.get key) (.value content)))
    | .applied op res =>
      some ({ s with table := s.table.invalidate op, bumps := s.bumps + 1 }.put c
        (.done op res))
    | _ => none

/-- A new memo store over any backend. -/
structure State.Initial (B : Backend σ) (s : State σ ι) : Prop where
  table : s.table = Table.empty
  calls : ∀ c, s.calls c = .idle
  bumps : s.bumps = 0
  version : s.version = 0
  snapshot : s.snapshot 0 = B.content s.backend

end Memo
end GoforjCache
