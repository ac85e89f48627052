import GoforjCache.Core.Types
import GoforjCache.Foundation.Lifecycle
import GoforjCache.Foundation.Transition

/-!
# Locks - The direct-lock lifecycle of one Cache

The map `cacheDirectLocks` of one `Cache` (shared by all its
`WithContext` clones) and the calls `TryLock`, `Lock` and
`Unlock` that run against it.  Every critical section of the map is one
step, as are the start and the end of every backend call; the backend may
answer anything.

Main results:

- Theorem `step_effect`: what a step can do, as one of seven effects.
- Theorem `inv_step`: per key, the map and the calls represent one abstract
  lifecycle of `Foundation.Lifecycle`, and every step advances it or leaves
  it alone.
- Theorem `direct_lock_lifecycle`: exclusion of backend calls, balance of
  acquisitions and closed lifecycles, no leaked reservation, and the frame of
  failing calls, in every reachable state.
-/

namespace GoforjCache
namespace Lock
namespace Direct

open Function Foundation Foundation.Transition

/-! ## The map cacheDirectLocks -/

/-- `cacheDirectLockStatus`. -/
inductive Status where
  | acquiring
  | held
  | releasing
deriving DecidableEq, Repr

/-- The field `locks` of `cacheDirectLocks`. -/
abbrev Locks := Key → Option Status

/-- `beginAcquire` reserves a key that has no entry. -/
def beginAcquire (l : Locks) (key : Key) : Bool × Locks :=
  match l key with
  | some _ => (false, l)
  | none => (true, update l key (some .acquiring))

/-- `finishAcquire` retains a successful acquisition and deletes a failed
reservation, whatever the entry is. -/
def finishAcquire (l : Locks) (key : Key) (acquired : Bool) : Locks :=
  if acquired then update l key (some .held)
  else update l key none

/-- `beginRelease` takes a held entry for release. -/
def beginRelease (l : Locks) (key : Key) : Bool × Locks :=
  if l key ≠ some .held then (false, l)
  else (true, update l key (some .releasing))

/-- `finishRelease` forgets a released entry and restores a failed one. -/
def finishRelease (l : Locks) (key : Key) (succeeded : Bool) : Locks :=
  if succeeded then update l key none
  else update l key (some .held)

/-! ## Calls in flight -/

/-- The two results of a backend lock call. -/
structure Answer where
  ok : Bool
  err : Option CacheError
deriving DecidableEq, Repr

/-- The condition `err == nil && locked` of the source. -/
def Answer.succeeded (a : Answer) : Bool := a.err.isNone && a.ok

/-- Which public method owns a reservation. -/
inductive Method where
  | tryLock
  | lock
deriving DecidableEq, Repr

/-- What a finished call returned. -/
inductive Result where
  | acquire (key : Key) (locked : Bool) (err : Option CacheError)
  | unlock (key : Key) (err : Option CacheError)
deriving DecidableEq, Repr

/-- Program counter of one call, with the locals that are still needed. -/
inductive Call where
  | idle
  /-- `Lock` is about to call `beginAcquire`. -/
  | gate (key : Key) (ttl : Duration)
  /-- `Lock` was refused locally and waits for its timer or its context. -/
  | gateWait (key : Key) (ttl : Duration)
  /-- The entry is reserved and `tryLockOwned` is about to run. -/
  | reserved (m : Method) (key : Key) (ttl : Duration)
  /-- `LockAcquire` is running in the backend. -/
  | attempting (m : Method) (key : Key) (ttl : Duration)
  /-- `tryLockOwned` has returned. -/
  | attempted (m : Method) (key : Key) (ttl : Duration) (answer : Answer)
  /-- `Lock` met contention and waits for its timer or its context. -/
  | retryWait (key : Key) (ttl : Duration)
  /-- The entry is taken for release and `LockRelease` is about to start. -/
  | closing (key : Key)
  /-- `LockRelease` is running in the backend. -/
  | unlocking (key : Key)
  /-- `unlockOwned` has returned. -/
  | unlocked (key : Key) (err : Option CacheError)
  | done (result : Result)
deriving DecidableEq, Repr

/-- The share of the lifecycle of a key that a call has in its hands. -/
inductive Claim where
  | none
  | reserving (key : Key)
  | releasing (key : Key)
deriving DecidableEq

namespace Call

/-- The claim that goes with a program counter. -/
def claim : Call → Claim
  | reserved _ key _ => .reserving key
  | attempting _ key _ => .reserving key
  | attempted _ key _ _ => .reserving key
  | retryWait key _ => .reserving key
  | closing key => .releasing key
  | unlocking key => .releasing key
  | unlocked key _ => .releasing key
  | _ => .none

/-- The key a call in flight is about. -/
def inFlight : Call → Option Key
  | gate key _ => some key
  | gateWait key _ => some key
  | reserved _ key _ => some key
  | attempting _ key _ => some key
  | attempted _ key _ _ => some key
  | retryWait key _ => some key
  | closing key => some key
  | unlocking key => some key
  | unlocked key _ => some key
  | _ => none

/-- The key of the backend call that has started and not ended. -/
def inBackend : Call → Option Key
  | attempting _ key _ => some key
  | unlocking key => some key
  | _ => none

/-- A slot can start a new call when it never ran one or its last one returned. -/
def ready : Call → Bool
  | idle => true
  | done _ => true
  | _ => false

@[simp]
theorem claim_done (r : Result) : (done r).claim = .none := rfl

variable {c : Call} {key : Key}

theorem claim_of_ready (h : c.ready = true) : c.claim = .none := by
  cases c <;> simp_all [ready, claim]

/-- A claim is on the key of the call in flight. -/
theorem inFlight_of_reserving (h : c.claim = .reserving key) : c.inFlight = some key := by
  cases c <;> simp_all [claim, inFlight]

/-- A claim is on the key of the call in flight. -/
theorem inFlight_of_releasing (h : c.claim = .releasing key) : c.inFlight = some key := by
  cases c <;> simp_all [claim, inFlight]

/-- A call inside the backend has a claim on the key. -/
theorem claim_of_inBackend (h : c.inBackend = some key) :
    c.claim = .reserving key ∨ c.claim = .releasing key := by
  cases c <;> simp_all [claim, inBackend]

end Call

/-! ## States and steps -/

variable {τ : Type*} [DecidableEq τ]

/-- One Cache: the lock map, one call per slot, and per key the number of
acquisitions that returned `(true, nil)` and of `Unlock` calls that
closed a lifecycle.  A slot runs one call after the other, so any number of
concurrent calls is any number of slots. -/
structure State (τ : Type*) where
  locks : Locks
  calls : τ → Call
  acquired : Key → Nat
  closed : Key → Nat

/-- A new Cache. -/
def State.initial : State τ where
  locks := fun _ => none
  calls := fun _ => .idle
  acquired := fun _ => 0
  closed := fun _ => 0

/-- Move one slot to a new program counter. -/
def State.put (s : State τ) (t : τ) (c : Call) : State τ := { s with calls := update s.calls t c }

/-- What is fixed when the Cache is built: whether `lockOwnerToken` fails. -/
structure Config where
  ownerErr : Option CacheError

/-- The steps of the slots.  `acquireAnswer` and `releaseAnswer` carry
what the backend answers. -/
inductive Event (τ : Type*) where
  | tryLock (t : τ) (key : Key) (ttl : Duration)
  | lock (t : τ) (key : Key) (ttl : Duration)
  | gate (t : τ)
  | gateTimer (t : τ)
  | gateDone (t : τ)
  | attempt (t : τ)
  | acquireAnswer (t : τ) (answer : Answer)
  | settle (t : τ)
  | retryTimer (t : τ)
  | retryDone (t : τ)
  | unlock (t : τ) (key : Key)
  | release (t : τ)
  | releaseAnswer (t : τ) (answer : Answer)
  | finish (t : τ)

/-- The slot that takes a step. -/
def Event.slot : Event τ → τ
  | tryLock t _ _ | lock t _ _ | gate t | gateTimer t | gateDone t | attempt t
  | acquireAnswer t _ | settle t | retryTimer t | retryDone t | unlock t _
  | release t | releaseAnswer t _ | finish t => t

/-- `finishAcquire` followed by the return of the acquiring call. -/
def State.endAcquire (s : State τ) (t : τ) (key : Key) (locked : Bool)
    (err : Option CacheError) : State τ :=
  let acquired := Answer.succeeded ⟨locked, err⟩
  { s with
    locks := finishAcquire s.locks key acquired
    calls := update s.calls t (.done (.acquire key locked err))
    acquired := if acquired then update s.acquired key (s.acquired key + 1)
      else s.acquired }

/-- `finishRelease` followed by the return of `Unlock`. -/
def State.endRelease (s : State τ) (t : τ) (key : Key) (err : Option CacheError) : State τ :=
  { s with
    locks := finishRelease s.locks key err.isNone
    calls := update s.calls t (.done (.unlock key err))
    closed := if err.isNone then update s.closed key (s.closed key + 1)
      else s.closed }

@[simp]
theorem State.put_calls (s : State τ) (t : τ) (c : Call) : (s.put t c).calls t = c :=
  update_self _ _ _

@[simp]
theorem State.endAcquire_calls (s : State τ) (t : τ) (key : Key) (locked : Bool)
    (err : Option CacheError) :
    (s.endAcquire t key locked err).calls t = .done (.acquire key locked err) :=
  update_self _ _ _

@[simp]
theorem State.endRelease_calls (s : State τ) (t : τ) (key : Key) (err : Option CacheError) :
    (s.endRelease t key err).calls t = .done (.unlock key err) :=
  update_self _ _ _

/-- One step of one slot, from `Cache.tryLock`, `Cache.lock`,
`lockOwnedSince` and `Cache.unlock`. -/
def step (cfg : Config) (s : State τ) : Event τ → Option (State τ)
  | .tryLock t key ttl =>
    if (s.calls t).ready then
      match cfg.ownerErr with
      | some err => some (s.put t (.done (.acquire key false (some err))))
      | none =>
        match beginAcquire s.locks key with
        | (true, locks) => some ({ s with locks := locks }.put t (.reserved .tryLock key ttl))
        | (false, _) => some (s.put t (.done (.acquire key false none)))
    else none
  | .lock t key ttl =>
    if (s.calls t).ready then
      match cfg.ownerErr with
      | some err => some (s.put t (.done (.acquire key false (some err))))
      | none => some (s.put t (.gate key ttl))
    else none
  | .gate t =>
    match s.calls t with
    | .gate key ttl =>
      match beginAcquire s.locks key with
      | (true, locks) => some ({ s with locks := locks }.put t (.reserved .lock key ttl))
      | (false, _) => some (s.put t (.gateWait key ttl))
    | _ => none
  | .gateTimer t =>
    match s.calls t with
    | .gateWait key ttl => some (s.put t (.gate key ttl))
    | _ => none
  | .gateDone t =>
    match s.calls t with
    | .gateWait key _ => some (s.put t (.done (.acquire key false (some .contextDone))))
    | _ => none
  | .attempt t =>
    match s.calls t with
    | .reserved m key ttl =>
      -- tryLockOwned refuses the ttl before it reaches the backend
      if ttl ≤ 0 then some (s.put t (.attempted m key ttl ⟨false, some .tryLockTTL⟩))
      else some (s.put t (.attempting m key ttl))
    | _ => none
  | .acquireAnswer t answer =>
    match s.calls t with
    | .attempting m key ttl => some (s.put t (.attempted m key ttl answer))
    | _ => none
  | .settle t =>
    match s.calls t with
    | .attempted .tryLock key _ answer => some (s.endAcquire t key answer.ok answer.err)
    | .attempted .lock key ttl answer =>
      match answer.err with
      | some err => some (s.endAcquire t key false (some err))
      | none =>
        if answer.ok then some (s.endAcquire t key true none)
        else some (s.put t (.retryWait key ttl))
    | _ => none
  | .retryTimer t =>
    match s.calls t with
    | .retryWait key ttl => some (s.put t (.reserved .lock key ttl))
    | _ => none
  | .retryDone t =>
    match s.calls t with
    | .retryWait key _ => some (s.endAcquire t key false (some .contextDone))
    | _ => none
  | .unlock t key =>
    if (s.calls t).ready then
      match beginRelease s.locks key with
      | (true, locks) => some ({ s with locks := locks }.put t (.closing key))
      | (false, _) => some (s.put t (.done (.unlock key none)))
    else none
  | .release t =>
    match s.calls t with
    | .closing key =>
      match cfg.ownerErr with
      | some err => some (s.put t (.unlocked key (some err)))
      | none => some (s.put t (.unlocking key))
    | _ => none
  | .releaseAnswer t answer =>
    match s.calls t with
    | .unlocking key => some (s.put t (.unlocked key answer.err))
    | _ => none
  | .finish t =>
    match s.calls t with
    | .unlocked key err => some (s.endRelease t key err)
    | _ => none

/-! ## What a step can do -/

@[simp]
theorem succeeded_false (err : Option CacheError) : Answer.succeeded ⟨false, err⟩ = false := by
  simp [Answer.succeeded]

/-- A return that leaves the lock map alone: a refused acquisition, or an
`Unlock` without a lifecycle to close. -/
@[simp]
def Result.refused : Result → Bool
  | acquire _ locked err => !(Answer.succeeded ⟨locked, err⟩)
  | unlock _ err => err.isNone

/-- The effects a step of slot `t` can have.  Only the first leaves the lock
map alone; each of the others is one move of the abstract lifecycle. -/
inductive Effect (s : State τ) (t : τ) : State τ → Prop where
  | quiet (c : Call) (hclaim : c.claim = (s.calls t).claim)
      (hret : ∀ r, c = .done r → r.refused = true) : Effect s t (s.put t c)
  | reserve (key : Key) (c : Call) (hfree : s.locks key = none)
      (hidle : (s.calls t).claim = .none) (hclaim : c.claim = .reserving key) :
      Effect s t
        { s with
          locks := update s.locks key (some .acquiring)
          calls := update s.calls t c }
  | grant (key : Key) (hown : (s.calls t).claim = .reserving key) :
      Effect s t
        { s with
          locks := update s.locks key (some .held)
          calls := update s.calls t (.done (.acquire key true none))
          acquired := update s.acquired key (s.acquired key + 1) }
  | abandon (key : Key) (locked : Bool) (err : Option CacheError)
      (hown : (s.calls t).claim = .reserving key)
      (hfail : Answer.succeeded ⟨locked, err⟩ = false) :
      Effect s t
        { s with
          locks := update s.locks key none
          calls := update s.calls t (.done (.acquire key locked err)) }
  | beginRelease (key : Key) (c : Call) (hheld : s.locks key = some .held)
      (hidle : (s.calls t).claim = .none) (hclaim : c.claim = .releasing key) :
      Effect s t
        { s with
          locks := update s.locks key (some .releasing)
          calls := update s.calls t c }
  | close (key : Key) (hown : (s.calls t).claim = .releasing key) :
      Effect s t
        { s with
          locks := update s.locks key none
          calls := update s.calls t (.done (.unlock key none))
          closed := update s.closed key (s.closed key + 1) }
  | restore (key : Key) (err : CacheError) (hown : (s.calls t).claim = .releasing key) :
      Effect s t
        { s with
          locks := update s.locks key (some .held)
          calls := update s.calls t (.done (.unlock key (some err))) }

variable {s s' : State τ} {t : τ} {key : Key} {cfg : Config} {L : Lifecycle τ}

/-- A step moves the call of its own slot only. -/
theorem Effect.calls_of_ne {u : τ} (h : Effect s t s') (hu : u ≠ t) : s'.calls u = s.calls u := by
  cases h <;> exact update_of_ne hu _ _

/-- Only `(true, nil)` counts as a successful acquisition. -/
theorem succeeded_eq_true_iff (locked : Bool) (err : Option CacheError) :
    Answer.succeeded ⟨locked, err⟩ = true ↔ locked = true ∧ err = none := by
  cases err <;> simp [Answer.succeeded]

/-- Ending an acquisition grants or abandons the reservation of the call. -/
theorem endAcquire_effect (locked : Bool) (err : Option CacheError)
    (hown : (s.calls t).claim = .reserving key) : Effect s t (s.endAcquire t key locked err) := by
  cases hacq : Answer.succeeded ⟨locked, err⟩ with
  | true =>
    obtain ⟨rfl, rfl⟩ := (succeeded_eq_true_iff locked err).mp hacq
    exact Effect.grant key hown
  | false =>
    simpa [State.endAcquire, finishAcquire, hacq] using
      Effect.abandon key locked err hown hacq

/-- Ending a release closes or restores the lifecycle the call has in hand. -/
theorem endRelease_effect (err : Option CacheError) (hown : (s.calls t).claim = .releasing key) :
    Effect s t (s.endRelease t key err) := by
  cases err with
  | none => exact Effect.close key hown
  | some err => exact Effect.restore key err hown

/-- Entering `beginAcquire` either reserves the key or leaves the map alone. -/
theorem beginAcquire_effect {c₁ c₂ : Call} (hidle : (s.calls t).claim = .none)
    (h₁ : c₁.claim = .reserving key) (h₂ : c₂.claim = .none)
    (hret : ∀ r, c₂ = .done r → r.refused = true) (h : (match beginAcquire s.locks key with
      | (true, locks) => some ({ s with locks := locks }.put t c₁)
      | (false, _) => some (s.put t c₂)) = some s') : Effect s t s' := by
  cases hkey : s.locks key with
  | none =>
    simp only [beginAcquire, hkey, Option.some.injEq] at h
    subst h
    exact Effect.reserve key c₁ hkey hidle h₁
  | some status =>
    simp only [beginAcquire, hkey, Option.some.injEq] at h
    subst h
    exact Effect.quiet c₂ (h₂.trans hidle.symm) hret

/-- Entering `beginRelease` either takes the held key or leaves the map alone. -/
theorem beginRelease_effect {c₁ c₂ : Call} (hidle : (s.calls t).claim = .none)
    (h₁ : c₁.claim = .releasing key) (h₂ : c₂.claim = .none)
    (hret : ∀ r, c₂ = .done r → r.refused = true) (h : (match beginRelease s.locks key with
      | (true, locks) => some ({ s with locks := locks }.put t c₁)
      | (false, _) => some (s.put t c₂)) = some s') : Effect s t s' := by
  by_cases hkey : s.locks key = some .held
  · simp only [beginRelease, hkey, ne_eq, not_true_eq_false, if_false,
      Option.some.injEq] at h
    subst h
    exact Effect.beginRelease key c₁ hkey hidle h₁
  · simp only [beginRelease, ne_eq, hkey, not_false_eq_true, if_true,
      Option.some.injEq] at h
    subst h
    exact Effect.quiet c₂ (h₂.trans hidle.symm) hret

/-- Every step has one of the seven effects on the slot that takes it. -/
theorem step_effect {e : Event τ} (h : step cfg s e = some s') : Effect s e.slot s' := by
  cases e with
  | tryLock t key ttl =>
    simp only [step, Option.ite_none_right_eq_some] at h
    obtain ⟨hready, h⟩ := h
    have hidle := Call.claim_of_ready hready
    cases howner : cfg.ownerErr with
    | some err =>
      simp only [howner, Option.some.injEq] at h
      subst h
      exact Effect.quiet _ hidle.symm (by simp)
    | none =>
      simp only [howner] at h
      exact beginAcquire_effect hidle rfl rfl (by simp) h
  | lock t key ttl =>
    simp only [step, Option.ite_none_right_eq_some] at h
    obtain ⟨hready, h⟩ := h
    have hidle := Call.claim_of_ready hready
    cases howner : cfg.ownerErr <;> simp only [howner, Option.some.injEq] at h <;>
      subst h <;> exact Effect.quiet _ hidle.symm (by simp)
  | gate t =>
    simp only [step] at h
    split at h
    · rename_i key ttl hc
      exact beginAcquire_effect (congrArg Call.claim hc) rfl rfl (by simp) h
    · contradiction
  | attempt t =>
    simp only [step] at h
    split at h
    · rename_i m key ttl hc
      split at h <;> cases h <;> exact Effect.quiet _ (congrArg Call.claim hc).symm (by simp)
    · contradiction
  | settle t =>
    simp only [step] at h
    split at h
    · rename_i key ttl answer hc
      cases h
      exact endAcquire_effect _ _ (congrArg Call.claim hc)
    · rename_i key ttl answer hc
      split at h
      · cases h
        exact endAcquire_effect _ _ (congrArg Call.claim hc)
      · split at h <;> cases h
        · exact endAcquire_effect _ _ (congrArg Call.claim hc)
        · exact Effect.quiet _ (congrArg Call.claim hc).symm (by simp)
    · contradiction
  | retryDone t =>
    simp only [step] at h
    split at h
    · rename_i key ttl hc
      cases h
      exact endAcquire_effect _ _ (congrArg Call.claim hc)
    · contradiction
  | unlock t key =>
    simp only [step, Option.ite_none_right_eq_some] at h
    obtain ⟨hready, h⟩ := h
    exact beginRelease_effect (Call.claim_of_ready hready) rfl rfl (by simp) h
  | release t =>
    simp only [step] at h
    split at h
    · rename_i key hc
      split at h <;> cases h <;> exact Effect.quiet _ (congrArg Call.claim hc).symm (by simp)
    · contradiction
  | finish t =>
    simp only [step] at h
    split at h
    · rename_i key err hc
      cases h
      exact endRelease_effect _ (congrArg Call.claim hc)
    · contradiction
  | gateTimer t | gateDone t | acquireAnswer t answer | retryTimer t | releaseAnswer t answer =>
    simp only [step] at h
    split at h
    · rename_i hc
      cases h
      exact Effect.quiet _ (congrArg Call.claim hc).symm (by simp)
    · contradiction

/-! ## Refinement of the abstract lifecycle -/

/-- The map entry that stands for a phase. -/
def statusOf : Phase τ → Option Status
  | .free => none
  | .acquiring _ => some .acquiring
  | .held => some .held
  | .releasing _ => some .releasing

/-- The state represents the lifecycle `L` of a key: the entry shows its
phase, the slot in charge is the one slot with a claim, and the counters are its
history. -/
structure Represents (L : Lifecycle τ) (s : State τ) (key : Key) : Prop where
  status : s.locks key = statusOf L.phase
  reserving : ∀ t, (s.calls t).claim = .reserving key ↔ L.phase = .acquiring t
  releasing : ∀ t, (s.calls t).claim = .releasing key ↔ L.phase = .releasing t
  granted : s.acquired key = L.granted
  closed : s.closed key = L.closed

omit [DecidableEq τ] in
/-- The claims on a key are with the slot in charge of its lifecycle. -/
theorem Represents.inCharge (h : Represents L s key) :
    Lifecycle.InCharge (·.claim = .reserving key) (·.claim = .releasing key) L.phase s.calls :=
  ⟨h.reserving, h.releasing⟩

/-- A step that neither touches the key nor changes a claim on it keeps the
represented lifecycle. -/
theorem Represents.frame {c : Call} (h : Represents L s key)
    (hcalls : s'.calls = update s.calls t c) (hlocks : s'.locks key = s.locks key)
    (hacq : s'.acquired key = s.acquired key) (hclosed : s'.closed key = s.closed key)
    (hres : c.claim = .reserving key ↔ (s.calls t).claim = .reserving key)
    (hrel : c.claim = .releasing key ↔ (s.calls t).claim = .releasing key) :
    Represents L s' key := by
  have hcharge := h.inCharge.frame hres hrel
  rw [← hcalls] at hcharge
  exact ⟨hlocks.trans h.status, hcharge.reserving, hcharge.releasing,
    hacq.trans h.granted, hclosed.trans h.closed⟩

/-- A step that makes a move on the key represents the moved lifecycle. -/
theorem Represents.advance {L' : Lifecycle τ} {c : Call} {m : Move} (h : Represents L s key)
    (hadv : L.Advance t m L') (hcalls : s'.calls = update s.calls t c)
    (hlocks : s'.locks key = statusOf L'.phase)
    (hres : c.claim = .reserving key ↔ L'.phase = .acquiring t)
    (hrel : c.claim = .releasing key ↔ L'.phase = .releasing t)
    (hacq : s'.acquired key = L'.granted) (hclosed : s'.closed key = L'.closed) :
    Represents L' s' key := by
  have hcharge := h.inCharge.advance hadv hres hrel
  rw [← hcalls] at hcharge
  exact ⟨hlocks, hcharge.reserving, hcharge.releasing, hacq, hclosed⟩

/-- Every effect advances the lifecycle of its own key by the move of the same
name and leaves the lifecycle of every other key alone. -/
theorem effect_simulates (h : Effect s t s') (key : Key) (hL : Represents L s key) :
    ∃ L', Represents L' s' key ∧ (L' = L ∨ ∃ m, L.Advance t m L') := by
  obtain ⟨phase, g, n⟩ := L
  have hstatus := hL.status
  have hres := hL.reserving t
  have hrel := hL.releasing t
  have hg := hL.granted
  have hn := hL.closed
  cases h with
  | quiet c hclaim hret =>
    exact ⟨_, hL.frame rfl rfl rfl rfl (by rw [hclaim]) (by rw [hclaim]), Or.inl rfl⟩
  | reserve k c hfree hidle hclaim =>
    by_cases hk : key = k
    · subst hk
      cases phase <;> simp_all [statusOf]
      exact ⟨_, hL.advance (.reserve _ _) rfl (by simp [statusOf]) (by simp [hclaim])
        (by simp [hclaim]) hg hn, Or.inr ⟨_, .reserve _ _⟩⟩
    · exact ⟨_, hL.frame rfl (update_of_ne hk _ _) rfl rfl
        (by simp [hclaim, hidle, Ne.symm hk]) (by simp [hclaim, hidle]), Or.inl rfl⟩
  | grant k hown =>
    by_cases hk : key = k
    · subst hk
      simp only [hown, true_iff] at hres
      subst hres
      exact ⟨_, hL.advance (.grant _ _) rfl (by simp [statusOf]) (by simp)
        (by simp) (by simp [hg]) hn, Or.inr ⟨_, .grant _ _⟩⟩
    · exact ⟨_, hL.frame rfl (update_of_ne hk _ _) (update_of_ne hk _ _) rfl
        (by simp [hown, Ne.symm hk]) (by simp [hown]), Or.inl rfl⟩
  | abandon k locked err hown hfail =>
    by_cases hk : key = k
    · subst hk
      simp only [hown, true_iff] at hres
      subst hres
      exact ⟨_, hL.advance (.abandon _ _) rfl (by simp [statusOf]) (by simp)
        (by simp) hg hn, Or.inr ⟨_, .abandon _ _⟩⟩
    · exact ⟨_, hL.frame rfl (update_of_ne hk _ _) rfl rfl
        (by simp [hown, Ne.symm hk]) (by simp [hown]), Or.inl rfl⟩
  | beginRelease k c hheld hidle hclaim =>
    by_cases hk : key = k
    · subst hk
      cases phase <;> simp_all [statusOf]
      exact ⟨_, hL.advance (.beginRelease _ _) rfl (by simp [statusOf]) (by simp [hclaim])
        (by simp [hclaim]) hg hn, Or.inr ⟨_, .beginRelease _ _⟩⟩
    · exact ⟨_, hL.frame rfl (update_of_ne hk _ _) rfl rfl
        (by simp [hclaim, hidle]) (by simp [hclaim, hidle, Ne.symm hk]), Or.inl rfl⟩
  | close k hown =>
    by_cases hk : key = k
    · subst hk
      simp only [hown, true_iff] at hrel
      subst hrel
      exact ⟨_, hL.advance (.close _ _) rfl (by simp [statusOf]) (by simp)
        (by simp) hg (by simp [hn]), Or.inr ⟨_, .close _ _⟩⟩
    · exact ⟨_, hL.frame rfl (update_of_ne hk _ _) rfl (update_of_ne hk _ _)
        (by simp [hown]) (by simp [hown, Ne.symm hk]), Or.inl rfl⟩
  | restore k err hown =>
    by_cases hk : key = k
    · subst hk
      simp only [hown, true_iff] at hrel
      subst hrel
      exact ⟨_, hL.advance (.restore _ _) rfl (by simp [statusOf]) (by simp)
        (by simp) hg hn, Or.inr ⟨_, .restore _ _⟩⟩
    · exact ⟨_, hL.frame rfl (update_of_ne hk _ _) rfl rfl
        (by simp [hown]) (by simp [hown, Ne.symm hk]), Or.inl rfl⟩

/-- The invariant: every key has a balanced lifecycle that the state represents. -/
def Inv (s : State τ) : Prop := ∀ key, ∃ L : Lifecycle τ, L.Balanced ∧ Represents L s key

omit [DecidableEq τ] in
/-- A new Cache satisfies the invariant. -/
theorem inv_initial : Inv (State.initial : State τ) := by
  intro key
  refine ⟨Lifecycle.fresh, Lifecycle.fresh_balanced, ?_⟩
  constructor <;> simp [State.initial, Lifecycle.fresh, statusOf, Call.claim]

/-- Every step keeps the invariant. -/
theorem inv_step {e : Event τ} (hs : Inv s) (h : step cfg s e = some s') : Inv s' := by
  intro key
  obtain ⟨L, hbal, hL⟩ := hs key
  obtain ⟨L', hL', rfl | ⟨m, hadv⟩⟩ := effect_simulates (step_effect h) key hL
  · exact ⟨L', hbal, hL'⟩
  · exact ⟨L', Lifecycle.advance_balanced hadv hbal, hL'⟩

/-! ## Consequences of the invariant -/

section

omit [DecidableEq τ]

/-- At most one slot has a claim on a key. -/
theorem Inv.claim_unique (hs : Inv s) {u : τ}
    (ht : (s.calls t).claim = .reserving key ∨ (s.calls t).claim = .releasing key)
    (hu : (s.calls u).claim = .reserving key ∨ (s.calls u).claim = .releasing key) : t = u := by
  obtain ⟨L, -, hL⟩ := hs key
  exact hL.inCharge.unique ht hu

/-- A reservation is visible in the map. -/
theorem Inv.locks_of_reserving (hs : Inv s) (ht : (s.calls t).claim = .reserving key) :
    s.locks key = some .acquiring := by
  obtain ⟨L, -, hL⟩ := hs key
  rw [hL.status, (hL.reserving t).mp ht, statusOf]

/-- A release in progress is visible in the map. -/
theorem Inv.locks_of_releasing (hs : Inv s) (ht : (s.calls t).claim = .releasing key) :
    s.locks key = some .releasing := by
  obtain ⟨L, -, hL⟩ := hs key
  rw [hL.status, (hL.releasing t).mp ht, statusOf]

/-- The open lifecycles of a key are counted by its acquisitions. -/
theorem Inv.balance (hs : Inv s) (key : Key) :
    s.acquired key = s.closed key ∨ s.acquired key = s.closed key + 1 := by
  obtain ⟨⟨phase, g, n⟩, hbal, hL⟩ := hs key
  have hg := hL.granted
  have hn := hL.closed
  cases phase <;> simp_all [Lifecycle.Balanced, Phase.openCount]

/-- Without a call in flight an entry is absent or held, and it is held exactly
when one acquisition is not closed. -/
theorem Inv.settled (hs : Inv s) (hquiet : ∀ t, (s.calls t).inFlight ≠ some key) :
    (s.locks key = none ∨ s.locks key = some .held) ∧
      (s.locks key = some .held ↔ s.acquired key = s.closed key + 1) := by
  obtain ⟨⟨phase, g, n⟩, hbal, hL⟩ := hs key
  have hstatus := hL.status
  have hg := hL.granted
  have hn := hL.closed
  cases phase with
  | free => simp_all [statusOf, Lifecycle.Balanced, Phase.openCount]
  | held => simp_all [statusOf, Lifecycle.Balanced, Phase.openCount]
  | acquiring t =>
    exact absurd (Call.inFlight_of_reserving ((hL.reserving t).mpr rfl)) (hquiet t)
  | releasing t =>
    exact absurd (Call.inFlight_of_releasing ((hL.releasing t).mpr rfl)) (hquiet t)

end

/-! ## The lifecycle theorem -/

/-- Every reachable state of a Cache satisfies the invariant. -/
theorem inv_reachable (h : Reachable (· = State.initial) (step cfg) s) : Inv s := by
  refine reachable_invariant ?_ (fun s e t => inv_step) h
  rintro s rfl
  exact inv_initial

/-- A failing acquisition changes no entry but its own reservation. -/
theorem Inv.failed_acquire (hs : Inv s) (h : Effect s t s') {locked : Bool}
    {err : Option CacheError} (hdone : s'.calls t = .done (.acquire key locked err))
    (hfail : ¬(locked = true ∧ err = none)) {k : Key} (hk : s'.locks k ≠ s.locks k) :
    k = key ∧ s.locks k = some .acquiring ∧ s'.locks k = none ∧
      (s.calls t).claim = .reserving k ∧
      ∀ u, (s.calls u).claim = .reserving k → u = t := by
  cases h with
  | quiet c hclaim hret => exact absurd rfl hk
  | reserve k' c hfree hidle hclaim =>
    simp only [update_self] at hdone
    simp [hdone] at hclaim
  | grant k' hown =>
    simp only [update_self, Call.done.injEq, Result.acquire.injEq] at hdone
    exact absurd ⟨hdone.2.1.symm, hdone.2.2.symm⟩ hfail
  | abandon k' locked' err' hown hfail' =>
    simp only [update_self, Call.done.injEq, Result.acquire.injEq] at hdone
    have hkk : k = k' := by
      by_contra hne
      exact hk (update_of_ne hne _ _)
    subst hkk
    refine ⟨hdone.1, hs.locks_of_reserving hown, update_self _ _ _, hown, ?_⟩
    intro u hu
    exact hs.claim_unique (Or.inl hu) (Or.inl hown)
  | beginRelease k' c hheld hidle hclaim =>
    simp only [update_self] at hdone
    simp [hdone] at hclaim
  | close k' hown => simp at hdone
  | restore k' err' hown => simp at hdone

/-- An `Unlock` that returns an error leaves the entry held. -/
theorem failed_unlock (h : Effect s t s') {err : CacheError}
    (hdone : s'.calls t = .done (.unlock key (some err))) : s'.locks key = some .held := by
  cases h with
  | quiet c hclaim hret =>
    simp only [State.put, update_self] at hdone
    simpa using hret _ hdone
  | reserve k c hfree hidle hclaim =>
    simp only [update_self] at hdone
    simp [hdone] at hclaim
  | grant k hown => simp at hdone
  | abandon k locked err' hown hfail => simp at hdone
  | beginRelease k c hheld hidle hclaim =>
    simp only [update_self] at hdone
    simp [hdone] at hclaim
  | close k hown => simp at hdone
  | restore k err' hown =>
    simp only [update_self, Call.done.injEq, Result.unlock.injEq] at hdone
    simp [hdone.1]

/--
The direct-lock lifecycle of one Cache, in every state its calls can reach under
any interleaving and any backend answers:

- at most one call is inside the backend for a key;
- acquisitions minus closed lifecycles is zero or one;
- without a call in flight the entry of a key is absent or held, and held exactly
  when that difference is one;
- in the next step, a `TryLock` or `Lock` that returns `false` or an
  error removes at most the reservation it made itself, and an `Unlock` that
  returns an error leaves the entry held.
-/
theorem direct_lock_lifecycle {cfg : Config} {s : State τ}
    (h : Reachable (· = State.initial) (step cfg) s) :
    (∀ key t u, (s.calls t).inBackend = some key → (s.calls u).inBackend = some key → t = u) ∧
    (∀ key, s.acquired key = s.closed key ∨ s.acquired key = s.closed key + 1) ∧
    (∀ key, (∀ t, (s.calls t).inFlight ≠ some key) →
      (s.locks key = none ∨ s.locks key = some .held) ∧
        (s.locks key = some .held ↔ s.acquired key = s.closed key + 1)) ∧
    (∀ e s', step cfg s e = some s' →
      (∀ key locked err, s'.calls e.slot = .done (.acquire key locked err) →
        ¬(locked = true ∧ err = none) → ∀ k, s'.locks k ≠ s.locks k →
          k = key ∧ s.locks k = some .acquiring ∧ s'.locks k = none ∧
            (s.calls e.slot).claim = .reserving k ∧
            ∀ u, (s.calls u).claim = .reserving k → u = e.slot) ∧
      (∀ key err, s'.calls e.slot = .done (.unlock key (some err)) →
        s'.locks key = some .held)) := by
  have hs := inv_reachable h
  refine ⟨?_, hs.balance, fun key hquiet => hs.settled hquiet, ?_⟩
  · intro key t u ht hu
    exact hs.claim_unique (Call.claim_of_inBackend ht) (Call.claim_of_inBackend hu)
  · intro e s' hstep
    have heffect := step_effect hstep
    constructor
    · intro key locked err hdone hfail k hk
      exact hs.failed_acquire heffect hdone hfail hk
    · intro key err hdone
      exact failed_unlock heffect hdone

/-- Slot 0 takes the lock, slot 1 is refused, and slot 0 fails to unlock it. -/
def contendedRun : List (Event Nat) :=
  [.tryLock 0 (ascii "job") 10, .attempt 0, .tryLock 1 (ascii "job") 10,
    .acquireAnswer 0 ⟨true, none⟩, .settle 0, .unlock 0 (ascii "job"), .release 0,
    .releaseAnswer 0 ⟨false, some (.external 1)⟩, .finish 0]

/-- The lifecycle theorem at the end of a contended run whose `Unlock` fails:
the entry is held and one acquisition is open. -/
theorem direct_lock_lifecycle_contended :
    ∃ s, run (step ⟨none⟩) State.initial contendedRun = some s ∧
      s.calls 0 = .done (.unlock (ascii "job") (some (.external 1))) ∧
      s.calls 1 = .done (.acquire (ascii "job") false none) ∧
      s.locks (ascii "job") = some .held ∧
      (s.acquired (ascii "job") = s.closed (ascii "job") ∨
        s.acquired (ascii "job") = s.closed (ascii "job") + 1) := by
  refine ⟨_, rfl, by decide, by decide, by decide, ?_⟩
  exact (@direct_lock_lifecycle Nat _ ⟨none⟩ _ ⟨State.initial, contendedRun, rfl, rfl⟩).2.1 _

end Direct
end Lock
end GoforjCache
