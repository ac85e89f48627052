import GoforjCache.Lock.DirectLocks

/-!
# Locks - The operations of one LockHandle

A `LockHandle` (with all its `WithContext` clones) serializes its
operations by `operationMu` and remembers ownership in `held`.  The
mutex is kept over the backend calls of an acquisition, including every retry of
`Block`, and over those of a release, but not while the callback of
`Get` or `Block` runs.  The backend may answer anything.

Main results:

- Theorem `step_effect`: what a step can do, as one of seven effects.
- Theorem `step_turn`: what a step can do to the call of its slot.
- Theorem `inv_step`: mutex, flag and calls represent one abstract lifecycle
  of `Foundation.Lifecycle`.
-/

namespace GoforjCache
namespace Lock
namespace Handle

open Function Foundation Foundation.Transition
open Direct (Answer)

/-! ## Calls in flight -/

/-- The acquiring methods of a handle. -/
inductive Method where
  | acquire
  | get
  | block
deriving DecidableEq, Repr

/-- What a finished call returned: `(locked, err)` of an acquiring method, or
the error of `Release`. -/
inductive Result where
  | acquired (m : Method) (locked : Bool) (err : Option CacheError)
  | released (err : Option CacheError)
deriving DecidableEq, Repr

/-- Who waits for a release: the caller of `Release`, or the deferred call of
`Get` and `Block`, which drops the error and returns the callback's. -/
inductive Origin where
  | release
  | deferred (m : Method) (callbackErr : Option CacheError)
deriving DecidableEq, Repr

/-- What the caller sees when a release ended. -/
def Origin.result : Origin → Option CacheError → Result
  | release, err => .released err
  | deferred m callbackErr, _ => .acquired m true callbackErr

/-- Program counter of one call. -/
inductive Call where
  | idle
  /-- The mutex is taken and `tryLockOwned` is about to run. -/
  | reserved (m : Method)
  /-- `LockAcquire` is running in the backend. -/
  | attempting (m : Method)
  /-- `tryLockOwned` has returned. -/
  | attempted (m : Method) (answer : Answer)
  /-- `Block` met contention and waits for its timer or its context. -/
  | retryWait
  /-- The callback of `Get` or `Block` is running, without the mutex. -/
  | running (m : Method)
  /-- The callback has returned and the deferred `Release` waits for the mutex. -/
  | leaving (m : Method) (callbackErr : Option CacheError)
  /-- `LockRelease` is running in the backend. -/
  | unlocking (o : Origin)
  /-- `unlockOwned` has returned. -/
  | unlocked (o : Origin) (err : Option CacheError)
  | done (result : Result)
deriving DecidableEq, Repr

/-- The share of the handle's lifecycle that a call has in its hands. -/
inductive Claim where
  | none
  | reserving
  | releasing
deriving DecidableEq

namespace Call

/-- The claim that goes with a program counter. -/
def claim : Call → Claim
  | reserved _ => .reserving
  | attempting _ => .reserving
  | attempted _ _ => .reserving
  | retryWait => .reserving
  | unlocking _ => .releasing
  | unlocked _ _ => .releasing
  | _ => .none

/-- A slot can start a new call when it never ran one or its last one returned. -/
def ready : Call → Bool
  | idle => true
  | done _ => true
  | _ => false

/-- A finished call claims nothing. -/
@[simp]
theorem claim_done (r : Result) : (done r).claim = .none := rfl

theorem claim_of_ready {c : Call} (h : c.ready = true) : c.claim = .none := by
  cases c <;> simp_all [ready, claim]

end Call

/-! ## States and steps -/

variable {τ : Type*} [DecidableEq τ]

/-- One handle: the holder of `operationMu`, the flag `held`, and one call
per slot. -/
structure State (τ : Type*) where
  mu : Option τ
  held : Bool
  calls : τ → Call

/-- A new handle. -/
def State.initial : State τ where
  mu := none
  held := false
  calls := fun _ => .idle

/-- Move one slot to a new program counter. -/
def State.put (s : State τ) (t : τ) (c : Call) : State τ := { s with calls := update s.calls t c }

/-- What is fixed by `NewLockHandle`: the ttl and a failed owner token. -/
structure Config where
  ttl : Duration
  ownerErr : Option CacheError

/-- The steps of the slots.  `acquireAnswer` and `releaseAnswer` carry
what the backend answers, `callback` what the callback returns. -/
inductive Event (τ : Type*) where
  | enter (t : τ) (m : Method)
  | attempt (t : τ)
  | acquireAnswer (t : τ) (answer : Answer)
  | settle (t : τ)
  | retryTimer (t : τ)
  | retryDone (t : τ)
  | callback (t : τ) (err : Option CacheError)
  | deferred (t : τ)
  | release (t : τ)
  | releaseAnswer (t : τ) (answer : Answer)
  | finish (t : τ)

/-- The slot that takes a step. -/
def Event.slot : Event τ → τ
  | enter t _ | attempt t | acquireAnswer t _ | settle t | retryTimer t | retryDone t
  | callback t _ | deferred t | release t | releaseAnswer t _ | finish t => t

/-- Give up an acquisition: the mutex is unlocked and the pair returned. -/
def State.refuse (s : State τ) (t : τ) (m : Method) (locked : Bool)
    (err : Option CacheError) : State τ :=
  { s with
    mu := none
    calls := update s.calls t (.done (.acquired m locked err)) }

/-- Where a granted acquisition goes on: `Acquire` returns, `Get` and
`Block` run their callback. -/
def Method.granted : Method → Call
  | acquire => .done (.acquired .acquire true none)
  | m => .running m

/-- Keep a granted acquisition: `held` is set and the mutex unlocked. -/
def State.grant (s : State τ) (t : τ) (m : Method) : State τ :=
  { mu := none
    held := true
    calls := update s.calls t m.granted }

/-- The critical section that opens `Release`: the flag is swapped, and a
handle that holds nothing returns at once. -/
def State.beginRelease (s : State τ) (t : τ) (o : Origin) : State τ :=
  if s.held then
    { mu := some t
      held := false
      calls := update s.calls t (.unlocking o) }
  else s.put t (.done (o.result none))

@[simp]
theorem State.put_calls (s : State τ) (t : τ) (c : Call) : (s.put t c).calls t = c :=
  update_self _ _ _

@[simp]
theorem State.refuse_calls (s : State τ) (t : τ) (m : Method) (locked : Bool)
    (err : Option CacheError) :
    (s.refuse t m locked err).calls t = .done (.acquired m locked err) :=
  update_self _ _ _

@[simp]
theorem State.grant_calls (s : State τ) (t : τ) (m : Method) : (s.grant t m).calls t = m.granted :=
  update_self _ _ _

variable {s s' : State τ} {t : τ} {cfg : Config} {e : Event τ}

/-- `Release` goes to the backend exactly when the handle is held. -/
theorem State.beginRelease_cases {o : Origin} {P : Bool → Call → Bool → Prop}
    (hheld : P true (.unlocking o) false) (hfree : P false (.done (o.result none)) false) :
    P s.held ((s.beginRelease t o).calls t) (s.beginRelease t o).held := by
  unfold State.beginRelease
  split
  · rename_i hyes
    simpa only [hyes, update_self] using hheld
  · rename_i hno
    rw [State.put_calls, State.put, Bool.eq_false_of_not_eq_true hno]
    exact hfree

/-- One step of one slot, from `Acquire`, `get`, `block`,
`lockOwnedSince` and `Release`. -/
def step (cfg : Config) (s : State τ) : Event τ → Option (State τ)
  | .enter t m =>
    if (s.calls t).ready ∧ s.mu = none then
      match cfg.ownerErr with
      | some err => some (s.put t (.done (.acquired m false (some err))))
      | none =>
        if s.held then some (s.put t (.done (.acquired m false none)))
        else some { s with mu := some t, calls := update s.calls t (.reserved m) }
    else none
  | .attempt t =>
    match s.calls t with
    | .reserved m =>
      if cfg.ttl ≤ 0 then some (s.put t (.attempted m ⟨false, some .tryLockTTL⟩))
      else some (s.put t (.attempting m))
    | _ => none
  | .acquireAnswer t answer =>
    match s.calls t with
    | .attempting m => some (s.put t (.attempted m answer))
    | _ => none
  | .settle t =>
    match s.calls t with
    | .attempted .block answer =>
      match answer.err with
      | some err => some (s.refuse t .block false (some err))
      | none => if answer.ok then some (s.grant t .block) else some (s.put t .retryWait)
    | .attempted m answer =>
      if answer.succeeded then some (s.grant t m)
      else some (s.refuse t m answer.ok answer.err)
    | _ => none
  | .retryTimer t =>
    match s.calls t with
    | .retryWait => some (s.put t (.reserved .block))
    | _ => none
  | .retryDone t =>
    match s.calls t with
    | .retryWait => some (s.refuse t .block false (some .contextDone))
    | _ => none
  | .callback t err =>
    match s.calls t with
    | .running m => some (s.put t (.leaving m err))
    | _ => none
  | .deferred t =>
    match s.calls t with
    | .leaving m err => if s.mu = none then some (s.beginRelease t (.deferred m err)) else none
    | _ => none
  | .release t =>
    if (s.calls t).ready ∧ s.mu = none then some (s.beginRelease t .release) else none
  | .releaseAnswer t answer =>
    match s.calls t with
    | .unlocking o => some (s.put t (.unlocked o answer.err))
    | _ => none
  | .finish t =>
    match s.calls t with
    | .unlocked o err =>
      -- a failed release restores the flag before the mutex is unlocked
      some
        { mu := none
          held := err.isSome || s.held
          calls := update s.calls t (.done (o.result err)) }
    | _ => none

/-! ## What a step can do -/

/-- The effects a step of slot `t` can have.  Only the first leaves mutex and
flag alone; each of the others is one move of the abstract lifecycle. -/
inductive Effect (s : State τ) (t : τ) : State τ → Prop where
  | quiet (c : Call) (hclaim : c.claim = (s.calls t).claim) : Effect s t (s.put t c)
  | reserve (m : Method) (hmu : s.mu = none) (hheld : s.held = false)
      (hidle : (s.calls t).claim = .none) :
      Effect s t { s with mu := some t, calls := update s.calls t (.reserved m) }
  | grant (m : Method) (hown : (s.calls t).claim = .reserving) : Effect s t (s.grant t m)
  | abandon (m : Method) (locked : Bool) (err : Option CacheError)
      (hown : (s.calls t).claim = .reserving) : Effect s t (s.refuse t m locked err)
  | beginRelease (o : Origin) (hmu : s.mu = none) (hheld : s.held = true)
      (hidle : (s.calls t).claim = .none) :
      Effect s t
        { mu := some t
          held := false
          calls := update s.calls t (.unlocking o) }
  | close (o : Origin) (hown : (s.calls t).claim = .releasing) :
      Effect s t
        { s with mu := none, calls := update s.calls t (.done (o.result none)) }
  | restore (o : Origin) (err : CacheError) (hown : (s.calls t).claim = .releasing) :
      Effect s t
        { mu := none
          held := true
          calls := update s.calls t (.done (o.result (some err))) }

/-- A step moves the call of its own slot only. -/
theorem Effect.calls_of_ne {u : τ} (h : Effect s t s') (hu : u ≠ t) : s'.calls u = s.calls u := by
  cases h <;> exact update_of_ne hu _ _

/-- The critical section of `Release` takes a held handle or returns. -/
theorem beginRelease_effect (o : Origin) (hmu : s.mu = none) (hidle : (s.calls t).claim = .none) :
    Effect s t (s.beginRelease t o) := by
  unfold State.beginRelease
  cases hheld : s.held with
  | true => exact Effect.beginRelease o hmu hheld hidle
  | false => exact Effect.quiet _ (by rw [hidle, Call.claim_done])

/-- Every step has one of the seven effects on the slot that takes it. -/
theorem step_effect (h : step cfg s e = some s') : Effect s e.slot s' := by
  cases e with
  | enter t m =>
    simp only [step, Option.ite_none_right_eq_some] at h
    obtain ⟨⟨hready, hmu⟩, h⟩ := h
    have hidle := Call.claim_of_ready hready
    split at h
    · cases h
      exact Effect.quiet _ hidle.symm
    · split at h <;> cases h
      · exact Effect.quiet _ hidle.symm
      · rename_i hheld
        exact Effect.reserve m hmu (by simpa using hheld) hidle
  | attempt t =>
    simp only [step] at h
    split at h
    · rename_i m hc
      split at h <;> cases h <;> exact Effect.quiet _ (congrArg Call.claim hc).symm
    · contradiction
  | settle t =>
    simp only [step] at h
    split at h
    · rename_i answer hc
      split at h
      · cases h
        exact Effect.abandon _ _ _ (congrArg Call.claim hc)
      · split at h <;> cases h
        · exact Effect.grant _ (congrArg Call.claim hc)
        · exact Effect.quiet _ (congrArg Call.claim hc).symm
    · rename_i m answer _ hc
      split at h <;> cases h
      · exact Effect.grant _ (congrArg Call.claim hc)
      · exact Effect.abandon _ _ _ (congrArg Call.claim hc)
    · contradiction
  | retryDone t =>
    simp only [step] at h
    split at h
    · rename_i hc
      cases h
      exact Effect.abandon _ _ _ (congrArg Call.claim hc)
    · contradiction
  | deferred t =>
    simp only [step] at h
    split at h
    · rename_i m err hc
      simp only [Option.ite_none_right_eq_some, Option.some.injEq] at h
      obtain ⟨hmu, rfl⟩ := h
      exact beginRelease_effect _ hmu (congrArg Call.claim hc)
    · contradiction
  | release t =>
    simp only [step, Option.ite_none_right_eq_some, Option.some.injEq] at h
    obtain ⟨⟨hready, hmu⟩, rfl⟩ := h
    exact beginRelease_effect _ hmu (Call.claim_of_ready hready)
  | finish t =>
    simp only [step] at h
    split at h
    · rename_i o err hc
      cases h
      cases err with
      | none => exact Effect.close o (congrArg Call.claim hc)
      | some err => exact Effect.restore o err (congrArg Call.claim hc)
    · contradiction
  | acquireAnswer t answer | retryTimer t | callback t err | releaseAnswer t answer =>
    simp only [step] at h
    split at h
    · rename_i hc
      cases h
      exact Effect.quiet _ (congrArg Call.claim hc).symm
    · contradiction

/-- The turns of one call: its program counter and the flag `held`, before and after a
step of its slot. -/
inductive Turn (cfg : Config) : Event τ → Call → Bool → Call → Bool → Prop where
  | enter (t : τ) (m : Method) {c : Call} (hready : c.ready = true) :
      Turn cfg (.enter t m) c false (.reserved m) false
  | turnedAway (t : τ) (m : Method) {c : Call} (hready : c.ready = true)
      (err : Option CacheError) (held : Bool) :
      Turn cfg (.enter t m) c held (.done (.acquired m false err)) held
  | attempt (t : τ) (m : Method) (hpos : 0 < cfg.ttl) (held : Bool) :
      Turn cfg (.attempt t) (.reserved m) held (.attempting m) held
  | badTTL (t : τ) (m : Method) (held : Bool) :
      Turn cfg (.attempt t) (.reserved m) held (.attempted m ⟨false, some .tryLockTTL⟩) held
  | acquireAnswer (t : τ) (a : Answer) (m : Method) (held : Bool) :
      Turn cfg (.acquireAnswer t a) (.attempting m) held (.attempted m a) held
  | grant (t : τ) (m : Method) {a : Answer} (hok : a.succeeded = true) (held : Bool) :
      Turn cfg (.settle t) (.attempted m a) held m.granted true
  | refuse (t : τ) (m : Method) {a : Answer} (hno : a.succeeded = false) {locked : Bool}
      (hlocked : locked = true → a.ok = true) (err : Option CacheError) (held : Bool) :
      Turn cfg (.settle t) (.attempted m a) held (.done (.acquired m locked err)) held
  | retry (t : τ) {a : Answer} (hno : a.succeeded = false) (held : Bool) :
      Turn cfg (.settle t) (.attempted .block a) held .retryWait held
  | retryTimer (t : τ) (held : Bool) :
      Turn cfg (.retryTimer t) .retryWait held (.reserved .block) held
  | retryDone (t : τ) (held : Bool) :
      Turn cfg (.retryDone t) .retryWait held
        (.done (.acquired .block false (some .contextDone))) held
  | callback (t : τ) (m : Method) (err : Option CacheError) (held : Bool) :
      Turn cfg (.callback t err) (.running m) held (.leaving m err) held
  | deferred (t : τ) (m : Method) (err : Option CacheError) :
      Turn cfg (.deferred t) (.leaving m err) true (.unlocking (.deferred m err)) false
  | deferredFree (t : τ) (m : Method) (err : Option CacheError) :
      Turn cfg (.deferred t) (.leaving m err) false (.done (.acquired m true err)) false
  | release (t : τ) {c : Call} (hready : c.ready = true) :
      Turn cfg (.release t) c true (.unlocking .release) false
  | releaseFree (t : τ) {c : Call} (hready : c.ready = true) :
      Turn cfg (.release t) c false (.done (.released none)) false
  | releaseAnswer (t : τ) (a : Answer) (o : Origin) (held : Bool) :
      Turn cfg (.releaseAnswer t a) (.unlocking o) held (.unlocked o a.err) held
  | finish (t : τ) (o : Origin) (err : Option CacheError) (held : Bool) :
      Turn cfg (.finish t) (.unlocked o err) held (.done (o.result err)) (err.isSome || held)

/-- Every step is a turn of the call of its slot. -/
theorem step_turn (h : step cfg s e = some s') :
    Turn cfg e (s.calls e.slot) s.held (s'.calls e.slot) s'.held := by
  cases e with
  | enter t m =>
    simp only [step, Option.ite_none_right_eq_some] at h
    obtain ⟨⟨hready, -⟩, h⟩ := h
    split at h
    · cases h
      rw [Event.slot, State.put_calls]
      exact .turnedAway t m hready _ _
    · split at h <;> cases h
      · rw [Event.slot, State.put_calls]
        exact .turnedAway t m hready _ _
      · rename_i hheld
        simp only [Event.slot, update_self, Bool.eq_false_of_not_eq_true hheld]
        exact .enter t m hready
  | attempt t =>
    simp only [step] at h
    split at h
    · rename_i m hc
      split at h <;> cases h <;> rw [Event.slot, State.put_calls, hc]
      · exact .badTTL t m _
      · rename_i hpos
        exact .attempt t m (Int64.not_le.mp hpos) _
    · contradiction
  | settle t =>
    simp only [step] at h
    split at h
    · rename_i answer hc
      split at h
      · rename_i err herr
        cases h
        rw [Event.slot, State.refuse_calls, hc]
        exact .refuse t .block (by simp [Answer.succeeded, herr]) (by simp) _ _
      · rename_i herr
        split at h <;> cases h <;> rename_i hok
        · rw [Event.slot, State.grant_calls, hc]
          exact .grant t .block (by simp [Answer.succeeded, herr, hok]) _
        · rw [Event.slot, State.put_calls, hc]
          exact .retry t (by simp [Answer.succeeded, hok]) _
    · rename_i m answer _ hc
      split at h <;> cases h <;> rename_i hok
      · rw [Event.slot, State.grant_calls, hc]
        exact .grant t m hok _
      · rw [Event.slot, State.refuse_calls, hc]
        exact .refuse t m (Bool.eq_false_of_not_eq_true hok) id _ _
    · contradiction
  | deferred t =>
    simp only [step] at h
    split at h
    · rename_i m err hc
      simp only [Option.ite_none_right_eq_some, Option.some.injEq] at h
      obtain ⟨-, rfl⟩ := h
      rw [Event.slot, hc]
      exact State.beginRelease_cases (.deferred t m err) (.deferredFree t m err)
    · contradiction
  | release t =>
    simp only [step, Option.ite_none_right_eq_some, Option.some.injEq] at h
    obtain ⟨⟨hready, -⟩, rfl⟩ := h
    exact State.beginRelease_cases (.release t hready) (.releaseFree t hready)
  | finish t =>
    simp only [step] at h
    split at h
    · rename_i o err hc
      cases h
      simp only [Event.slot, update_self, hc]
      exact .finish t o err _
    · contradiction
  | acquireAnswer t answer | retryTimer t | retryDone t | callback t err
  | releaseAnswer t answer =>
    simp only [step] at h
    split at h
    · rename_i hc
      cases h
      simp only [Event.slot, State.put_calls, State.refuse_calls, hc]
      constructor
    · contradiction

/-! ## Refinement of the abstract lifecycle -/

/-- The holder of the mutex in a phase. -/
def holderOf : Phase τ → Option τ
  | .acquiring t => some t
  | .releasing t => some t
  | _ => none

/-- The state represents the lifecycle `L`: the mutex is with the slot in
charge, the flag shows the held phase, and the slot in charge is the one slot with
a claim. -/
structure Represents (L : Lifecycle τ) (s : State τ) : Prop where
  mu : s.mu = holderOf L.phase
  held : s.held = true ↔ L.phase = .held
  inCharge : Lifecycle.InCharge (·.claim = .reserving) (·.claim = .releasing) L.phase s.calls

@[simp]
theorem Method.claim_granted (m : Method) : m.granted.claim = .none := by
  cases m <;> rfl

/-- Every effect advances the lifecycle by the move of the same name or leaves it
alone. -/
theorem effect_simulates (h : Effect s t s') {L : Lifecycle τ} (hL : Represents L s) :
    ∃ L', Represents L' s' ∧ (L' = L ∨ ∃ m, L.Advance t m L') := by
  obtain ⟨phase, g, n⟩ := L
  have hcharge := hL.inCharge
  have hheld := hL.held
  have hmu := hL.mu
  cases h with
  | quiet c hclaim =>
    refine ⟨_, ⟨hmu, hheld, hcharge.frame ?_ ?_⟩, Or.inl rfl⟩ <;> rw [hclaim]
  | reserve m hfree hnot hidle =>
    cases phase <;> simp_all [holderOf]
    exact ⟨_, ⟨rfl, by simp, hcharge.advance (.reserve g n) (by simp [Call.claim])
      (by simp [Call.claim])⟩, Or.inr ⟨_, .reserve _ _⟩⟩
  | grant m hown =>
    obtain rfl := (hcharge.reserving t).mp hown
    exact ⟨_, ⟨rfl, by simp [State.grant], hcharge.advance (.grant g n) (by simp) (by simp)⟩,
      Or.inr ⟨_, .grant _ _⟩⟩
  | abandon m locked err hown =>
    obtain rfl := (hcharge.reserving t).mp hown
    exact ⟨_, ⟨rfl, by simpa [State.refuse] using hheld,
      hcharge.advance (.abandon g n) (by simp) (by simp)⟩, Or.inr ⟨_, .abandon _ _⟩⟩
  | beginRelease o hfree hyes hidle =>
    obtain rfl := hheld.mp hyes
    exact ⟨_, ⟨rfl, by simp, hcharge.advance (.beginRelease g n) (by simp [Call.claim])
      (by simp [Call.claim])⟩, Or.inr ⟨_, .beginRelease _ _⟩⟩
  | close o hown =>
    obtain rfl := (hcharge.releasing t).mp hown
    exact ⟨_, ⟨rfl, by simpa using hheld, hcharge.advance (.close g n) (by simp) (by simp)⟩,
      Or.inr ⟨_, .close _ _⟩⟩
  | restore o err hown =>
    obtain rfl := (hcharge.releasing t).mp hown
    exact ⟨_, ⟨rfl, by simp, hcharge.advance (.restore g n) (by simp) (by simp)⟩,
      Or.inr ⟨_, .restore _ _⟩⟩

/-- The invariant: the handle represents some lifecycle. -/
def Inv (s : State τ) : Prop := ∃ L : Lifecycle τ, Represents L s

omit [DecidableEq τ] in
/-- A new handle satisfies the invariant. -/
theorem inv_initial : Inv (State.initial : State τ) :=
  ⟨Lifecycle.fresh, rfl, by simp [State.initial, Lifecycle.fresh],
    by simp [State.initial, Call.claim, Lifecycle.fresh],
    by simp [State.initial, Call.claim, Lifecycle.fresh]⟩

/-- Every step keeps the invariant. -/
theorem inv_step (hs : Inv s) (h : step cfg s e = some s') : Inv s' := by
  obtain ⟨L, hL⟩ := hs
  obtain ⟨L', hL', -⟩ := effect_simulates (step_effect h) hL
  exact ⟨L', hL'⟩

omit [DecidableEq τ] in
/-- At most one slot has a claim. -/
theorem Inv.claim_unique (hs : Inv s) {u : τ} (ht : (s.calls t).claim ≠ .none)
    (hu : (s.calls u).claim ≠ .none) : t = u := by
  obtain ⟨L, hL⟩ := hs
  have hsplit : ∀ c : Call, c.claim ≠ .none → c.claim = .reserving ∨ c.claim = .releasing := by
    intro c hc
    cases hcl : c.claim <;> simp_all
  exact hL.inCharge.unique (hsplit _ ht) (hsplit _ hu)

end Handle
end Lock
end GoforjCache
