import GoforjCache.Lock.Handle

/-!
# Locks - What a lock client shows to the backend

A `Cache` instance and a `LockHandle` differ inside, but the backend sees
the same of both: slots that attempt an acquisition of a key, that have won one and
not yet returned it, or that release a key.  A `LockClient` is a machine with
such a view and with proofs that the view moves as a lock client's must.

Main results:

- Definition `Direct.client`: one Cache is a lock client.
- Definition `Handle.client`: one LockHandle is a lock client.
-/

namespace GoforjCache
namespace Lock

open Foundation Foundation.Transition
open Direct (Answer)

/-! ## Views -/

/-- What the backend can see of one slot. -/
inductive View where
  | quiet
  /-- `LockAcquire` is running in the backend. -/
  | attempting (key : Key) (ttl : Duration)
  /-- `LockAcquire` answered `(true, nil)` and the caller has not got it yet. -/
  | won (key : Key)
  /-- `LockRelease` is running in the backend. -/
  | unlocking (key : Key)
deriving DecidableEq, Repr

namespace View

/-- The key a slot is busy with. -/
def key : View → Option Key
  | quiet => none
  | attempting key _ => some key
  | won key => some key
  | unlocking key => some key

/-- The moves of a view that no backend answer causes. -/
inductive Local : View → View → Prop where
  | stay (v : View) : Local v v
  | attempt (key : Key) (ttl : Duration) (hpos : 0 < ttl) : Local quiet (attempting key ttl)
  | grant (key : Key) : Local (won key) quiet
  | unlock (key : Key) : Local quiet (unlocking key)

/-- Settling an attempt, won or not, leaves a quiet slot. -/
theorem Local.settled (key : Key) (a : Answer) :
    Local (if a.succeeded then won key else quiet) quiet := by
  split
  · exact .grant key
  · exact .stay _

/-- The view after the backend answered. -/
def answered : View → Answer → View
  | attempting key _, a => if a.succeeded then won key else quiet
  | _, _ => quiet

theorem answered_ne_attempting (v : View) (a : Answer) (key : Key) (ttl : Duration) :
    v.answered a ≠ attempting key ttl := by
  cases v <;> simp only [answered, ne_eq, reduceCtorEq, not_false_eq_true]
  split <;> simp

end View

/-- A party that takes and releases locks: a machine over slots `τ` whose local
steps and backend answers move the view of one slot at a time, and whose invariant
keeps two slots from being busy with one key. -/
structure LockClient (τ : Type) where
  State : Type
  Event : Type
  initial : State
  slot : Event → τ
  step : State → Event → Option State
  answer : State → τ → Answer → Option State
  view : State → τ → View
  Inv : State → Prop
  inv_initial : Inv initial
  inv_step : ∀ {s e s'}, Inv s → step s e = some s' → Inv s'
  inv_answer : ∀ {s t a s'}, Inv s → answer s t a = some s' → Inv s'
  exclusive : ∀ {s t u k}, Inv s → (view s t).key = some k → (view s u).key = some k → t = u
  quiet_initial : ∀ t, view initial t = .quiet
  step_frame : ∀ {s e s' u}, step s e = some s' → u ≠ slot e → view s' u = view s u
  step_view : ∀ {s e s'}, step s e = some s' → (view s (slot e)).Local (view s' (slot e))
  answer_frame : ∀ {s t a s' u}, answer s t a = some s' → u ≠ t → view s' u = view s u
  answer_view : ∀ {s t a s'}, answer s t a = some s' → view s' t = (view s t).answered a

/-! ## A Cache as a client -/

namespace Direct

/-- The view of one call. -/
def Call.view : Call → View
  | attempting _ key ttl => .attempting key ttl
  | attempted _ key _ answer => if answer.succeeded then .won key else .quiet
  | unlocking key => .unlocking key
  | _ => .quiet

theorem Call.claim_of_view {c : Call} {key : Key} (h : c.view.key = some key) :
    c.claim = .reserving key ∨ c.claim = .releasing key := by
  cases c with
  | attempted m k ttl answer =>
    cases hs : answer.succeeded <;> simp_all [view, View.key, claim]
  | _ => simp_all [view, View.key, claim]

theorem Call.view_of_ready {c : Call} (h : c.ready = true) : c.view = .quiet := by
  cases c <;> simp_all [ready, view]

/-- The events that deliver a backend answer. -/
def Event.isAnswer {τ : Type*} : Event τ → Bool
  | acquireAnswer _ _ => true
  | releaseAnswer _ _ => true
  | _ => false

variable {τ : Type} [DecidableEq τ]

/-- The view of the slot that takes a local step makes a local move. -/
theorem view_step {cfg : Config} {s s' : State τ} {e : Event τ} (h : step cfg s e = some s')
    (hlocal : e.isAnswer = false) : (s.calls e.slot).view.Local (s'.calls e.slot).view := by
  cases e with
  | acquireAnswer t answer => cases hlocal
  | releaseAnswer t answer => cases hlocal
  | tryLock t key ttl =>
    simp only [step, Option.ite_none_right_eq_some] at h
    obtain ⟨hready, h⟩ := h
    rw [Event.slot, Call.view_of_ready hready]
    cases howner : cfg.ownerErr <;> cases hkey : s.locks key <;>
      simp only [howner, beginAcquire, hkey, Option.some.injEq] at h <;> subst h <;>
      rw [State.put_calls] <;> exact .stay _
  | lock t key ttl =>
    simp only [step, Option.ite_none_right_eq_some] at h
    obtain ⟨hready, h⟩ := h
    rw [Event.slot, Call.view_of_ready hready]
    cases howner : cfg.ownerErr <;> simp only [howner, Option.some.injEq] at h <;>
      subst h <;> rw [State.put_calls] <;> exact .stay _
  | unlock t key =>
    simp only [step, Option.ite_none_right_eq_some] at h
    obtain ⟨hready, h⟩ := h
    rw [Event.slot, Call.view_of_ready hready]
    split at h <;> cases h <;> rw [State.put_calls] <;> exact .stay _
  | gate t =>
    simp only [step] at h
    split at h
    · rename_i key ttl hc
      rw [Event.slot, hc]
      split at h <;> cases h <;> rw [State.put_calls] <;> exact .stay _
    · contradiction
  | attempt t =>
    simp only [step] at h
    split at h
    · rename_i m key ttl hc
      rw [Event.slot, hc]
      split at h <;> cases h <;> rw [State.put_calls]
      · simpa [Call.view] using View.Local.stay .quiet
      · rename_i hpos
        exact .attempt key ttl (Int64.not_le.mp hpos)
    · contradiction
  | settle t =>
    simp only [step] at h
    split at h
    · rename_i key ttl answer hc
      cases h
      rw [Event.slot, hc, State.endAcquire_calls]
      exact .settled key answer
    · rename_i key ttl answer hc
      rw [Event.slot, hc]
      split at h
      · cases h
        rw [State.endAcquire_calls]
        exact .settled key answer
      · split at h <;> cases h
        · rw [State.endAcquire_calls]
          exact .settled key answer
        · rw [State.put_calls]
          exact .settled key answer
    · contradiction
  | release t =>
    simp only [step] at h
    split at h
    · rename_i key hc
      rw [Event.slot, hc]
      split at h <;> cases h <;> rw [State.put_calls]
      · exact .stay _
      · exact .unlock key
    · contradiction
  | retryDone t | finish t | gateTimer t | gateDone t | retryTimer t =>
    simp only [step] at h
    split at h
    · rename_i hc
      cases h
      simp only [Event.slot, hc, State.put_calls, State.endAcquire_calls, State.endRelease_calls]
      exact .stay _
    · contradiction

/-- A backend answer, for whichever backend call the slot is in. -/
def answer (cfg : Config) (s : State τ) (t : τ) (a : Answer) : Option (State τ) :=
  match s.calls t with
  | .attempting _ _ _ => step cfg s (.acquireAnswer t a)
  | .unlocking _ => step cfg s (.releaseAnswer t a)
  | _ => none

/-- An answer is one of the two answering steps. -/
theorem answer_eq_some {cfg : Config} {s s' : State τ} {t : τ} {a : Answer}
    (h : answer cfg s t a = some s') :
    ∃ e : Event τ, e.slot = t ∧ step cfg s e = some s' ∧
      (s'.calls t).view = (s.calls t).view.answered a := by
  unfold answer at h
  split at h
  · rename_i m key ttl hc
    refine ⟨.acquireAnswer t a, rfl, h, ?_⟩
    simp only [step, hc, Option.some.injEq] at h
    subst h
    rw [State.put_calls, hc]
    rfl
  · rename_i key hc
    refine ⟨.releaseAnswer t a, rfl, h, ?_⟩
    simp only [step, hc, Option.some.injEq] at h
    subst h
    rw [State.put_calls, hc]
    rfl
  · contradiction

/-- One Cache, with all its clones, is a lock client. -/
def client (cfg : Config) : LockClient τ where
  State := State τ
  Event := Event τ
  initial := State.initial
  slot := Event.slot
  step := fun s e => if e.isAnswer then none else step cfg s e
  answer := answer cfg
  view := fun s t => (s.calls t).view
  Inv := Inv
  inv_initial := inv_initial
  inv_step := by
    intro s e s' hs h
    exact inv_step hs (Option.ite_none_left_eq_some.mp h).2
  inv_answer := by
    intro s t a s' hs h
    obtain ⟨e, -, hstep, -⟩ := answer_eq_some h
    exact inv_step hs hstep
  exclusive := by
    intro s t u k hs ht hu
    exact hs.claim_unique (Call.claim_of_view ht) (Call.claim_of_view hu)
  quiet_initial := fun t => rfl
  step_frame := by
    intro s e s' u h hu
    rw [(step_effect (Option.ite_none_left_eq_some.mp h).2).calls_of_ne hu]
  step_view := by
    intro s e s' h
    obtain ⟨hlocal, h⟩ := Option.ite_none_left_eq_some.mp h
    exact view_step h (by simpa using hlocal)
  answer_frame := by
    intro s t a s' u h hu
    obtain ⟨e, rfl, hstep, -⟩ := answer_eq_some h
    rw [(step_effect hstep).calls_of_ne hu]
  answer_view := by
    intro s t a s' h
    obtain ⟨e, -, -, hview⟩ := answer_eq_some h
    exact hview

end Direct

/-! ## A LockHandle as a client -/

namespace Handle

/-- The view of one call of a handle for `key` with lifetime `ttl`. -/
def Call.view (key : Key) (ttl : Duration) : Call → View
  | attempting _ => .attempting key ttl
  | attempted _ answer => if answer.succeeded then .won key else .quiet
  | unlocking _ => .unlocking key
  | _ => .quiet

theorem Call.claim_of_view {key : Key} {ttl : Duration} {c : Call} {k : Key}
    (h : (c.view key ttl).key = some k) : c.claim ≠ .none := by
  cases c <;> simp_all [view, View.key, claim]

theorem Call.view_of_ready {key : Key} {ttl : Duration} {c : Call} (h : c.ready = true) :
    c.view key ttl = .quiet := by
  cases c <;> simp_all [ready, view]

/-- A granted call shows nothing. -/
theorem Method.view_granted (key : Key) (ttl : Duration) (m : Method) :
    m.granted.view key ttl = .quiet := by
  cases m <;> rfl

/-- The events that deliver a backend answer. -/
def Event.isAnswer {τ : Type*} : Event τ → Bool
  | acquireAnswer _ _ => true
  | releaseAnswer _ _ => true
  | _ => false

variable {τ : Type} [DecidableEq τ]

omit [DecidableEq τ] in
/-- A turn that no backend answer causes is a local move of the view. -/
theorem Turn.view {cfg : Config} {e : Event τ} {c c' : Call} {held held' : Bool}
    (h : Turn cfg e c held c' held') (hlocal : e.isAnswer = false) (key : Key) :
    (c.view key cfg.ttl).Local (c'.view key cfg.ttl) := by
  cases h with
  | acquireAnswer | releaseAnswer => cases hlocal
  | enter t m hready | turnedAway t m hready | releaseFree t hready =>
    rw [Call.view_of_ready hready]
    exact .stay _
  | release t hready =>
    rw [Call.view_of_ready hready]
    exact .unlock key
  | attempt t m hpos held => exact .attempt key cfg.ttl hpos
  | grant t m hok held =>
    rw [Method.view_granted]
    exact .settled key _
  | refuse | retry => exact .settled key _
  | deferred t m err => exact .unlock key
  | badTTL | retryTimer | retryDone | callback | deferredFree | finish => exact .stay _

/-- A backend answer, for whichever backend call the slot is in. -/
def answer (cfg : Config) (s : State τ) (t : τ) (a : Answer) : Option (State τ) :=
  match s.calls t with
  | .attempting _ => step cfg s (.acquireAnswer t a)
  | .unlocking _ => step cfg s (.releaseAnswer t a)
  | _ => none

/-- An answer is one of the two answering steps. -/
theorem answer_eq_some (key : Key) {cfg : Config} {s s' : State τ} {t : τ} {a : Answer}
    (h : answer cfg s t a = some s') :
    ∃ e : Event τ, e.slot = t ∧ step cfg s e = some s' ∧
      (s'.calls t).view key cfg.ttl = ((s.calls t).view key cfg.ttl).answered a := by
  unfold answer at h
  split at h
  · rename_i m hc
    refine ⟨.acquireAnswer t a, rfl, h, ?_⟩
    simp only [step, hc, Option.some.injEq] at h
    subst h
    rw [State.put_calls, hc]
    rfl
  · rename_i o hc
    refine ⟨.releaseAnswer t a, rfl, h, ?_⟩
    simp only [step, hc, Option.some.injEq] at h
    subst h
    rw [State.put_calls, hc]
    rfl
  · contradiction

/-- One LockHandle for `key`, with all its clones, is a lock client. -/
def client (key : Key) (cfg : Config) : LockClient τ where
  State := State τ
  Event := Event τ
  initial := State.initial
  slot := Event.slot
  step := fun s e => if e.isAnswer then none else step cfg s e
  answer := answer cfg
  view := fun s t => (s.calls t).view key cfg.ttl
  Inv := Inv
  inv_initial := inv_initial
  inv_step := by
    intro s e s' hs h
    exact inv_step hs (Option.ite_none_left_eq_some.mp h).2
  inv_answer := by
    intro s t a s' hs h
    obtain ⟨e, -, hstep, -⟩ := answer_eq_some key h
    exact inv_step hs hstep
  exclusive := by
    intro s t u k hs ht hu
    exact hs.claim_unique (Call.claim_of_view ht) (Call.claim_of_view hu)
  quiet_initial := fun t => rfl
  step_frame := by
    intro s e s' u h hu
    rw [(step_effect (Option.ite_none_left_eq_some.mp h).2).calls_of_ne hu]
  step_view := by
    intro s e s' h
    obtain ⟨hlocal, h⟩ := Option.ite_none_left_eq_some.mp h
    exact (step_turn h).view (by simpa using hlocal) key
  answer_frame := by
    intro s t a s' u h hu
    obtain ⟨e, rfl, hstep, -⟩ := answer_eq_some key h
    rw [(step_effect hstep).calls_of_ne hu]
  answer_view := by
    intro s t a s' h
    obtain ⟨e, -, -, hview⟩ := answer_eq_some key h
    exact hview

end Handle
end Lock
end GoforjCache
