import GoforjCache.Lock.Handle

/-!
# Locks - The deferred release of Get and Block

`LockHandle.Get` and `LockHandle.Block` acquire, run a callback and release in a
deferred call.  All their backend calls use one context: the one the handle is bound to,
and for `Block` with a timeout the context derived from it.  Here the handle of
`Lock.Handle` meets contexts that can be cancelled or expire, and a store that fails
a call made with such a context without changing state and otherwise succeeds.

Main results:

- Theorem `callback_releases_iff`: a call that acquired has released its lock when it
  returns exactly if its context was still live when the deferred release reached the
  backend.
- Theorem `block_keeps_lock`: a callback that outlasts the timeout of `Block`
  leaves the handle held and its record in the store.
-/

namespace GoforjCache
namespace Lock
namespace HandleRelease

open Function Foundation Foundation.Transition
open Direct (Answer)

/-! ## Contexts and calls -/

/-- `defaultLockRetryInterval`: 25 milliseconds. -/
def defaultLockRetryInterval : Duration := 25000000

/-- The public methods of a handle with the arguments that matter for timing. -/
inductive Entry where
  | acquire
  | get
  | block (timeout retryInterval : Duration)
  | release
deriving DecidableEq

/-- The deadline of the context a method derives: only `Block` with a positive timeout
derives one. -/
def Entry.deadline : Entry → Instant → Option Instant
  | block timeout _, now => if 0 < timeout then some (now + timeout.toInt) else none
  | _, _ => none

/-- The pause between two attempts of `lockOwnedSince`. -/
def Entry.retryInterval : Entry → Duration
  | block _ retryInterval => if retryInterval ≤ 0 then defaultLockRetryInterval else retryInterval
  | _ => defaultLockRetryInterval

/-- The first step of a method on the handle. -/
def Entry.enter {τ : Type} (t : τ) : Entry → Handle.Event τ
  | acquire => .enter t .acquire
  | get => .enter t .get
  | block _ _ => .enter t .block
  | release => .release t

/-- The context of a call: the one the handle was bound to and the deadline the method
adds. -/
structure Context (γ : Type) where
  parent : γ
  deadline : Option Instant

/-- A call with its context and the instant at which its retry timer fires. -/
structure Frame (γ : Type) where
  entry : Entry
  context : Context γ
  timer : Instant

/-- A new call at an instant. -/
def Frame.new {γ : Type} (entry : Entry) (ctx : γ) (now : Instant) : Frame γ :=
  ⟨entry, ⟨ctx, entry.deadline now⟩, now⟩

/-- The frame after a step that left the call at a program counter: a call that returned
has none, one that met contention starts its timer. -/
def Frame.after {γ : Type} (f : Frame γ) (now : Instant) : Handle.Call → Option (Frame γ)
  | .idle => none
  | .done _ => none
  | .retryWait => some { f with timer := now + f.entry.retryInterval.toInt }
  | _ => some f

/-- The lock calls of a store at an instant and with a live context, and the live record of
a key.  Time only lets records die, and a release leaves no live record of its owner. -/
structure Backend (σ : Type) where
  lockAcquire : σ → Instant → Key → Bytes → Duration → σ × Bool
  lockRelease : σ → Instant → Key → Bytes → σ × Bool
  content : σ → Instant → Key → Option Bytes
  expires : ∀ s key v {now later}, now ≤ later → content s later key = some v →
    content s now key = some v
  released : ∀ s now key owner, content (lockRelease s now key owner).1 now key ≠ some owner

/-- What is fixed: the store, the key, the token and the settings of the handle. -/
structure Config (σ : Type) where
  backend : Backend σ
  handle : Handle.Config
  key : Key
  token : Bytes

/-- One handle with all its clones, the frames of its calls, the contexts that are
cancelled, the store and the clock. -/
structure World (γ τ σ : Type) where
  handle : Handle.State τ
  frames : τ → Option (Frame γ)
  cancelled : γ → Bool
  store : σ
  now : Instant

/-- The steps of the slots, of the contexts, of the clock, and of the other clients of the
store. -/
inductive Event (γ τ σ : Type) where
  | call (t : τ) (ctx : γ) (entry : Entry)
  | enter (t : τ)
  | attempt (t : τ)
  | acquire (t : τ)
  | settle (t : τ)
  | retryTimer (t : τ)
  | retryDone (t : τ)
  | callback (t : τ) (err : Option CacheError)
  | deferred (t : τ)
  | releaseCall (t : τ)
  | finish (t : τ)
  | cancel (ctx : γ)
  | tick (d : Nat)
  | other (store : σ)

variable {γ τ σ : Type} [DecidableEq γ] [DecidableEq τ]

/-- The context is cancelled or its deadline has passed. -/
def World.done (w : World γ τ σ) (c : Context γ) : Bool :=
  w.cancelled c.parent || c.deadline.any fun deadline => decide (deadline ≤ w.now)

/-- The lock key of the store carries the token of the handle. -/
def World.Carries (cfg : Config σ) (w : World γ τ σ) : Prop :=
  cfg.backend.content w.store w.now (lockKey cfg.key) = some cfg.token

instance (cfg : Config σ) (w : World γ τ σ) : Decidable (w.Carries cfg) :=
  inferInstanceAs (Decidable (_ = _))

/-- A backend call with a context: a done context fails without touching the store. -/
def World.invoke (w : World γ τ σ) (c : Context γ) (op : σ × Bool) : σ × Answer :=
  if w.done c then (w.store, ⟨false, some .contextDone⟩) else (op.1, ⟨op.2, none⟩)

/-- What a step of a slot does: the event of the handle and the store after it. -/
def World.act (cfg : Config σ) (w : World γ τ σ) : Event γ τ σ → Option (Handle.Event τ × σ)
  | .enter t => (w.frames t).map fun f => (f.entry.enter t, w.store)
  | .attempt t => some (.attempt t, w.store)
  | .acquire t =>
    (w.frames t).map fun f =>
      let r := w.invoke f.context
        (cfg.backend.lockAcquire w.store w.now (lockKey cfg.key) cfg.token cfg.handle.ttl)
      (.acquireAnswer t r.2, r.1)
  | .settle t => some (.settle t, w.store)
  | .retryTimer t =>
    (w.frames t).bind fun f => if f.timer ≤ w.now then some (.retryTimer t, w.store) else none
  | .retryDone t =>
    (w.frames t).bind fun f => if w.done f.context then some (.retryDone t, w.store) else none
  | .callback t err => some (.callback t err, w.store)
  | .deferred t => some (.deferred t, w.store)
  | .releaseCall t =>
    (w.frames t).map fun f =>
      let r := w.invoke f.context
        (cfg.backend.lockRelease w.store w.now (lockKey cfg.key) cfg.token)
      (.releaseAnswer t r.2, r.1)
  | .finish t => some (.finish t, w.store)
  | _ => none

/-- A step of the handle, with the frame of its slot moved along. -/
def World.handleStep (cfg : Config σ) (w : World γ τ σ) (a : Handle.Event τ) (store : σ) :
    Option (World γ τ σ) :=
  (Handle.step cfg.handle w.handle a).map fun h =>
    { w with
      handle := h
      frames := update w.frames a.slot
        ((w.frames a.slot).bind fun f => f.after w.now (h.calls a.slot))
      store := store }

/-- One step. -/
def step (cfg : Config σ) (w : World γ τ σ) (e : Event γ τ σ) : Option (World γ τ σ) :=
  match e with
  | .call t ctx entry =>
    -- the context is derived before the mutex is taken
    match w.frames t with
    | none => some { w with frames := update w.frames t (some (.new entry ctx w.now)) }
    | some _ => none
  | .cancel ctx => some { w with cancelled := update w.cancelled ctx true }
  | .tick d => some { w with now := w.now + d }
  | .other store =>
    -- the token is drawn at random, so no other client writes it
    if World.Carries cfg { w with store := store } → w.Carries cfg then
      some { w with store := store }
    else none
  | e => (w.act cfg e).bind fun r => w.handleStep cfg r.1 r.2

/-! ## One call alone on the handle -/

/-- Where a call of `Get` or `Block` can be before its deferred release reached
the backend, with the flag `held` that goes with it.  A refused call is included. -/
inductive Early : Handle.Call → Bool → Prop where
  | reserved {m : Handle.Method} (hm : m ≠ .acquire) : Early (.reserved m) false
  | attempting {m : Handle.Method} (hm : m ≠ .acquire) : Early (.attempting m) false
  | attempted {m : Handle.Method} {answer : Answer} (hm : m ≠ .acquire)
      (hfailed : answer.err ≠ none → answer.ok = false) : Early (.attempted m answer) false
  | retryWait : Early .retryWait false
  | running (m : Handle.Method) : Early (.running m) true
  | leaving (m : Handle.Method) (err : Option CacheError) : Early (.leaving m err) true
  | unlocking (m : Handle.Method) (err : Option CacheError) :
      Early (.unlocking (.deferred m err)) false
  | refused (m : Handle.Method) (err : Option CacheError) (held : Bool) :
      Early (.done (.acquired m false err)) held

/-- Where it can be afterwards: a release that found the context live closes, one that did
not restores the flag. -/
inductive Late (live : Bool) : Handle.Call → Bool → Prop where
  | unlocked (m : Handle.Method) (err : Option CacheError) {released : Option CacheError}
      (hlive : released.isSome = !live) : Late live (.unlocked (.deferred m err) released) false
  | returned (m : Handle.Method) (err : Option CacheError) :
      Late live (.done (.acquired m true err)) (!live)

/-- The steps of the handle that an early call can take before its release is answered. -/
def Advances : Handle.Event τ → Prop
  | .enter _ _ | .release _ | .releaseAnswer _ _ => False
  | .acquireAnswer _ answer => answer.err ≠ none → answer.ok = false
  | _ => True

/-- A refused acquisition was not granted by the backend. -/
theorem not_ok_of_refused {answer : Answer} (hno : answer.succeeded = false)
    (hfailed : answer.err ≠ none → answer.ok = false) : answer.ok = false := by
  cases herr : answer.err with
  | none => simpa [Answer.succeeded, herr] using hno
  | some err => exact hfailed (by rw [herr]; exact Option.some_ne_none err)

variable {cfg : Config σ} {a : Handle.Event τ} {c c' : Handle.Call} {held held' live : Bool} {t : τ}
  {w w' : World γ τ σ} {store : σ} {e : Event γ τ σ} {s : Handle.State τ}

section

omit [DecidableEq τ]

/-- An early call stays early until its release is answered. -/
theorem Early.turn {cfg : Handle.Config} (hs : Early c held) (ha : Advances a)
    (h : Handle.Turn cfg a c held c' held') : Early c' held' := by
  cases h with
  | enter | turnedAway | release | releaseFree | releaseAnswer => exact absurd ha id
  | attempt t m hpos held =>
    cases hs with
    | reserved hm => exact .attempting hm
  | badTTL t m held =>
    cases hs with
    | reserved hm => exact .attempted hm fun _ => rfl
  | acquireAnswer t answer m held =>
    cases hs with
    | attempting hm => exact .attempted hm ha
  | grant t m hok held =>
    cases hs with
    | attempted hm hfailed =>
      cases m with
      | acquire => exact absurd rfl hm
      | get => exact .running _
      | block => exact .running _
  | @refuse t m answer hno locked hlocked err held =>
    cases hs with
    | attempted hm hfailed =>
      have hok := not_ok_of_refused hno hfailed
      have hunlocked : locked = false := by
        cases locked with
        | false => rfl
        | true => exact (hlocked rfl).symm.trans hok
      rw [hunlocked]
      exact .refused _ _ _
  | retry t hno held =>
    cases hs
    exact .retryWait
  | retryTimer t held =>
    cases hs
    exact .reserved (by decide)
  | retryDone t held => exact .refused _ _ _
  | callback t m err held =>
    cases hs
    exact .leaving m err
  | deferred t m err => exact .unlocking m err
  | deferredFree t m err => cases hs
  | finish t o err held => cases hs

/-- A late call stays late. -/
theorem Late.turn {cfg : Handle.Config} (hs : Late live c held) (ha : Advances a)
    (h : Handle.Turn cfg a c held c' held') : Late live c' held' := by
  cases h with
  | enter | turnedAway | release | releaseFree | releaseAnswer => exact absurd ha id
  | finish t o err held =>
    cases hs with
    | unlocked m callbackErr hlive =>
      rw [hlive, Bool.or_false]
      exact .returned m callbackErr
  | _ => cases hs

/-- A call of `Get` or `Block` that entered is early. -/
theorem early_of_enter {cfg : Handle.Config} {m : Handle.Method} (hm : m ≠ .acquire)
    (h : Handle.Turn cfg (.enter t m) c held c' held') : Early c' held' := by
  cases h with
  | enter => exact .reserved hm
  | turnedAway => exact .refused m _ _

/-- An early call whose release is answered is in its deferred release. -/
theorem Early.releaseAnswer {cfg : Handle.Config} {a : Answer} (hs : Early c held)
    (h : Handle.Turn cfg (.releaseAnswer t a) c held c' held') :
    ∃ m err, c = .unlocking (.deferred m err) ∧ c' = .unlocked (.deferred m err) a.err ∧
      held' = false := by
  cases h with
  | releaseAnswer t a o held =>
    cases hs with
    | unlocking m err => exact ⟨m, err, rfl, rfl, rfl⟩

end

/-! ## The call among contexts, clock and other clients -/

/-- The later steps of the call of slot `t`, and those that leave the handle alone. -/
def Event.Continues (t : τ) : Event γ τ σ → Prop
  | .enter _ => False
  | .attempt u | .acquire u | .settle u | .retryTimer u | .retryDone u | .callback u _
  | .deferred u | .releaseCall u | .finish u => u = t
  | _ => True

omit [DecidableEq γ] in
/-- A step of a slot, taken apart. -/
theorem handleStep_eq_some (h : w.handleStep cfg a store = some w') :
    Handle.step cfg.handle w.handle a = some w'.handle ∧ w'.store = store ∧ w'.now = w.now ∧
      w'.frames a.slot =
        (w.frames a.slot).bind fun f => f.after w.now (w'.handle.calls a.slot) := by
  obtain ⟨s, hs, rfl⟩ := Option.map_eq_some_iff.mp h
  exact ⟨hs, rfl, rfl, update_self _ _ _⟩

/-- What a step that continues the call of `t` can be: a step of the handle by
`t`, or a step that leaves the handle and the frame of `t` alone and brings no
record of the token to life. -/
theorem step_continues (he : e.Continues t) (h : step cfg w e = some w') :
    (∃ a, w.act cfg e = some (a, w'.store) ∧ a.slot = t ∧
      Handle.step cfg.handle w.handle a = some w'.handle ∧ w'.now = w.now ∧
      w'.frames t = (w.frames t).bind fun f => f.after w.now (w'.handle.calls t)) ∨
    (w'.handle = w.handle ∧ (w'.Carries cfg → w.Carries cfg) ∧
      ∀ f, w.frames t = some f → w'.frames t = some f) := by
  cases e with
  | call u ctx entry =>
    simp only [step] at h
    split at h
    · rename_i hnone
      cases h
      refine Or.inr ⟨rfl, id, ?_⟩
      intro f hf
      have hne : t ≠ u := by
        rintro rfl
        rw [hnone] at hf
        cases hf
      exact (update_of_ne hne _ _).trans hf
    · cases h
  | cancel ctx =>
    cases h
    exact Or.inr ⟨rfl, id, fun _ => id⟩
  | tick d =>
    cases h
    refine Or.inr ⟨rfl, ?_, fun _ => id⟩
    exact cfg.backend.expires _ _ _ (Int.le_add_of_nonneg_right (Int.natCast_nonneg d))
  | other store =>
    simp only [step, Option.ite_none_right_eq_some, Option.some.injEq] at h
    obtain ⟨hkept, rfl⟩ := h
    exact Or.inr ⟨rfl, hkept, fun _ => id⟩
  | enter u => exact absurd he id
  | acquire u | releaseCall u | retryTimer u | retryDone u =>
    obtain rfl : u = t := he
    obtain ⟨⟨a, store⟩, hact, hstep⟩ := Option.bind_eq_some_iff.mp h
    obtain ⟨hhandle, rfl, hnow, hframe⟩ := handleStep_eq_some hstep
    have hslot : a.slot = u := by
      simp only [World.act, Option.map_eq_some_iff, Option.bind_eq_some_iff,
        Option.ite_none_right_eq_some, Option.some.injEq, Prod.mk.injEq] at hact
      grind [Handle.Event.slot]
    rw [hslot] at hframe
    exact Or.inl ⟨a, hact, hslot, hhandle, hnow, hframe⟩
  | attempt u | settle u | callback u err | deferred u | finish u =>
    obtain rfl : u = t := he
    obtain ⟨hhandle, hstore, hnow, hframe⟩ :=
      handleStep_eq_some (h : w.handleStep cfg _ w.store = some w')
    exact Or.inl ⟨_, by rw [hstore]; rfl, rfl, hhandle, hnow, hframe⟩

omit [DecidableEq γ] [DecidableEq τ] in
/-- A backend that answers with an error has not granted anything. -/
theorem invoke_failed (w : World γ τ σ) (c : Context γ) (op : σ × Bool)
    (herr : (w.invoke c op).2.err ≠ none) : (w.invoke c op).2.ok = false := by
  unfold World.invoke at herr ⊢
  split
  · rfl
  · rename_i hlive
    rw [if_neg hlive] at herr
    exact absurd rfl herr

omit [DecidableEq γ] [DecidableEq τ] in
/-- Short of the answer to its release, a call takes only advancing steps. -/
theorem act_advances (he : e.Continues t) (hrelease : e ≠ .releaseCall t)
    (hact : w.act cfg e = some (a, store)) : Advances a := by
  cases e with
  | enter u => exact absurd he id
  | releaseCall u =>
    obtain rfl : u = t := he
    exact absurd rfl hrelease
  | acquire u =>
    obtain ⟨f, -, hf⟩ := Option.map_eq_some_iff.mp hact
    cases hf
    exact invoke_failed w f.context _
  | retryTimer u | retryDone u =>
    obtain ⟨f, -, hf⟩ := Option.bind_eq_some_iff.mp hact
    simp only [Option.ite_none_right_eq_some] at hf
    cases hf.2
    trivial
  | attempt u | settle u | callback u err | deferred u | finish u =>
    cases hact
    trivial
  | call u ctx entry | cancel ctx | tick d | other s => cases hact

/-- Only a call that has not returned can advance. -/
theorem not_ready_of_step {cfg : Handle.Config} {s' : Handle.State τ} (ha : Advances a)
    (h : Handle.step cfg s a = some s') : (s.calls a.slot).ready = false := by
  have hturn := Handle.step_turn h
  generalize s.calls a.slot = c at hturn ⊢
  generalize s.held = held at hturn
  generalize s'.calls a.slot = c' at hturn
  generalize s'.held = held' at hturn
  cases hturn with
  | enter | turnedAway | release | releaseFree | releaseAnswer => exact absurd ha id
  | _ => rfl

omit [DecidableEq γ] in
/-- A call that has not returned keeps its frame, with the same context. -/
theorem Frame.after_context (f : Frame γ) (now : Instant) (hc : c.ready = false) :
    ∃ f', f.after now c = some f' ∧ f'.context = f.context := by
  cases c with
  | idle => cases hc
  | done result => cases hc
  | _ => exact ⟨_, rfl, rfl⟩

/-- The call of slot `t` under the context `c`, before its deferred release
reached the backend. -/
structure Before (c : Context γ) (t : τ) (w : World γ τ σ) : Prop where
  early : Early (w.handle.calls t) w.handle.held
  frame : (w.handle.calls t).ready = false → ∃ f, w.frames t = some f ∧ f.context = c

/-- The call of slot `t` afterwards; `live` tells whether the context was. -/
structure After (cfg : Config σ) (live : Bool) (t : τ) (w : World γ τ σ) : Prop where
  late : Late live (w.handle.calls t) w.handle.held
  clean : live = true → ¬w.Carries cfg

/-- The steps before the release keep the call early and its context the same. -/
theorem Before.advance {c : Context γ} (hw : Before c t w) (he : e.Continues t)
    (hrelease : e ≠ .releaseCall t) (h : step cfg w e = some w') : Before c t w' := by
  rcases step_continues he h with ⟨a, hact, rfl, hstep, -, hframe⟩ | ⟨hhandle, -, hframe⟩
  · have ha := act_advances he hrelease hact
    refine ⟨hw.early.turn ha (Handle.step_turn hstep), ?_⟩
    intro hready
    obtain ⟨f, hf, hctx⟩ := hw.frame (not_ready_of_step ha hstep)
    obtain ⟨f', hf', hctx'⟩ := f.after_context w.now hready
    rw [hf, Option.bind_some, hf'] at hframe
    exact ⟨f', hframe, hctx'.trans hctx⟩
  · refine ⟨by rw [hhandle]; exact hw.early, ?_⟩
    intro hready
    rw [hhandle] at hready
    obtain ⟨f, hf, hctx⟩ := hw.frame hready
    exact ⟨f, hframe f hf, hctx⟩

/-- The backend call of the deferred release decides what is left behind. -/
theorem Before.releaseCall {c : Context γ} (hw : Before c t w)
    (h : step cfg w (.releaseCall t) = some w') : After cfg (!w.done c) t w' := by
  obtain ⟨⟨a, store⟩, hact, hstep⟩ := Option.bind_eq_some_iff.mp h
  obtain ⟨f, hf, hpair⟩ := Option.map_eq_some_iff.mp hact
  cases hpair
  obtain ⟨hhandle, hstore, hnow, -⟩ := handleStep_eq_some hstep
  obtain ⟨m, err, hcall, hcall', hheld⟩ := hw.early.releaseAnswer (Handle.step_turn hhandle)
  obtain ⟨f', hf', hctx⟩ := hw.frame (by rw [hcall]; rfl)
  rw [hf] at hf'
  cases hf'
  refine ⟨?_, ?_⟩
  · change w'.handle.calls t = _ at hcall'
    rw [hcall', hheld, World.invoke, hctx]
    refine .unlocked m err ?_
    cases w.done c <;> rfl
  · intro hlive
    have hlive' : w.done c = false := by simpa using hlive
    rw [World.Carries, hstore, hnow, World.invoke, hctx, if_neg (by simp [hlive'])]
    exact cfg.backend.released _ _ _ _

/-- A late call waits for no answer of the backend. -/
theorem Late.no_answer {cfg : Handle.Config} (hlate : Late live (s.calls t) held)
    (answer : Answer) :
    Handle.step cfg s (.acquireAnswer t answer) = none ∧
      Handle.step cfg s (.releaseAnswer t answer) = none := by
  generalize hc : s.calls t = c at hlate
  cases hlate <;> simp [Handle.step, hc]

omit [DecidableEq γ] in
/-- After its release a call only advances, without touching the store. -/
theorem late_act (hlate : Late live (w.handle.calls t) w.handle.held) (he : e.Continues t)
    (hact : w.act cfg e = some (a, store)) (h : Handle.step cfg.handle w.handle a = some s) :
    e ≠ .releaseCall t ∧ store = w.store := by
  cases e with
  | acquire u =>
    obtain rfl : u = t := he
    obtain ⟨f, -, hpair⟩ := Option.map_eq_some_iff.mp hact
    cases hpair
    rw [(hlate.no_answer _).1] at h
    cases h
  | releaseCall u =>
    obtain rfl : u = t := he
    obtain ⟨f, -, hpair⟩ := Option.map_eq_some_iff.mp hact
    cases hpair
    rw [(hlate.no_answer _).2] at h
    cases h
  | enter u => exact absurd he id
  | retryTimer u | retryDone u =>
    obtain ⟨f, -, hf⟩ := Option.bind_eq_some_iff.mp hact
    simp only [Option.ite_none_right_eq_some] at hf
    cases hf.2
    exact ⟨nofun, rfl⟩
  | attempt u | settle u | callback u err | deferred u | finish u =>
    cases hact
    exact ⟨nofun, rfl⟩
  | call u ctx entry | cancel ctx | tick d | other s => cases hact

/-- The steps after the release change nothing about what it left behind. -/
theorem After.advance (hw : After cfg live t w) (he : e.Continues t) (h : step cfg w e = some w') :
    After cfg live t w' := by
  rcases step_continues he h with ⟨a, hact, rfl, hstep, hnow, -⟩ | ⟨hhandle, hcarries, -⟩
  · obtain ⟨hrelease, hstore⟩ := late_act hw.late he hact hstep
    refine ⟨hw.late.turn (act_advances he hrelease hact) (Handle.step_turn hstep), ?_⟩
    intro hlive
    rw [World.Carries, hstore, hnow]
    exact hw.clean hlive
  · refine ⟨by rw [hhandle]; exact hw.late, ?_⟩
    intro hlive hcarried
    exact hw.clean hlive (hcarries hcarried)

/-- A call of `Get` or `Block` that entered is early, under the context of its
frame. -/
theorem before_of_enter {f : Frame γ} (hframe : w.frames t = some f)
    (hentry : f.entry = .get ∨ ∃ timeout retryInterval, f.entry = .block timeout retryInterval)
    (h : step cfg w (.enter t) = some w') : Before f.context t w' := by
  obtain ⟨⟨a, store⟩, hact, hstep⟩ := Option.bind_eq_some_iff.mp h
  obtain ⟨f', hf', hpair⟩ := Option.map_eq_some_iff.mp hact
  rw [hframe] at hf'
  cases hf'
  cases hpair
  have henter : ∃ m, m ≠ Handle.Method.acquire ∧ f.entry.enter t = .enter t m := by
    rcases hentry with hget | ⟨timeout, retryInterval, hblock⟩
    · exact ⟨.get, by decide, by rw [hget]; rfl⟩
    · exact ⟨.block, by decide, by rw [hblock]; rfl⟩
  obtain ⟨m, hm, henter⟩ := henter
  rw [henter] at hstep
  obtain ⟨hhandle, -, -, hmoved⟩ := handleStep_eq_some hstep
  constructor
  · exact early_of_enter hm (Handle.step_turn hhandle)
  · intro hready
    rw [Handle.Event.slot, hframe, Option.bind_some] at hmoved
    obtain ⟨f'', hf'', hctx⟩ := f.after_context w.now hready
    exact ⟨f'', hmoved.trans hf'', hctx⟩

/--
`Get` and `Block` release what they acquired exactly when their context allows
it.  Take a call of slot `t` that enters the handle, in any state, and then runs alone
on it, whatever the clock, the contexts and the other clients of the store do; and let it
return with `locked = true`.  Then its deferred release reached the backend once, and
the handle is free and the lock key does not carry its token any more if and only if the
context of the call was not done at that moment.
-/
theorem callback_releases_iff {cfg : Config σ} {w₀ w₁ w : World γ τ σ} {t : τ} {f : Frame γ}
    {es : List (Event γ τ σ)} {m : Handle.Method} {err : Option CacheError}
    (hframe : w₀.frames t = some f)
    (hentry : f.entry = .get ∨ ∃ timeout retryInterval, f.entry = .block timeout retryInterval)
    (henter : step cfg w₀ (.enter t) = some w₁) (halone : ∀ e ∈ es, e.Continues t)
    (hrun : run (step cfg) w₁ es = some w)
    (hreturned : w.handle.calls t = .done (.acquired m true err)) :
    ∃ pre w' post, es = pre ++ .releaseCall t :: post ∧ run (step cfg) w₁ pre = some w' ∧
      run (step cfg) w' (.releaseCall t :: post) = some w ∧
      ((w.handle.held = false ∧ ¬w.Carries cfg) ↔ w'.done f.context = false) := by
  have hreleased : ¬Before f.context t w := by
    intro hw
    have hearly := hw.early
    rw [hreturned] at hearly
    cases hearly
  obtain ⟨pre, w', post, rfl, hpre, hbefore, hpost⟩ :=
    run_leaves (fun w e w' hw he hne => hw.advance he hne)
      (before_of_enter hframe hentry henter) halone hrun hreleased
  refine ⟨pre, w', post, rfl, hpre, hpost, ?_⟩
  obtain ⟨w'', hcall, hrest⟩ := run_cons_eq_some hpost
  have hcontinues : ∀ e ∈ post, e.Continues t := fun e he => halone e (by simp [he])
  have hafter : After cfg (!w'.done f.context) t w :=
    run_preserves_along (G := fun _ e => e.Continues t)
      (fun w e w' hw he => hw.advance he) (hbefore.releaseCall hcall)
      (along_of_forall (fun e he _ => hcontinues e he) w'') hrest
  have hlate := hafter.late
  generalize hheld : w.handle.held = held at hlate
  rw [hreturned] at hlate
  cases hlate
  cases hdone : w'.done f.context with
  | true => simp
  | false =>
    have hclean := hafter.clean (by rw [hdone]; rfl)
    simp [hclean]

/-! ## Runs over a store of leases -/

/-- A store that keeps each record with the last instant of its life. -/
abbrev Leases := Key → Option (Bytes × Instant)

/-- The live record of a key. -/
def Leases.content (s : Leases) (now : Instant) (key : Key) : Option Bytes :=
  (s key).bind fun r => if now ≤ r.2 then some r.1 else none

/-- A store of leases with an owner check on release. -/
def leaseBackend : Backend Leases where
  lockAcquire s now key owner ttl :=
    if s.content now key = none then
      (update s key (some (owner, now + ttl.toInt)), true)
    else (s, false)
  lockRelease s now key owner :=
    if s.content now key = some owner then (update s key none, true) else (s, false)
  content := Leases.content
  expires := by
    intro s key v now later hle h
    obtain ⟨r, hr, hlive⟩ := Option.bind_eq_some_iff.mp h
    simp only [Option.ite_none_right_eq_some] at hlive
    rw [Leases.content, hr, Option.bind_some, if_pos (le_trans hle hlive.1)]
    exact hlive.2
  released := by
    intro s now key owner
    split
    · simp [Leases.content]
    · assumption

/-- A handle with a lifetime of 1000 nanoseconds over the store of leases. -/
def sampleConfig : Config Leases := ⟨leaseBackend, ⟨1000, none⟩, ascii "job", ascii "owner"⟩

/-- A new handle whose one slot has called `Block` with a timeout. -/
def blockCalled (timeout : Duration) : World Unit Unit Leases where
  handle := Handle.State.initial
  frames := fun _ => some (.new (.block timeout 0) () 0)
  cancelled := fun _ => false
  store := fun _ => none
  now := 0

/-- The call acquires at once, its callback takes 20 nanoseconds, and it returns. -/
def callbackRun : List (Event Unit Unit Leases) :=
  [.attempt (), .acquire (), .settle (), .tick 20, .callback () none, .deferred (),
    .releaseCall (), .finish ()]

/-- The handle after `Block` has entered it. -/
def blockEntered (timeout : Duration) : World Unit Unit Leases :=
  (step sampleConfig (blockCalled timeout) (.enter ())).getD (blockCalled timeout)

/-- The handle after `Block` has returned. -/
def blockReturned (timeout : Duration) : World Unit Unit Leases :=
  (run (step sampleConfig) (blockEntered timeout) callbackRun).getD (blockEntered timeout)

/-- With a timeout of 100 nanoseconds the callback ends in time and the lock is released. -/
theorem callback_releases_iff_in_time :
    run (step sampleConfig) (blockEntered 100) callbackRun = some (blockReturned 100) ∧
    (blockReturned 100).handle.calls () = .done (.acquired .block true none) ∧
    (∃ pre w' post, callbackRun = pre ++ .releaseCall () :: post ∧
      run (step sampleConfig) (blockEntered 100) pre = some w' ∧
      run (step sampleConfig) w' (.releaseCall () :: post) = some (blockReturned 100) ∧
      (((blockReturned 100).handle.held = false ∧ ¬(blockReturned 100).Carries sampleConfig) ↔
        w'.done ⟨(), some 100⟩ = false)) ∧
    (blockReturned 100).handle.held = false ∧ ¬(blockReturned 100).Carries sampleConfig := by
  have hrun : run (step sampleConfig) (blockEntered 100) callbackRun =
      some (blockReturned 100) := rfl
  have halone : ∀ e ∈ callbackRun, e.Continues () := by
    simp [callbackRun, Event.Continues]
  have hframe : (blockCalled 100).frames () = some (.new (.block 100 0) () 0) := rfl
  have hreturned : (blockReturned 100).handle.calls () = .done (.acquired .block true none) := by
    decide
  exact ⟨hrun, hreturned,
    callback_releases_iff hframe (Or.inr ⟨100, 0, rfl⟩) rfl halone hrun hreturned,
    by decide, by decide⟩

/-- With a timeout of 10 nanoseconds the same call returns `(true, nil)`, alone on its
handle, but the handle is still held and the lock key carries its token for the rest of
the lifetime. -/
theorem block_keeps_lock :
    run (step sampleConfig) (blockEntered 10) callbackRun = some (blockReturned 10) ∧
    (blockReturned 10).handle.calls () = .done (.acquired .block true none) ∧
    (blockReturned 10).handle.held = true ∧
    (blockReturned 10).Carries sampleConfig :=
  ⟨rfl, by decide, by decide, by decide⟩

end HandleRelease
end Lock
end GoforjCache
