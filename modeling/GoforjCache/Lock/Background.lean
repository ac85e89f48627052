import GoforjCache.Foundation.Tenancy
import GoforjCache.Lock.Refresh

/-!
# Locks - Background refreshes over any backend

The requests of `Lock.Refresh` once more, but over a backend that may answer every call with
anything: values, misses, errors, and a lock that is granted or refused without any reason.  The
events carry the answers and the readings of the clock.  Besides, other users of the Cache call
`TryLock`, `Lock` and `Unlock` on other keys.

For one key, the map `cacheDirectLocks` and the goroutines are an exclusive resource and its
tenants (`Foundation.Tenancy`): the goroutine that was granted the refresh lock keeps the entry
until its own `Unlock`, whatever happens to the lock in the backend.

Main results:

- Theorem `same_of_effect`: a call on one lock leaves the others alone.
- Theorems `moves_tryLock`, `moves_locking`, `moves_put`, `moves_unlock`,
  `moves_unlocking` and `moves_other`: what the steps do to the refresh lock of a key is
  nothing, or what a tenant may do.
-/

namespace GoforjCache
namespace Lock
namespace Background

open Function Foundation Foundation.Transition
open Direct (Answer)
open Refresh (Job Request refreshLockKey refreshLockKey_injective timeUntil afterWrite)
open Tenancy (Act Mode Stage)

/-! ## Requests over any backend -/

/-- One Cache with all its clones: the lock map, and one request per slot. -/
@[ext]
structure World (γ τ : Type) where
  direct : Direct.State τ
  jobs : τ → Job γ

/-- The steps of the slots, with the answers of the backend, and the calls of others on the lock
map. -/
inductive Event (γ τ : Type) where
  | call (t : τ) (r : Request γ)
  | lookup (t : τ) (answer : Except CacheError (Option Bytes))
  | inspect (t : τ) (answer : Except CacheError (Option Bytes)) (now : Instant)
  | tryLock (t : τ)
  | attempt (t : τ)
  | acquire (t : τ) (answer : Answer)
  | settle (t : τ)
  | resume (t : τ)
  | load (t : τ) (result : Except CacheError Bytes)
  | write (t : τ) (err : Option CacheError)
  | unlock (t : τ)
  | release (t : τ)
  | releaseCall (t : τ) (answer : Answer)
  | finish (t : τ)
  | other (e : Direct.Event τ)

variable {γ τ : Type} [DecidableEq τ]

omit [DecidableEq τ] in
/-- The slot that takes a step. -/
def Event.slot : Event γ τ → τ
  | call t _ | lookup t _ | inspect t _ _ | tryLock t | attempt t | acquire t _ | settle t
  | resume t | load t _ | write t _ | unlock t | release t | releaseCall t _ | finish t => t
  | other e => e.slot

/-- Move one slot to a new phase. -/
def World.put (w : World γ τ) (t : τ) (j : Job γ) : World γ τ :=
  { w with jobs := update w.jobs t j }

/-- A step of the lock map by slot `t`, which then is in phase `j`. -/
def World.lockStep (cfg : Direct.Config) (w : World γ τ) (e : Direct.Event τ) (t : τ) (j : Job γ) :
    Option (World γ τ) :=
  (Direct.step cfg w.direct e).map fun direct => ⟨direct, update w.jobs t j⟩

/-- One step, from `refreshAheadBytes`, `maybeTriggerRefreshAhead` and
`setRefreshAheadValue`. -/
def step (cfg : Direct.Config) (w : World γ τ) : Event γ τ → Option (World γ τ)
  | .call t r =>
    match w.jobs t with
    | .idle | .done =>
      if r.ttl ≤ 0 ∨ r.refreshAhead ≤ 0 then some (w.put t .done)
      else some (w.put t (.called r))
    | _ => none
  | .lookup t answer =>
    match w.jobs t with
    | .called r =>
      match answer with
      | .error _ => some (w.put t .done)
      | .ok (some _) => some (w.put t (.found r))
      | .ok none => some (w.put t (.missed r))
    | _ => none
  | .inspect t answer now =>
    match w.jobs t with
    | .found r =>
      match answer.toOption.join.bind Decimal.parseInt with
      | none => some (w.put t .done)
      | some expiresAt =>
        if r.refreshAhead.toInt < timeUntil now expiresAt then some (w.put t .done)
        else some (w.put t (.spawned r))
    | _ => none
  | .tryLock t =>
    match w.jobs t with
    | .spawned r =>
      w.lockStep cfg (.tryLock t (refreshLockKey r.key) r.refreshAhead) t (.locking r)
    | _ => none
  | .attempt t =>
    match w.jobs t with
    | .locking r => w.lockStep cfg (.attempt t) t (.locking r)
    | _ => none
  | .acquire t answer =>
    match w.jobs t with
    | .locking r => w.lockStep cfg (.acquireAnswer t answer) t (.locking r)
    | _ => none
  | .settle t =>
    match w.jobs t with
    | .locking r => w.lockStep cfg (.settle t) t (.locking r)
    | _ => none
  | .resume t =>
    match w.jobs t, w.direct.calls t with
    | .locking r, .done (.acquire _ locked err) =>
      if Answer.succeeded ⟨locked, err⟩ then
        if r.hasLoader then some (w.put t (.loading r)) else some (w.put t (.leaving r))
      else some (w.put t .done)
    | .unlocking _, .done (.unlock _ _) => some (w.put t .done)
    | _, _ => none
  | .load t result =>
    match w.jobs t with
    | .loading r =>
      match result with
      | .error _ => some (w.put t (.leaving r))
      | .ok value => some (w.put t (.writing r true value))
    | .missed r =>
      match r.hasLoader, result with
      | true, .ok value => some (w.put t (.writing r false value))
      | _, _ => some (w.put t .done)
    | _ => none
  | .write t err =>
    match w.jobs t with
    | .writing r async _ =>
      if err.isSome then some (w.put t (afterWrite r async))
      else some (w.put t (.writingMeta r async))
    | .writingMeta r async => some (w.put t (afterWrite r async))
    | _ => none
  | .unlock t =>
    match w.jobs t with
    | .leaving r => w.lockStep cfg (.unlock t (refreshLockKey r.key)) t (.unlocking r)
    | _ => none
  | .release t =>
    match w.jobs t with
    | .unlocking r => w.lockStep cfg (.release t) t (.unlocking r)
    | _ => none
  | .releaseCall t answer =>
    match w.jobs t with
    | .unlocking r => w.lockStep cfg (.releaseAnswer t answer) t (.unlocking r)
    | _ => none
  | .finish t =>
    match w.jobs t with
    | .unlocking r => w.lockStep cfg (.finish t) t (.unlocking r)
    | _ => none
  | .other e =>
    -- a slot that is inside its own call on the map runs no other one
    if (w.jobs e.slot).inside then none
    else (Direct.step cfg w.direct e).map fun direct => { w with direct }

/-- A new Cache. -/
structure World.Initial (w : World γ τ) : Prop where
  direct : w.direct = Direct.State.initial
  jobs : ∀ t, w.jobs t = .idle

/-- The key that a call of others is about when it begins. -/
def target : Direct.Event τ → Option Key
  | .tryLock _ key _ => some key
  | .lock _ key _ => some key
  | .unlock _ key => some key
  | _ => none

/-- The step is no call of others on the lock. -/
def Event.Spares (lock : Key) : Event γ τ → Prop
  | .other e => target e ≠ some lock
  | _ => True

/-! ## Calls on the lock map -/

section Calls

variable {cfg : Direct.Config} {s s' : Direct.State τ} {t : τ} {lock : Key}

/-- A call in flight was in flight before, or begins. -/
theorem inFlight_step {e : Direct.Event τ} (h : Direct.step cfg s e = some s')
    (hlock : (s'.calls e.slot).inFlight = some lock) :
    (s.calls e.slot).inFlight = some lock ∨ target e = some lock := by
  unfold Direct.step at h
  cases e with
  | tryLock t k ttl | lock t k ttl | unlock t k =>
    right
    dsimp only at h
    repeat' split at h
    all_goals cases h
    all_goals simp_all [Direct.Event.slot, Direct.Call.inFlight, target]
  | _ =>
    left
    dsimp only at h
    repeat' split at h
    all_goals cases h
    all_goals simp_all [Direct.Event.slot, Direct.Call.inFlight]

/-- The entry of a lock and its history are the same. -/
def Same (lock : Key) (s s' : Direct.State τ) : Prop :=
  s'.locks lock = s.locks lock ∧ s'.acquired lock = s.acquired lock ∧ s'.closed lock = s.closed lock

/-- A step of a call on another lock. -/
theorem same_of_effect (h : Direct.Effect s t s') (hfrom : (s.calls t).inFlight ≠ some lock)
    (hto : (s'.calls t).inFlight ≠ some lock) : Same lock s s' := by
  cases h with
  | quiet c hclaim hret => exact ⟨rfl, rfl, rfl⟩
  | reserve k c hfree hidle hclaim =>
    dsimp only at hto
    rw [update_self, Direct.Call.inFlight_of_reserving hclaim] at hto
    exact ⟨update_of_ne (fun heq => hto (congrArg some heq.symm)) _ _, rfl, rfl⟩
  | beginRelease k c hheld hidle hclaim =>
    dsimp only at hto
    rw [update_self, Direct.Call.inFlight_of_releasing hclaim] at hto
    exact ⟨update_of_ne (fun heq => hto (congrArg some heq.symm)) _ _, rfl, rfl⟩
  | grant k hown =>
    rw [Direct.Call.inFlight_of_reserving hown] at hfrom
    have hne : lock ≠ k := fun heq => hfrom (congrArg some heq.symm)
    exact ⟨update_of_ne hne _ _, update_of_ne hne _ _, rfl⟩
  | abandon k locked err hown hfail =>
    rw [Direct.Call.inFlight_of_reserving hown] at hfrom
    exact ⟨update_of_ne (fun heq => hfrom (congrArg some heq.symm)) _ _, rfl, rfl⟩
  | close k hown =>
    rw [Direct.Call.inFlight_of_releasing hown] at hfrom
    have hne : lock ≠ k := fun heq => hfrom (congrArg some heq.symm)
    exact ⟨update_of_ne hne _ _, rfl, update_of_ne hne _ _⟩
  | restore k err hown =>
    rw [Direct.Call.inFlight_of_releasing hown] at hfrom
    exact ⟨update_of_ne (fun heq => hfrom (congrArg some heq.symm)) _ _, rfl, rfl⟩

/-- The step sets the entry of a lock and its history, and those of no other lock. -/
structure Sets (lock : Key) (s s' : Direct.State τ) (status : Option Direct.Status)
    (acquired closed : Nat) : Prop where
  status : s'.locks lock = status
  acquired : s'.acquired lock = acquired
  closed : s'.closed lock = closed
  others : ∀ k, k ≠ lock → Same k s s'

/-- What happens to a reservation. -/
theorem effect_reserving (h : Direct.Effect s t s') (hown : (s.calls t).claim = .reserving lock) :
    ((s'.calls t).claim = .reserving lock ∧ ∀ k, Same k s s') ∨
    (s'.calls t = .done (.acquire lock true none) ∧
      Sets lock s s' (some .held) (s.acquired lock + 1) (s.closed lock)) ∨
    ∃ locked err, Answer.succeeded ⟨locked, err⟩ = false ∧
      s'.calls t = .done (.acquire lock locked err) ∧
      Sets lock s s' none (s.acquired lock) (s.closed lock) := by
  cases h with
  | quiet c hclaim hret =>
    rw [Direct.State.put_calls]
    exact Or.inl ⟨hclaim.trans hown, fun _ => ⟨rfl, rfl, rfl⟩⟩
  | grant k hk =>
    cases hown.symm.trans hk
    exact Or.inr (Or.inl ⟨update_self _ _ _, update_self _ _ _,
      update_self _ _ _, rfl, fun k hne =>
        ⟨update_of_ne hne _ _, update_of_ne hne _ _, rfl⟩⟩)
  | abandon k locked err hk hfail =>
    cases hown.symm.trans hk
    exact Or.inr (Or.inr ⟨locked, err, hfail, update_self _ _ _,
      update_self _ _ _, rfl, rfl, fun k hne =>
        ⟨update_of_ne hne _ _, rfl, rfl⟩⟩)
  | reserve k c hfree hidle hclaim | beginRelease k c hheld hidle hclaim =>
    cases hown.symm.trans hidle
  | close k hk | restore k err hk => cases hown.symm.trans hk

/-- What happens to a release. -/
theorem effect_releasing (h : Direct.Effect s t s') (hown : (s.calls t).claim = .releasing lock) :
    ((s'.calls t).claim = .releasing lock ∧ ∀ k, Same k s s') ∨
    ∃ err, s'.calls t = .done (.unlock lock err) ∧
      (Sets lock s s' none (s.acquired lock) (s.closed lock + 1) ∨
        Sets lock s s' (some .held) (s.acquired lock) (s.closed lock)) := by
  cases h with
  | quiet c hclaim hret =>
    rw [Direct.State.put_calls]
    exact Or.inl ⟨hclaim.trans hown, fun _ => ⟨rfl, rfl, rfl⟩⟩
  | close k hk =>
    cases hown.symm.trans hk
    exact Or.inr ⟨none, update_self _ _ _, Or.inl ⟨update_self _ _ _, rfl,
      update_self _ _ _, fun k hne =>
        ⟨update_of_ne hne _ _, rfl, update_of_ne hne _ _⟩⟩⟩
  | restore k err hk =>
    cases hown.symm.trans hk
    exact Or.inr ⟨some err, update_self _ _ _, Or.inr ⟨update_self _ _ _, rfl,
      rfl, fun k hne => ⟨update_of_ne hne _ _, rfl, rfl⟩⟩⟩
  | reserve k c hfree hidle hclaim | beginRelease k c hheld hidle hclaim =>
    cases hown.symm.trans hidle
  | grant k hk | abandon k locked err hk hfail => cases hown.symm.trans hk

/-- `TryLock` is refused at once, or reserves a lock without an entry. -/
theorem tryLock_cases {ttl : Duration} (h : Direct.step cfg s (.tryLock t lock ttl) = some s') :
    ((∃ err, s'.calls t = .done (.acquire lock false err)) ∧ (∀ k, Same k s s') ∧
      (cfg.ownerErr = none → s.locks lock ≠ none)) ∨
    (s.locks lock = none ∧ s'.calls t = .reserved .tryLock lock ttl ∧
      Sets lock s s' (some .acquiring) (s.acquired lock) (s.closed lock)) := by
  simp only [Direct.step, Option.ite_none_right_eq_some] at h
  rcases h with ⟨-, h⟩
  cases howner : cfg.ownerErr with
  | some err =>
    simp only [howner, Option.some.injEq] at h
    subst h
    exact Or.inl ⟨⟨some err, Direct.State.put_calls _ _ _⟩, fun _ => ⟨rfl, rfl, rfl⟩,
      fun hnone => absurd hnone (Option.some_ne_none err)⟩
  | none =>
    cases hentry : s.locks lock with
    | none =>
      simp only [howner, Direct.beginAcquire, hentry, Option.some.injEq] at h
      subst h
      exact Or.inr ⟨rfl, Direct.State.put_calls _ _ _, update_self _ _ _, rfl, rfl,
        fun k hne => ⟨update_of_ne hne _ _, rfl, rfl⟩⟩
    | some status =>
      simp only [howner, Direct.beginAcquire, hentry, Option.some.injEq] at h
      subst h
      exact Or.inl ⟨⟨none, Direct.State.put_calls _ _ _⟩, fun _ => ⟨rfl, rfl, rfl⟩,
        fun _ => Option.some_ne_none status⟩

/-- `Unlock` takes a held entry for release, or returns at once. -/
theorem unlock_cases (h : Direct.step cfg s (.unlock t lock) = some s') :
    (s.locks lock = some .held ∧ s'.calls t = .closing lock ∧
      Sets lock s s' (some .releasing) (s.acquired lock) (s.closed lock)) ∨
    (s.locks lock ≠ some .held ∧ s'.calls t = .done (.unlock lock none) ∧ ∀ k, Same k s s') := by
  simp only [Direct.step, Option.ite_none_right_eq_some] at h
  rcases h with ⟨-, h⟩
  by_cases hheld : s.locks lock = some .held
  · simp only [Direct.beginRelease, hheld, ne_eq, not_true_eq_false, if_false,
      Option.some.injEq] at h
    subst h
    exact Or.inl ⟨hheld, Direct.State.put_calls _ _ _, update_self _ _ _, rfl, rfl,
      fun k hne => ⟨update_of_ne hne _ _, rfl, rfl⟩⟩
  · simp only [Direct.beginRelease, ne_eq, hheld, not_false_eq_true, if_true,
      Option.some.injEq] at h
    subst h
    exact Or.inr ⟨hheld, Direct.State.put_calls _ _ _, fun _ => ⟨rfl, rfl, rfl⟩⟩

/-- The steps in which a call goes on with its claim. -/
def goesOn : Direct.Event τ → Bool
  | .attempt _ | .acquireAnswer _ _ | .settle _ | .release _ | .releaseAnswer _ _
  | .finish _ => true
  | _ => false

/-- Such a step is one of a call with a claim. -/
theorem claim_of_goesOn {e : Direct.Event τ} (h : Direct.step cfg s e = some s')
    (he : goesOn e = true) : (s.calls e.slot).claim ≠ .none := by
  unfold Direct.step at h
  cases e with
  | attempt t | acquireAnswer t a | settle t | release t | releaseAnswer t a | finish t =>
    dsimp only at h
    split at h
    all_goals first | cases h; done | simp_all [Direct.Event.slot, Direct.Call.claim]
  | _ => cases he

end Calls

/-! ## The lock of one key and its tenants -/

/-- The phase that an entry stands for. -/
def phaseOf : Option Direct.Status → Mode
  | none => .free
  | some .acquiring => .acquiring
  | some .held => .held
  | some .releasing => .releasing

/-- Different entries stand for different phases. -/
theorem phaseOf_injective : Injective phaseOf := by
  intro a b h
  rcases a with - | (- | - | -) <;> rcases b with - | (- | - | -) <;> first | rfl | cases h

/-- What a slot does with the refresh lock of a key. -/
def stageOf (key : Key) : Job γ → Direct.Call → Stage
  | .locking r, .done (.acquire _ locked err) =>
    if r.key = key ∧ Answer.succeeded ⟨locked, err⟩ = true then .granted else .apart
  | .loading r, _ => if r.key = key then .working else .apart
  | .writing r true _, _ => if r.key = key then .working else .apart
  | .writingMeta r true, _ => if r.key = key then .working else .apart
  | .leaving r, _ => if r.key = key then .leaving else .apart
  | _, _ => .apart

/-- The refresh lock of a key, with its history and its tenants. -/
def tenancy (key : Key) (w : World γ τ) : Tenancy τ where
  phase := phaseOf (w.direct.locks (refreshLockKey key))
  granted := w.direct.acquired (refreshLockKey key)
  closed := w.direct.closed (refreshLockKey key)
  stage t := stageOf key (w.jobs t) (w.direct.calls t)

/-- How the phase of a slot and its call on the lock map go together. -/
def Fits (lock : Key) (j : Job γ) (c : Direct.Call) : Prop :=
  match j with
  | .locking r =>
    c.claim = .reserving (refreshLockKey r.key) ∨
      ∃ locked err, c = .done (.acquire (refreshLockKey r.key) locked err)
  | .unlocking r =>
    c.claim = .releasing (refreshLockKey r.key) ∨
      ∃ err, c = .done (.unlock (refreshLockKey r.key) err)
  | _ => c.inFlight ≠ some lock

section

omit [DecidableEq τ]

theorem fits_of_outside {lock : Key} {j : Job γ} (hj : j.inside = false) (c : Direct.Call) :
    Fits lock j c ↔ c.inFlight ≠ some lock := by
  cases j with
  | locking r | unlocking r => cases hj
  | _ => rfl

/-- Between calls on the map the stage does not depend on the call. -/
theorem stageOf_outside (key : Key) {j : Job γ} (hj : j.inside = false) (c c' : Direct.Call) :
    stageOf key j c = stageOf key j c' := by
  cases j with
  | locking r | unlocking r => cases hj
  | writing r async value => cases async <;> rfl
  | writingMeta r async => cases async <;> rfl
  | _ => rfl

/-- A call that goes on was not granted anything yet. -/
theorem stageOf_locking (key : Key) (r : Request γ) {c : Direct.Call} (hc : c.claim ≠ .none) :
    stageOf key (.locking r) c = .apart := by
  cases c with
  | done result => exact absurd rfl hc
  | _ => rfl

theorem stageOf_unlocking (key : Key) (r : Request γ) (c : Direct.Call) :
    stageOf key (.unlocking r) c = .apart := rfl

/-- The invariant for one key. -/
structure Inv (key : Key) (w : World γ τ) : Prop where
  direct : Direct.Inv w.direct
  fits : ∀ t, Fits (refreshLockKey key) (w.jobs t) (w.direct.calls t)
  sound : (tenancy key w).Sound

/-- A new Cache satisfies the invariant. -/
theorem World.Initial.inv {w : World γ τ} (h : w.Initial) (key : Key) : Inv key w where
  direct := by
    rw [h.direct]
    exact Direct.inv_initial
  fits t := by
    rw [h.jobs, h.direct, fits_of_outside rfl]
    exact fun hnone => nomatch hnone
  sound := by
    refine Tenancy.sound_of_vacant (fun t => ?_) ?_
    · change stageOf key (w.jobs t) _ = _
      rw [h.jobs]
      rfl
    · unfold tenancy
      rw [h.direct]
      rfl

end

/-- The phases in which a slot reserves the refresh lock of a key, or gives up its grant. -/
def Cause (key : Key) (j : Job γ) : Act → Prop
  | .reserve => ∃ r, j = .spawned r ∧ r.key = key
  | .skip => ∃ r, j = .locking r ∧ r.hasLoader = false
  | _ => True

/-- What a step of slot `t` does to the refresh lock of a key: nothing, or a step of a
tenancy. -/
def Moves (key : Key) (w w' : World γ τ) (t : τ) : Prop :=
  tenancy key w' = tenancy key w ∨
    ∃ a, Tenancy.Step t (tenancy key w) a (tenancy key w') ∧ Cause key (w.jobs t) a

section Moves

variable {key : Key} {w : World γ τ} {t : τ} {d : Direct.State τ} {j : Job γ} {r : Request γ}
  {cfg : Direct.Config}

/-- The tenancy after a step of one slot. -/
theorem tenancy_after (hcalls : ∀ u, u ≠ t → d.calls u = w.direct.calls u) {p : Mode} {g n : Nat}
    {stage : Stage} (hphase : phaseOf (d.locks (refreshLockKey key)) = p)
    (hgranted : d.acquired (refreshLockKey key) = g) (hclosed : d.closed (refreshLockKey key) = n)
    (hstage : stageOf key j (d.calls t) = stage) :
    tenancy key ⟨d, update w.jobs t j⟩ = ⟨p, g, n, update (tenancy key w).stage t stage⟩ := by
  unfold tenancy
  rw [← hphase, ← hgranted, ← hclosed, ← hstage]
  congr 1
  funext u
  dsimp only
  by_cases hu : u = t
  · rw [hu, update_self, update_self]
  · rw [update_of_ne hu, update_of_ne hu, hcalls u hu]

/-- A step that does not change the stage. -/
theorem tenancy_still (hcalls : ∀ u, u ≠ t → d.calls u = w.direct.calls u) {p : Mode} {g n : Nat}
    (hphase : phaseOf (d.locks (refreshLockKey key)) = p)
    (hgranted : d.acquired (refreshLockKey key) = g) (hclosed : d.closed (refreshLockKey key) = n)
    (hstage : stageOf key j (d.calls t) = stageOf key (w.jobs t) (w.direct.calls t)) :
    tenancy key ⟨d, update w.jobs t j⟩ = ⟨p, g, n, (tenancy key w).stage⟩ := by
  rw [tenancy_after hcalls hphase hgranted hclosed hstage]
  change Tenancy.mk _ _ _ (update (tenancy key w).stage t ((tenancy key w).stage t)) = _
  rw [update_eq_self]

/-- A step that changes neither the entry nor the stage. -/
theorem tenancy_same (hcalls : ∀ u, u ≠ t → d.calls u = w.direct.calls u)
    (hsame : Same (refreshLockKey key) w.direct d)
    (hstage : stageOf key j (d.calls t) = stageOf key (w.jobs t) (w.direct.calls t)) :
    tenancy key ⟨d, update w.jobs t j⟩ = tenancy key w :=
  tenancy_still hcalls (congrArg phaseOf hsame.1) hsame.2.1 hsame.2.2 hstage

/-- The stages that a slot in phase `j` passes between its calls on the map. -/
inductive Passes (j : Job γ) : Stage → Stage → Prop where
  | same (s : Stage) : Passes j s s
  | start : Passes j .granted .working
  | skip (r : Request γ) (hj : j = .locking r) (hloader : r.hasLoader = false) :
      Passes j .granted .leaving
  | finish : Passes j .working .leaving

omit [DecidableEq τ] in
/-- A goroutine that ends its work passes on, if it is one of the key. -/
theorem passes_finish (key : Key) (r : Request γ) (j : Job γ) :
    Passes j (if r.key = key then .working else .apart)
      (if r.key = key then .leaving else .apart) := by
  by_cases hkey : r.key = key
  · rw [if_pos hkey, if_pos hkey]
    exact .finish
  · rw [if_neg hkey, if_neg hkey]
    exact .same _

/-- A step that leaves the lock map alone. -/
theorem moves_put (hpass : Passes (w.jobs t) (stageOf key (w.jobs t) (w.direct.calls t))
      (stageOf key j (w.direct.calls t))) : Moves key w (w.put t j) t := by
  have hafter : tenancy key (w.put t j) = { tenancy key w with
      stage := update (tenancy key w).stage t (stageOf key j (w.direct.calls t)) } :=
    tenancy_after (fun _ _ => rfl) rfl rfl rfl rfl
  generalize hto : stageOf key j (w.direct.calls t) = stage' at hpass hafter
  generalize hfrom : stageOf key (w.jobs t) (w.direct.calls t) = stage at hpass
  cases hpass with
  | same _ => exact Or.inl (tenancy_same (fun _ _ => rfl) ⟨rfl, rfl, rfl⟩ (hto.trans hfrom.symm))
  | start =>
    right
    rw [hafter]
    exact ⟨.start, .start hfrom, trivial⟩
  | skip r hj hloader =>
    right
    rw [hafter]
    exact ⟨.skip, .skip hfrom, r, hj, hloader⟩
  | finish =>
    right
    rw [hafter]
    exact ⟨.finish, .finish hfrom, trivial⟩

omit [DecidableEq τ] in
/-- The lock of another key is not set. -/
theorem Sets.same_of_ne {s s' : Direct.State τ} {status : Option Direct.Status}
    {acquired closed : Nat} (h : Sets (refreshLockKey r.key) s s' status acquired closed)
    (hkey : r.key ≠ key) : Same (refreshLockKey key) s s' :=
  h.others _ fun heq => hkey (refreshLockKey_injective heq).symm

/-- A reservation goes on, is granted or is abandoned. -/
theorem moves_locking (hw : Inv key w) (hj : w.jobs t = .locking r)
    (hown : (w.direct.calls t).claim = .reserving (refreshLockKey r.key))
    (heffect : Direct.Effect w.direct t d) :
    Fits (refreshLockKey key) (.locking r) (d.calls t) ∧
      Moves key w ⟨d, update w.jobs t (.locking r)⟩ t := by
  have hcalls : ∀ u, u ≠ t → d.calls u = w.direct.calls u := fun u hu => heffect.calls_of_ne hu
  have hapart : stageOf key (w.jobs t) (w.direct.calls t) = .apart := by
    rw [hj]
    exact stageOf_locking key r (by rw [hown]; exact fun h => nomatch h)
  have hphase : r.key = key → (tenancy key w).phase = .acquiring := by
    rintro rfl
    exact congrArg phaseOf (hw.direct.locks_of_reserving hown)
  rcases effect_reserving heffect hown with
    ⟨hclaim, hsame⟩ | ⟨hcall, hsets⟩ | ⟨locked, err, hfail, hcall, hsets⟩
  · refine ⟨Or.inl hclaim, Or.inl (tenancy_same hcalls (hsame _) ?_)⟩
    rw [hapart]
    exact stageOf_locking key r (by rw [hclaim]; exact fun h => nomatch h)
  · refine ⟨Or.inr ⟨_, _, hcall⟩, ?_⟩
    by_cases hkey : r.key = key
    · subst hkey
      have hstage : stageOf r.key (.locking r) (d.calls t) = .granted := by
        rw [hcall]
        exact if_pos ⟨rfl, rfl⟩
      refine Or.inr ⟨.grant, ?_, trivial⟩
      rw [tenancy_after hcalls (congrArg phaseOf hsets.status) hsets.acquired hsets.closed hstage]
      exact .grant (hphase rfl)
    · refine Or.inl (tenancy_same hcalls (hsets.same_of_ne hkey) ?_)
      rw [hapart, hcall]
      exact if_neg fun h => hkey h.1
  · have hstage : stageOf key (.locking r) (d.calls t) =
        stageOf key (w.jobs t) (w.direct.calls t) := by
      rw [hapart, hcall]
      exact if_neg fun h => Bool.false_ne_true (hfail.symm.trans h.2)
    refine ⟨Or.inr ⟨_, _, hcall⟩, ?_⟩
    by_cases hkey : r.key = key
    · subst hkey
      refine Or.inr ⟨.abandon, ?_, trivial⟩
      rw [tenancy_still hcalls (congrArg phaseOf hsets.status) hsets.acquired hsets.closed hstage]
      exact .abandon (hphase rfl)
    · exact Or.inl (tenancy_same hcalls (hsets.same_of_ne hkey) hstage)

/-- A release goes on, closes the lifecycle or restores it. -/
theorem moves_unlocking (hw : Inv key w) (hj : w.jobs t = .unlocking r)
    (hown : (w.direct.calls t).claim = .releasing (refreshLockKey r.key))
    (heffect : Direct.Effect w.direct t d) :
    Fits (refreshLockKey key) (.unlocking r) (d.calls t) ∧
      Moves key w ⟨d, update w.jobs t (.unlocking r)⟩ t := by
  have hcalls : ∀ u, u ≠ t → d.calls u = w.direct.calls u := fun u hu => heffect.calls_of_ne hu
  have hstage : stageOf key (.unlocking r) (d.calls t) =
      stageOf key (w.jobs t) (w.direct.calls t) := by
    rw [hj]
    rfl
  have hphase : r.key = key → (tenancy key w).phase = .releasing := by
    rintro rfl
    exact congrArg phaseOf (hw.direct.locks_of_releasing hown)
  rcases effect_releasing heffect hown with ⟨hclaim, hsame⟩ | ⟨err, hcall, hsets⟩
  · exact ⟨Or.inl hclaim, Or.inl (tenancy_same hcalls (hsame _) hstage)⟩
  · refine ⟨Or.inr ⟨_, hcall⟩, ?_⟩
    by_cases hkey : r.key = key
    · subst hkey
      right
      rcases hsets with hsets | hsets
      · refine ⟨.close, ?_, trivial⟩
        rw [tenancy_still hcalls (congrArg phaseOf hsets.status) hsets.acquired hsets.closed hstage]
        exact .close (hphase rfl)
      · refine ⟨.restore, ?_, trivial⟩
        rw [tenancy_still hcalls (congrArg phaseOf hsets.status) hsets.acquired hsets.closed hstage]
        exact .restore (hphase rfl)
    · have hsame : Same (refreshLockKey key) w.direct d := by
        rcases hsets with hsets | hsets
        · exact hsets.same_of_ne hkey
        · exact hsets.same_of_ne hkey
      exact Or.inl (tenancy_same hcalls hsame hstage)

theorem moves_tryLock (hj : w.jobs t = .spawned r) {ttl : Duration}
    (h : Direct.step cfg w.direct (.tryLock t (refreshLockKey r.key) ttl) = some d) :
    Fits (refreshLockKey key) (.locking r) (d.calls t) ∧
      Moves key w ⟨d, update w.jobs t (.locking r)⟩ t := by
  have hcalls : ∀ u, u ≠ t → d.calls u = w.direct.calls u :=
    fun u hu => (Direct.step_effect h).calls_of_ne hu
  have hapart : stageOf key (w.jobs t) (w.direct.calls t) = .apart := by
    rw [hj]
    rfl
  rcases tryLock_cases h with ⟨⟨err, hcall⟩, hsame, -⟩ | ⟨hfree, hcall, hsets⟩
  · refine ⟨Or.inr ⟨_, _, hcall⟩, Or.inl (tenancy_same hcalls (hsame _) ?_)⟩
    rw [hapart, hcall]
    exact if_neg fun h => Bool.false_ne_true ((Direct.succeeded_false err).symm.trans h.2)
  · have hstage : stageOf key (.locking r) (d.calls t) =
        stageOf key (w.jobs t) (w.direct.calls t) := by
      rw [hapart, hcall]
      rfl
    refine ⟨Or.inl (congrArg Direct.Call.claim hcall), ?_⟩
    by_cases hkey : r.key = key
    · subst hkey
      refine Or.inr ⟨.reserve, ?_, r, hj, rfl⟩
      rw [tenancy_still hcalls (congrArg phaseOf hsets.status) hsets.acquired hsets.closed hstage]
      exact .reserve (congrArg phaseOf hfree)
    · exact Or.inl (tenancy_same hcalls (hsets.same_of_ne hkey) hstage)

/-- A goroutine calls `Unlock`: its entry is still held. -/
theorem moves_unlock (hw : Inv key w) (hj : w.jobs t = .leaving r)
    (h : Direct.step cfg w.direct (.unlock t (refreshLockKey r.key)) = some d) :
    Fits (refreshLockKey key) (.unlocking r) (d.calls t) ∧
      Moves key w ⟨d, update w.jobs t (.unlocking r)⟩ t := by
  have hcalls : ∀ u, u ≠ t → d.calls u = w.direct.calls u :=
    fun u hu => (Direct.step_effect h).calls_of_ne hu
  by_cases hkey : r.key = key
  · subst hkey
    have hleaving : (tenancy r.key w).stage t = .leaving := by
      change stageOf r.key (w.jobs t) _ = _
      rw [hj]
      exact if_pos rfl
    have hphase : phaseOf (w.direct.locks (refreshLockKey r.key)) = .held :=
      hw.sound.held t (by rw [hleaving]; decide)
    rcases unlock_cases h with ⟨-, hcall, hsets⟩ | ⟨hnot, -, -⟩
    · refine ⟨Or.inl (congrArg Direct.Call.claim hcall), Or.inr ⟨.release, ?_, trivial⟩⟩
      rw [tenancy_after hcalls (congrArg phaseOf hsets.status) hsets.acquired hsets.closed
        (stageOf_unlocking r.key r _)]
      exact .release hleaving
    · exact absurd (phaseOf_injective hphase) hnot
  · have hstage : stageOf key (.unlocking r) (d.calls t) =
        stageOf key (w.jobs t) (w.direct.calls t) := by
      rw [hj]
      exact (if_neg hkey).symm
    rcases unlock_cases h with ⟨-, hcall, hsets⟩ | ⟨-, hcall, hsame⟩
    · exact ⟨Or.inl (congrArg Direct.Call.claim hcall),
        Or.inl (tenancy_same hcalls (hsets.same_of_ne hkey) hstage)⟩
    · exact ⟨Or.inr ⟨_, hcall⟩, Or.inl (tenancy_same hcalls (hsame _) hstage)⟩

/-- Others call on other locks. -/
theorem moves_other (hw : Inv key w) {e : Direct.Event τ} (hj : (w.jobs e.slot).inside = false)
    (hspares : target e ≠ some (refreshLockKey key)) (h : Direct.step cfg w.direct e = some d) :
    Fits (refreshLockKey key) (w.jobs e.slot) (d.calls e.slot) ∧
      Moves key w ⟨d, w.jobs⟩ e.slot := by
  have heffect := Direct.step_effect h
  have hfrom := (fits_of_outside hj _).mp (hw.fits e.slot)
  have hto : (d.calls e.slot).inFlight ≠ some (refreshLockKey key) := by
    intro hflight
    rcases inFlight_step h hflight with hbefore | htarget
    · exact hfrom hbefore
    · exact hspares htarget
  refine ⟨(fits_of_outside hj _).mpr hto, Or.inl ?_⟩
  have hsame := tenancy_same (fun u hu => heffect.calls_of_ne hu)
    (same_of_effect heffect hfrom hto) (stageOf_outside key hj (d.calls e.slot) _)
  rwa [update_eq_self] at hsame

end Moves

end Background
end Lock
end GoforjCache
