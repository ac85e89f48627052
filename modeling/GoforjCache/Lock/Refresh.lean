import GoforjCache.Lock.DirectLocks
import GoforjCache.Memory.Store

/-!
# Locks - Background refresh and its lock lifecycle

`RefreshAheadBytes` answers a hit at once and may start a goroutine that takes the
refresh lock of the key with `TryLock`, runs the loader, writes value and metadata,
and gives the lock back with `Unlock`.  The loader and the writes use the background
context; `TryLock` and `Unlock` use the context the Cache is bound to, which may
be cancelled at any moment.  The store is any store that fails a call made with a
cancelled context without changing state and otherwise succeeds.

Main results:

- Theorem `refresh_closes_lifecycle`: if no context is cancelled while a refresh
  through it holds the lock in the backend, then a refresh that has ended leaves no entry
  in `cacheDirectLocks`, and the next one reaches the backend.
- Theorem `refresh_leaks_lifecycle`: a cancellation in that window leaves the entry
  held for good.
-/

namespace GoforjCache
namespace Lock
namespace Refresh

open Function Foundation Foundation.Transition
open Direct (Answer)

/-! ## Requests and goroutines -/

/-- `refreshMetaSuffix` appended to a key. -/
def metaKey (key : Key) : Key := key ++ ascii ":__refresh_exp"

/-- `refreshLockPrefix + key`. -/
def refreshLockKey (key : Key) : Key := ascii "__refresh_lock:" ++ key

/-- Distinct keys have distinct refresh locks. -/
theorem refreshLockKey_injective : Injective refreshLockKey := by
  intro a b h
  exact List.append_cancel_left h

/-- `time.Until` of a nanosecond timestamp, which saturates at the ends of
`time.Duration`. -/
def timeUntil (now : Instant) (expiresAt : Int64) : Int :=
  max (-2 ^ 63) (min (2 ^ 63 - 1) (expiresAt.toInt - now))

/-- The arguments of `RefreshAheadBytes`, the context `γ` its Cache is bound
to, and whether a loader was given. -/
structure Request (γ : Type) where
  key : Key
  ttl : Duration
  refreshAhead : Duration
  ctx : γ
  hasLoader : Bool
deriving DecidableEq

/-- Where a request is.  The first phases run in the caller, those from `spawned` on
in the goroutine; `async` tells on whose behalf a write is made. -/
inductive Job (γ : Type) where
  | idle
  | called (r : Request γ)
  | found (r : Request γ)
  | missed (r : Request γ)
  | spawned (r : Request γ)
  /-- Inside `TryLock`. -/
  | locking (r : Request γ)
  | loading (r : Request γ)
  | writing (r : Request γ) (async : Bool) (value : Bytes)
  | writingMeta (r : Request γ) (async : Bool)
  /-- The deferred `Unlock` is next. -/
  | leaving (r : Request γ)
  /-- Inside `Unlock`. -/
  | unlocking (r : Request γ)
  | done
deriving DecidableEq

/-- The key of a goroutine between the start of `TryLock` and its end. -/
def Job.running {γ : Type} : Job γ → Option Key
  | locking r => some r.key
  | loading r => some r.key
  | writing r true _ => some r.key
  | writingMeta r true => some r.key
  | leaving r => some r.key
  | unlocking r => some r.key
  | _ => none

/-- The calls the refresh makes on a store, at an instant and with a live context. -/
structure Backend (σ : Type) where
  get : σ → Instant → Key → Option Bytes
  set : σ → Instant → Key → Bytes → Duration → σ
  lockAcquire : σ → Instant → Key → Bytes → Duration → σ × Bool
  lockRelease : σ → Instant → Key → Bytes → σ × Bool

/-- What is fixed: the store, the owner token or its failure, the default lifetime. -/
structure Config (σ : Type) where
  backend : Backend σ
  direct : Direct.Config
  token : Bytes
  defaultTTL : DefaultTTL

/-- One Cache with all its clones: the lock map, one request per slot, which contexts are
cancelled, the store and the clock. -/
structure World (γ τ σ : Type) where
  direct : Direct.State τ
  jobs : τ → Job γ
  cancelled : γ → Bool
  store : σ
  now : Instant

/-- The steps of the slots, of the contexts and of the clock.  `load` carries what
the loader returns, `write` an error a write may meet. -/
inductive Event (γ τ : Type) where
  | call (t : τ) (r : Request γ)
  | lookup (t : τ)
  | inspect (t : τ)
  | tryLock (t : τ)
  | attempt (t : τ)
  | acquire (t : τ)
  | settle (t : τ)
  | resume (t : τ)
  | load (t : τ) (result : Except CacheError Bytes)
  | write (t : τ) (err : Option CacheError)
  | unlock (t : τ)
  | release (t : τ)
  | releaseCall (t : τ)
  | finish (t : τ)
  | cancel (c : γ)
  | tick (d : Nat)

variable {γ τ σ : Type} [DecidableEq γ] [DecidableEq τ]

/-- Move one slot to a new phase. -/
def World.put (w : World γ τ σ) (t : τ) (j : Job γ) : World γ τ σ :=
  { w with jobs := update w.jobs t j }

/-- A step of the lock map by slot `t`, which then is in phase `j`. -/
def World.lockStep (cfg : Config σ) (w : World γ τ σ) (e : Direct.Event τ) (t : τ) (j : Job γ) :
    Option (World γ τ σ) :=
  match Direct.step cfg.direct w.direct e with
  | none => none
  | some direct => some { w with direct := direct, jobs := update w.jobs t j }

/-- Where a write that ended leads: the goroutine leaves, the caller returns. -/
def afterWrite (r : Request γ) (async : Bool) : Job γ :=
  if async then .leaving r else .done

/-- One step, from `refreshAheadBytes`, `maybeTriggerRefreshAhead` and
`setRefreshAheadValue`. -/
def step (cfg : Config σ) (w : World γ τ σ) : Event γ τ → Option (World γ τ σ)
  | .call t r =>
    match w.jobs t with
    | .idle | .done =>
      if r.ttl ≤ 0 ∨ r.refreshAhead ≤ 0 then some (w.put t .done)
      else some (w.put t (.called r))
    | _ => none
  | .lookup t =>
    match w.jobs t with
    | .called r =>
      if w.cancelled r.ctx then some (w.put t .done)
      else
        match cfg.backend.get w.store w.now r.key with
        | some _ => some (w.put t (.found r))
        | none => some (w.put t (.missed r))
    | _ => none
  | .inspect t =>
    match w.jobs t with
    | .found r =>
      match (cfg.backend.get w.store w.now (metaKey r.key)).bind Decimal.parseInt with
      | none => some (w.put t .done)
      | some expiresAt =>
        if r.refreshAhead.toInt < timeUntil w.now expiresAt then some (w.put t .done)
        else some (w.put t (.spawned r))
    | _ => none
  | .tryLock t =>
    match w.jobs t with
    | .spawned r =>
      w.lockStep cfg (.tryLock t (refreshLockKey r.key) r.refreshAhead) t (.locking r)
    | _ => none
  | .attempt t =>
    match w.jobs t with
    | .locking r => w.lockStep cfg (.attempt t) t (.locking r)
    | _ => none
  | .acquire t =>
    match w.jobs t, w.direct.calls t with
    | .locking r, .attempting _ key ttl =>
      if w.cancelled r.ctx then
        w.lockStep cfg (.acquireAnswer t ⟨false, some .contextDone⟩) t (.locking r)
      else
        let a := cfg.backend.lockAcquire w.store w.now (lockKey key) cfg.token ttl
        { w with store := a.1 }.lockStep cfg (.acquireAnswer t ⟨a.2, none⟩) t (.locking r)
    | _, _ => none
  | .settle t =>
    match w.jobs t with
    | .locking r => w.lockStep cfg (.settle t) t (.locking r)
    | _ => none
  | .resume t =>
    match w.jobs t, w.direct.calls t with
    | .locking r, .done (.acquire _ locked err) =>
      if Answer.succeeded ⟨locked, err⟩ then
        -- a missing loader ends the goroutine with the lock in its hands
        if r.hasLoader then some (w.put t (.loading r)) else some (w.put t (.leaving r))
      else some (w.put t .done)
    | .unlocking _, .done (.unlock _ _) => some (w.put t .done)
    | _, _ => none
  | .load t result =>
    match w.jobs t with
    | .loading r =>
      match result with
      | .error _ => some (w.put t (.leaving r))
      | .ok value => some (w.put t (.writing r true value))
    | .missed r =>
      match r.hasLoader, result with
      | true, .ok value => some (w.put t (.writing r false value))
      | _, _ => some (w.put t .done)
    | _ => none
  | .write t err =>
    match w.jobs t with
    | .writing r async value =>
      if err.isSome ∨ (async = false ∧ w.cancelled r.ctx) then
        some (w.put t (afterWrite r async))
      else
        some ({ w with
          store := cfg.backend.set w.store w.now r.key value
            (cfg.defaultTTL.resolve r.ttl) }.put t (.writingMeta r async))
    | .writingMeta r async =>
      if err.isSome ∨ (async = false ∧ w.cancelled r.ctx) then
        some (w.put t (afterWrite r async))
      else
        let expiresAt := unixNano (w.now + (cfg.defaultTTL.resolve r.ttl).toInt)
        some ({ w with
          store := cfg.backend.set w.store w.now (metaKey r.key)
            (Decimal.formatInt expiresAt) (cfg.defaultTTL.resolve r.ttl) }.put t
              (afterWrite r async))
    | _ => none
  | .unlock t =>
    match w.jobs t with
    | .leaving r => w.lockStep cfg (.unlock t (refreshLockKey r.key)) t (.unlocking r)
    | _ => none
  | .release t =>
    match w.jobs t with
    | .unlocking r => w.lockStep cfg (.release t) t (.unlocking r)
    | _ => none
  | .releaseCall t =>
    match w.jobs t, w.direct.calls t with
    | .unlocking r, .unlocking key =>
      if w.cancelled r.ctx then
        w.lockStep cfg (.releaseAnswer t ⟨false, some .contextDone⟩) t (.unlocking r)
      else
        let a := cfg.backend.lockRelease w.store w.now (lockKey key) cfg.token
        { w with store := a.1 }.lockStep cfg (.releaseAnswer t ⟨a.2, none⟩) t (.unlocking r)
    | _, _ => none
  | .finish t =>
    match w.jobs t with
    | .unlocking r => w.lockStep cfg (.finish t) t (.unlocking r)
    | _ => none
  | .cancel c => some { w with cancelled := update w.cancelled c true }
  | .tick d => some { w with now := w.now + d }

/-- A new Cache, with any contexts, any store and any instant. -/
structure World.Initial (w : World γ τ σ) : Prop where
  direct : w.direct = Direct.State.initial
  jobs : ∀ t, w.jobs t = .idle

/-! ## The window of a refresh -/

/-- The request whose lock the backend has granted and not yet been asked to release. -/
def exposed : Job γ → Direct.Call → Option (Request γ)
  | .locking r, .attempted _ _ _ a => if a.succeeded then some r else none
  | .locking r, .done (.acquire _ locked err) =>
    if Answer.succeeded ⟨locked, err⟩ then some r else none
  | .loading r, _ => some r
  | .writing r true _, _ => some r
  | .writingMeta r true, _ => some r
  | .leaving r, _ => some r
  | .unlocking r, .closing _ => some r
  | .unlocking r, .unlocking _ => some r
  | _, _ => none

/-- The key whose map entry the goroutine keeps held. -/
def holds : Job γ → Direct.Call → Option Key
  | .locking r, .done (.acquire _ locked err) =>
    if Answer.succeeded ⟨locked, err⟩ then some r.key else none
  | .loading r, _ => some r.key
  | .writing r true _, _ => some r.key
  | .writingMeta r true, _ => some r.key
  | .leaving r, _ => some r.key
  | _, _ => none

/-- The key a slot keeps held. -/
def World.holds (w : World γ τ σ) (t : τ) : Option Key :=
  Refresh.holds (w.jobs t) (w.direct.calls t)

/-- The request of a slot that is in its window. -/
def World.exposed (w : World γ τ σ) (t : τ) : Option (Request γ) :=
  Refresh.exposed (w.jobs t) (w.direct.calls t)

/-- The step cancels no context of a refresh that is in its window. -/
def Spared (w : World γ τ σ) (e : Event γ τ) : Prop :=
  ∀ c t r, e = .cancel c → w.exposed t = some r → r.ctx ≠ c

/-- A slot inside `TryLock` or `Unlock`. -/
def Job.inside : Job γ → Bool
  | .locking _ => true
  | .unlocking _ => true
  | _ => false

/-- The request of a slot that has not taken its lock yet. -/
def Job.fresh : Job γ → Option (Request γ)
  | .called r => some r
  | .found r => some r
  | .spawned r => some r
  | _ => none

/-- How the phase of a slot and its call on the lock map go together, as long as no
release fails. -/
inductive Shape (cfg : Config σ) : Job γ → Direct.Call → Prop where
  | outside {j : Job γ} {c : Direct.Call} (hj : j.inside = false) (hc : c.ready = true) :
      Shape cfg j c
  | reserved (r : Request γ) (howner : cfg.direct.ownerErr = none) :
      Shape cfg (.locking r) (.reserved .tryLock (refreshLockKey r.key) r.refreshAhead)
  | attempting (r : Request γ) (howner : cfg.direct.ownerErr = none) :
      Shape cfg (.locking r) (.attempting .tryLock (refreshLockKey r.key) r.refreshAhead)
  | attempted (r : Request γ) (a : Answer) :
      Shape cfg (.locking r) (.attempted .tryLock (refreshLockKey r.key) r.refreshAhead a)
  | tried (r : Request γ) (locked : Bool) (err : Option CacheError) :
      Shape cfg (.locking r) (.done (.acquire (refreshLockKey r.key) locked err))
  | closing (r : Request γ) : Shape cfg (.unlocking r) (.closing (refreshLockKey r.key))
  | unlocking (r : Request γ) : Shape cfg (.unlocking r) (.unlocking (refreshLockKey r.key))
  | unlocked (r : Request γ) : Shape cfg (.unlocking r) (.unlocked (refreshLockKey r.key) none)
  | closed (r : Request γ) : Shape cfg (.unlocking r) (.done (.unlock (refreshLockKey r.key) none))

/-! ## The invariant -/

/-- The invariant of a Cache whose contexts are spared: the lock map is that of
`Lock.DirectLocks`, a slot in its window has a live context, and the held entries are
those of the goroutines that keep them. -/
structure Inv (cfg : Config σ) (w : World γ τ σ) : Prop where
  direct : Direct.Inv w.direct
  shape : ∀ t, Shape cfg (w.jobs t) (w.direct.calls t)
  live : ∀ t r, w.exposed t = some r → w.cancelled r.ctx = false ∧ cfg.direct.ownerErr = none
  fresh : ∀ t r, (w.jobs t).fresh = some r → 0 < r.refreshAhead
  held : ∀ t key, w.holds t = some key → w.direct.locks (refreshLockKey key) = some .held
  holder : ∀ k, w.direct.locks k = some .held →
    ∃ t key, k = refreshLockKey key ∧ w.holds t = some key
  unique : ∀ t u key, w.holds t = some key → w.holds u = some key → t = u

omit [DecidableEq γ] [DecidableEq τ] in
/-- A new Cache satisfies the invariant. -/
theorem World.Initial.inv {cfg : Config σ} {w : World γ τ σ} (h : w.Initial) : Inv cfg w where
  direct := by
    rw [h.direct]
    exact Direct.inv_initial
  shape t := by
    rw [h.jobs, h.direct]
    exact .outside rfl rfl
  live t r hr := by simp [World.exposed, Refresh.exposed, h.jobs] at hr
  fresh t r hr := by simp [h.jobs, Job.fresh] at hr
  held t key hk := by simp [World.holds, Refresh.holds, h.jobs] at hk
  holder k hk := by simp [h.direct, Direct.State.initial] at hk
  unique t u key hk := by simp [World.holds, Refresh.holds, h.jobs] at hk

/-- How a step of slot `t` changes the lock map and what the slot holds: not at all,
or at one key that no other slot holds. -/
def LockMove (w w' : World γ τ σ) (t : τ) : Prop :=
  (w'.direct.locks = w.direct.locks ∧ w'.holds t = w.holds t) ∨
  ∃ key, (∀ k, k ≠ refreshLockKey key → w'.direct.locks k = w.direct.locks k) ∧
    (w.holds t = none ∨ w.holds t = some key) ∧ (∀ u, u ≠ t → w.holds u ≠ some key) ∧
    ((w'.holds t = some key ∧ w'.direct.locks (refreshLockKey key) = some .held) ∨
      (w'.holds t = none ∧ w'.direct.locks (refreshLockKey key) ≠ some .held))

section Move

omit [DecidableEq γ]

variable {cfg : Config σ} {w w' : World γ τ σ} {t : τ}

/-- After such a step what a slot holds is held in the map. -/
theorem LockMove.held (hlock : LockMove w w' t) (hw : Inv cfg w)
    (hholds : ∀ u, u ≠ t → w'.holds u = w.holds u) (u : τ) (key : Key)
    (hk : w'.holds u = some key) : w'.direct.locks (refreshLockKey key) = some .held := by
  rcases hlock with ⟨hlocks, hsame⟩ | ⟨key', hlocks, -, hother, hend⟩
  · rw [hlocks]
    by_cases hu : u = t
    · subst hu
      rw [hsame] at hk
      exact hw.held u key hk
    · rw [hholds u hu] at hk
      exact hw.held u key hk
  · by_cases hu : u = t
    · subst hu
      rcases hend with ⟨hnew, hlk⟩ | ⟨hnew, -⟩
      · rw [hnew, Option.some.injEq] at hk
        subst hk
        exact hlk
      · rw [hnew] at hk
        cases hk
    · rw [hholds u hu] at hk
      have hne : key ≠ key' := by
        rintro rfl
        exact hother u hu hk
      rw [hlocks _ fun h => hne (refreshLockKey_injective h)]
      exact hw.held u key hk

/-- After such a step what is held in the map is held by a slot. -/
theorem LockMove.holder (hlock : LockMove w w' t) (hw : Inv cfg w)
    (hholds : ∀ u, u ≠ t → w'.holds u = w.holds u) (k : Key) (hk : w'.direct.locks k = some .held) :
    ∃ u key, k = refreshLockKey key ∧ w'.holds u = some key := by
  rcases hlock with ⟨hlocks, hsame⟩ | ⟨key', hlocks, hown, -, hend⟩
  · rw [hlocks] at hk
    obtain ⟨u, key, rfl, hu⟩ := hw.holder k hk
    refine ⟨u, key, rfl, ?_⟩
    by_cases hut : u = t
    · subst hut
      rw [hsame]
      exact hu
    · rw [hholds u hut]
      exact hu
  · by_cases hkey : k = refreshLockKey key'
    · subst hkey
      rcases hend with ⟨hnew, -⟩ | ⟨-, hno⟩
      · exact ⟨t, key', rfl, hnew⟩
      · exact absurd hk hno
    · rw [hlocks k hkey] at hk
      obtain ⟨u, key, rfl, hu⟩ := hw.holder k hk
      refine ⟨u, key, rfl, ?_⟩
      have hut : u ≠ t := by
        rintro rfl
        rcases hown with hown | hown
        · rw [hown] at hu
          cases hu
        · rw [hown, Option.some.injEq] at hu
          exact hkey (by rw [hu])
      rw [hholds u hut]
      exact hu

omit [DecidableEq τ] in
/-- After such a step the slot is the only holder of what it holds. -/
theorem LockMove.sole (hlock : LockMove w w' t) (hw : Inv cfg w)
    (hholds : ∀ u, u ≠ t → w'.holds u = w.holds u) {v : τ} {key : Key} (hv : v ≠ t)
    (ht : w'.holds t = some key) : w'.holds v ≠ some key := by
  intro hk
  rw [hholds v hv] at hk
  rcases hlock with ⟨-, hsame⟩ | ⟨key', -, -, hother, ⟨hnew, -⟩ | ⟨hnew, -⟩⟩
  · rw [hsame] at ht
    exact hv (hw.unique v t key hk ht)
  · rw [hnew, Option.some.injEq] at ht
    subst ht
    exact hother v hv hk
  · rw [hnew] at ht
    cases ht

/-- After such a step a key has at most one holder. -/
theorem LockMove.unique (hlock : LockMove w w' t) (hw : Inv cfg w)
    (hholds : ∀ u, u ≠ t → w'.holds u = w.holds u) (u v : τ) (key : Key)
    (hu : w'.holds u = some key) (hv : w'.holds v = some key) : u = v := by
  by_cases hut : u = t
  · subst hut
    by_contra hne
    exact hlock.sole hw hholds (Ne.symm hne) hu hv
  · by_cases hvt : v = t
    · subst hvt
      exact absurd hu (hlock.sole hw hholds hut hv)
    · rw [hholds u hut] at hu
      rw [hholds v hvt] at hv
      exact hw.unique u v key hu hv

/-- A step of one slot keeps the invariant when the slot ends in a matching state. -/
theorem Inv.move (hw : Inv cfg w) (hdirect : Direct.Inv w'.direct)
    (hcalls : ∀ u, u ≠ t → w'.direct.calls u = w.direct.calls u)
    (hjobs : ∀ u, u ≠ t → w'.jobs u = w.jobs u) (hcancelled : w'.cancelled = w.cancelled)
    (hshape : Shape cfg (w'.jobs t) (w'.direct.calls t))
    (hlive : ∀ r, w'.exposed t = some r → w.cancelled r.ctx = false ∧ cfg.direct.ownerErr = none)
    (hfresh : ∀ r, (w'.jobs t).fresh = some r → 0 < r.refreshAhead)
    (hlock : LockMove w w' t) : Inv cfg w' := by
  have hholds : ∀ u, u ≠ t → w'.holds u = w.holds u := by
    intro u hu
    rw [World.holds, World.holds, hcalls u hu, hjobs u hu]
  refine ⟨hdirect, ?_, ?_, ?_, hlock.held hw hholds, hlock.holder hw hholds, hlock.unique hw hholds⟩
  · intro u
    by_cases hu : u = t
    · subst hu
      exact hshape
    · rw [hcalls u hu, hjobs u hu]
      exact hw.shape u
  · intro u r hr
    rw [hcancelled]
    by_cases hu : u = t
    · subst hu
      exact hlive r hr
    · rw [World.exposed, hcalls u hu, hjobs u hu] at hr
      exact hw.live u r hr
  · intro u r hr
    by_cases hu : u = t
    · subst hu
      exact hfresh r hr
    · rw [hjobs u hu] at hr
      exact hw.fresh u r hr

end Move

/-! ## Steps outside the lock map -/

/-- The request of a goroutine that keeps its lock between two calls on the map. -/
def Job.keeper : Job γ → Option (Request γ)
  | .loading r => some r
  | .writing r true _ => some r
  | .writingMeta r true => some r
  | .leaving r => some r
  | _ => none

variable {j : Job γ} {cfg : Config σ} {w : World γ τ σ} {t : τ}

section

omit [DecidableEq γ]

/-- Between calls on the map exactly a keeper is in its window. -/
theorem exposed_of_outside (hj : j.inside = false) (c : Direct.Call) : exposed j c = j.keeper := by
  unfold exposed Job.keeper
  cases j with
  | writing r async value => cases async <;> rfl
  | writingMeta r async => cases async <;> rfl
  | locking r => cases hj
  | unlocking r => cases hj
  | _ => rfl

/-- Between calls on the map exactly a keeper holds its key. -/
theorem holds_of_outside (hj : j.inside = false) (c : Direct.Call) :
    holds j c = j.keeper.map (·.key) := by
  unfold holds Job.keeper
  cases j with
  | writing r async value => cases async <;> rfl
  | writingMeta r async => cases async <;> rfl
  | locking r => cases hj
  | _ => rfl

omit [DecidableEq τ] in
/-- A slot outside the lock map can start a call on it. -/
theorem Inv.ready (hw : Inv cfg w) (hj : (w.jobs t).inside = false) :
    (w.direct.calls t).ready = true := by
  have hshape := hw.shape t
  generalize w.jobs t = j at hshape hj
  generalize w.direct.calls t = c at hshape
  cases hshape with
  | outside hj' hc => exact hc
  | _ => cases hj

/-- A step that leaves the lock map alone keeps the invariant when the slot stays in the
window or out of it. -/
theorem Inv.job {j' : Job γ} {store : σ} (hw : Inv cfg w) (hj : w.jobs t = j)
    (hfrom : j.inside = false) (hto : j'.inside = false) (hkeep : j'.keeper = j.keeper)
    (hfresh : ∀ r, j'.fresh = some r → 0 < r.refreshAhead) :
    Inv cfg ({ w with store := store }.put t j') := by
  have hput : ({ w with store := store }.put t j').jobs t = j' := update_self _ _ _
  have hexposed : w.exposed t = j'.keeper := by
    rw [World.exposed, hj, exposed_of_outside hfrom, hkeep]
  refine hw.move (t := t) hw.direct (fun _ _ => rfl)
    (fun u hu => update_of_ne hu _ _) rfl ?_ ?_ ?_ (Or.inl ⟨rfl, ?_⟩)
  · rw [hput]
    exact .outside hto (hw.ready (by rw [hj]; exact hfrom))
  · intro r hr
    rw [World.exposed, hput, exposed_of_outside hto, ← hexposed] at hr
    exact hw.live t r hr
  · rw [hput]
    exact hfresh
  · rw [World.holds, World.holds, hput, hj, holds_of_outside hto, holds_of_outside hfrom, hkeep]

/-- A goroutine that returns from `TryLock` or `Unlock` keeps the invariant. -/
theorem Inv.resume {j' : Job γ} (hw : Inv cfg w) (hready : (w.direct.calls t).ready = true)
    (hto : j'.inside = false) (hfresh : j'.fresh = none) (hexposed : w.exposed t = j'.keeper)
    (hholds : w.holds t = j'.keeper.map (·.key)) : Inv cfg (w.put t j') := by
  have hput : (w.put t j').jobs t = j' := update_self _ _ _
  refine hw.move (t := t) hw.direct (fun _ _ => rfl)
    (fun u hu => update_of_ne hu _ _) rfl ?_ ?_ ?_ (Or.inl ⟨rfl, ?_⟩)
  · rw [hput]
    exact .outside hto hready
  · intro r hr
    rw [World.exposed, hput] at hr
    refine hw.live t r ?_
    rw [hexposed, ← exposed_of_outside hto (w.direct.calls t)]
    exact hr
  · rw [hput, hfresh]
    simp
  · rw [World.holds, hput, hholds]
    exact holds_of_outside hto _

end

/-! ## Where a request stands -/

section Stands

omit [DecidableEq γ]

variable {cfg : Config σ} {w : World γ τ σ} {t : τ} {r : Request γ} {a : Answer}
  {d : Direct.State τ}

/-- The check of the ttl comes after the reservation. -/
theorem Inv.calls_of_attempt (hw : Inv cfg w) (hj : w.jobs t = .locking r)
    (hd : Direct.step cfg.direct w.direct (.attempt t) = some d) :
    w.direct.calls t = .reserved .tryLock (refreshLockKey r.key) r.refreshAhead ∧
      cfg.direct.ownerErr = none := by
  have hshape := hw.shape t
  rw [hj] at hshape
  generalize hc : w.direct.calls t = c at hshape
  cases hshape with
  | reserved _ howner => exact ⟨rfl, howner⟩
  | outside hj' _ => cases hj'
  | _ => simp [Direct.step, hc] at hd

/-- The answer of the backend comes after the check. -/
theorem Inv.calls_of_acquireAnswer (hw : Inv cfg w) (hj : w.jobs t = .locking r)
    (hd : Direct.step cfg.direct w.direct (.acquireAnswer t a) = some d) :
    w.direct.calls t = .attempting .tryLock (refreshLockKey r.key) r.refreshAhead ∧
      cfg.direct.ownerErr = none := by
  have hshape := hw.shape t
  rw [hj] at hshape
  generalize hc : w.direct.calls t = c at hshape
  cases hshape with
  | attempting _ howner => exact ⟨rfl, howner⟩
  | outside hj' _ => cases hj'
  | _ => simp [Direct.step, hc] at hd

/-- The end of `TryLock` comes after an answer. -/
theorem Inv.calls_of_settle (hw : Inv cfg w) (hj : w.jobs t = .locking r)
    (hd : Direct.step cfg.direct w.direct (.settle t) = some d) :
    ∃ a, w.direct.calls t = .attempted .tryLock (refreshLockKey r.key) r.refreshAhead a := by
  have hshape := hw.shape t
  rw [hj] at hshape
  generalize hc : w.direct.calls t = c at hshape
  cases hshape with
  | attempted _ a => exact ⟨a, rfl⟩
  | outside hj' _ => cases hj'
  | _ => simp [Direct.step, hc] at hd

/-- The start of the release comes after the entry was taken. -/
theorem Inv.calls_of_release (hw : Inv cfg w) (hj : w.jobs t = .unlocking r)
    (hd : Direct.step cfg.direct w.direct (.release t) = some d) :
    w.direct.calls t = .closing (refreshLockKey r.key) := by
  have hshape := hw.shape t
  rw [hj] at hshape
  generalize hc : w.direct.calls t = c at hshape
  cases hshape with
  | closing => rfl
  | outside hj' _ => cases hj'
  | _ => simp [Direct.step, hc] at hd

/-- The answer of the backend comes after the start of the release. -/
theorem Inv.calls_of_releaseAnswer (hw : Inv cfg w) (hj : w.jobs t = .unlocking r)
    (hd : Direct.step cfg.direct w.direct (.releaseAnswer t a) = some d) :
    w.direct.calls t = .unlocking (refreshLockKey r.key) := by
  have hshape := hw.shape t
  rw [hj] at hshape
  generalize hc : w.direct.calls t = c at hshape
  cases hshape with
  | unlocking => rfl
  | outside hj' _ => cases hj'
  | _ => simp [Direct.step, hc] at hd

/-- The end of `Unlock` comes after an answer without an error. -/
theorem Inv.calls_of_finish (hw : Inv cfg w) (hj : w.jobs t = .unlocking r)
    (hd : Direct.step cfg.direct w.direct (.finish t) = some d) :
    w.direct.calls t = .unlocked (refreshLockKey r.key) none := by
  have hshape := hw.shape t
  rw [hj] at hshape
  generalize hc : w.direct.calls t = c at hshape
  cases hshape with
  | unlocked => rfl
  | outside hj' _ => cases hj'
  | _ => simp [Direct.step, hc] at hd

end Stands

/-! ## Steps on the lock map -/

variable {cfg : Config σ} {w w' : World γ τ σ} {t : τ} {j : Job γ} {key : Key} {c : Direct.Call}
  {store : σ} {r : Request γ}

section

omit [DecidableEq γ]

/-- A step on the lock map is a step of `Lock.DirectLocks`. -/
theorem lockStep_eq_some {e : Direct.Event τ} (h : w.lockStep cfg e t j = some w') :
    ∃ d, Direct.step cfg.direct w.direct e = some d ∧
      w' = { w with direct := d, jobs := update w.jobs t j } := by
  unfold World.lockStep at h
  split at h
  · contradiction
  · rename_i d hd
    cases h
    exact ⟨d, hd, rfl⟩

/-- How slot `t`, which ends in call `c` of phase `j`, changes the lock map
of `w` into `locks`. -/
inductive MapMove (w : World γ τ σ) (t : τ) (j : Job γ) (c : Direct.Call)
    (locks : Direct.Locks) : Prop where
  | same (hlocks : locks = w.direct.locks) (hholds : holds j c = w.holds t)
  | gain (key : Key) (hlocks : locks = update w.direct.locks (refreshLockKey key)
      (some .held)) (hfree : w.direct.locks (refreshLockKey key) ≠ some .held)
      (hfrom : w.holds t = none) (hto : holds j c = some key)
  | lose (key : Key) (status : Option Direct.Status) (hstatus : status ≠ some .held)
      (hlocks : locks = update w.direct.locks (refreshLockKey key) status)
      (hfrom : w.holds t = some key ∨
        w.holds t = none ∧ w.direct.locks (refreshLockKey key) ≠ some .held)
      (hto : holds j c = none)

omit [DecidableEq τ] in
/-- Nobody holds a key whose entry is not held. -/
theorem Inv.not_holds (hw : Inv cfg w) (h : w.direct.locks (refreshLockKey key) ≠ some .held)
    (u : τ) : w.holds u ≠ some key :=
  fun hu => h (hw.held u key hu)

/-- A step on the lock map keeps the invariant when the slot ends in a matching state. -/
theorem Inv.lockStep {e : Direct.Event τ} {d : Direct.State τ} (hw : Inv cfg w)
    (hd : Direct.step cfg.direct w.direct e = some d) (ht : e.slot = t) (hfresh : j.fresh = none)
    (hcall : d.calls t = c) (hshape : Shape cfg j c)
    (hlive : ∀ r, exposed j c = some r → w.cancelled r.ctx = false ∧ cfg.direct.ownerErr = none)
    (hmap : MapMove w t j c d.locks) :
    Inv cfg { w with store := store, direct := d, jobs := update w.jobs t j } := by
  have hput : update w.jobs t j t = j := update_self _ _ _
  have hholds : World.holds { w with
      store := store, direct := d, jobs := update w.jobs t j } t = holds j c := by
    rw [World.holds, hcall]
    exact congrArg (holds · c) hput
  refine hw.move (t := t) (Direct.inv_step hw.direct hd)
    (fun u hu => (Direct.step_effect hd).calls_of_ne (ht ▸ hu))
    (fun u hu => update_of_ne hu _ _) rfl ?_ ?_ ?_ ?_
  · simpa only [hput, hcall] using hshape
  · simpa only [World.exposed, hput, hcall] using hlive
  · simp [hfresh]
  · cases hmap with
    | same hlocks hsame => exact Or.inl ⟨hlocks, hholds.trans hsame⟩
    | gain key hlocks hfree hfrom hto =>
      refine Or.inr ⟨key, ?_, Or.inl hfrom, fun u _ => hw.not_holds hfree u,
        Or.inl ⟨hholds.trans hto, ?_⟩⟩
      · intro k hk
        rw [hlocks, update_of_ne hk]
      · rw [hlocks, update_self]
    | lose key status hstatus hlocks hfrom hto =>
      refine Or.inr ⟨key, ?_, ?_, ?_, Or.inr ⟨hholds.trans hto, ?_⟩⟩
      · intro k hk
        rw [hlocks, update_of_ne hk]
      · rcases hfrom with hfrom | ⟨hfrom, -⟩
        · exact Or.inr hfrom
        · exact Or.inl hfrom
      · intro u hu hk
        rcases hfrom with hfrom | ⟨-, hfree⟩
        · exact hu (hw.unique u t key hk hfrom)
        · exact hw.not_holds hfree u hk
      · rw [hlocks, update_self]
        exact hstatus

/-- `TryLock` of a new goroutine keeps the invariant. -/
theorem Inv.tryLock (hw : Inv cfg w) (hj : w.jobs t = .spawned r)
    (h : w.lockStep cfg (.tryLock t (refreshLockKey r.key) r.refreshAhead) t (.locking r) =
      some w') : Inv cfg w' := by
  obtain ⟨d, hd, rfl⟩ := lockStep_eq_some h
  have hready := hw.ready (t := t) (by rw [hj]; rfl)
  have hnone : w.holds t = none := by simp [World.holds, holds, hj]
  have hcase := hd
  simp only [Direct.step, hready, if_true] at hcase
  cases howner : cfg.direct.ownerErr with
  | some err =>
    simp only [howner, Option.some.injEq] at hcase
    subst hcase
    exact hw.lockStep hd rfl rfl (Direct.State.put_calls _ _ _) (.tried r false (some err))
      (by simp [exposed]) (.same rfl (by simp [holds, hnone]))
  | none =>
    simp only [howner, Direct.beginAcquire] at hcase
    cases hkey : w.direct.locks (refreshLockKey r.key) with
    | some status =>
      simp only [hkey, Option.some.injEq] at hcase
      subst hcase
      exact hw.lockStep hd rfl rfl (Direct.State.put_calls _ _ _) (.tried r false none)
        (by simp [exposed]) (.same rfl (by simp [holds, hnone]))
    | none =>
      simp only [hkey, Option.some.injEq] at hcase
      subst hcase
      exact hw.lockStep hd rfl rfl (Direct.State.put_calls _ _ _) (.reserved r howner)
        (by simp [exposed])
        (.lose r.key (some .acquiring) (by simp) rfl (Or.inr ⟨hnone, by simp [hkey]⟩) rfl)

/-- The check of the ttl and the start of the backend call keep the invariant. -/
theorem Inv.attempt (hw : Inv cfg w) (hj : w.jobs t = .locking r)
    (h : w.lockStep cfg (.attempt t) t (.locking r) = some w') : Inv cfg w' := by
  obtain ⟨d, hd, rfl⟩ := lockStep_eq_some h
  obtain ⟨hc, howner⟩ := hw.calls_of_attempt hj hd
  have hholds : w.holds t = none := by rw [World.holds, hj, hc]; rfl
  have hcase := hd
  simp only [Direct.step, hc] at hcase
  split at hcase <;> cases hcase
  · exact hw.lockStep hd rfl rfl (Direct.State.put_calls _ _ _) (.attempted r _)
      (by simp [exposed]) (.same rfl hholds.symm)
  · exact hw.lockStep hd rfl rfl (Direct.State.put_calls _ _ _) (.attempting r howner)
      (by simp [exposed]) (.same rfl hholds.symm)

/-- An answer of the backend keeps the invariant; it grants only to a live context. -/
theorem Inv.acquireAnswer (hw : Inv cfg w) (hj : w.jobs t = .locking r) {a : Answer}
    (hcancel : a.succeeded = true → w.cancelled r.ctx = false)
    (h : { w with store := store }.lockStep cfg (.acquireAnswer t a) t (.locking r) = some w') :
    Inv cfg w' := by
  obtain ⟨d, hd, rfl⟩ := lockStep_eq_some h
  obtain ⟨hc, howner⟩ := hw.calls_of_acquireAnswer hj hd
  have hholds : w.holds t = none := by rw [World.holds, hj, hc]; rfl
  have hcase := hd
  simp only [Direct.step, hc, Option.some.injEq] at hcase
  subst hcase
  refine hw.lockStep hd rfl rfl (Direct.State.put_calls _ _ _) (.attempted r a) ?_
    (.same rfl hholds.symm)
  intro r' hr'
  cases hok : a.succeeded <;> simp [exposed, hok] at hr'
  subst hr'
  exact ⟨hcancel hok, howner⟩

/-- The end of `TryLock`, which makes the reservation an entry or removes it, keeps the
invariant. -/
theorem Inv.settle (hw : Inv cfg w) (hj : w.jobs t = .locking r)
    (h : w.lockStep cfg (.settle t) t (.locking r) = some w') : Inv cfg w' := by
  obtain ⟨d, hd, rfl⟩ := lockStep_eq_some h
  obtain ⟨⟨ok, err⟩, hc⟩ := hw.calls_of_settle hj hd
  have hlive := hw.live t r
  rw [World.exposed, hj, hc] at hlive
  have hholds : w.holds t = none := by rw [World.holds, hj, hc]; rfl
  have hreserved : w.direct.locks (refreshLockKey r.key) = some .acquiring :=
    hw.direct.locks_of_reserving (t := t) (by rw [hc]; rfl)
  have hfree : w.direct.locks (refreshLockKey r.key) ≠ some .held := by simp [hreserved]
  have hcase := hd
  simp only [Direct.step, hc, Option.some.injEq] at hcase
  subst hcase
  refine hw.lockStep hd rfl rfl (Direct.State.endAcquire_calls _ _ _ _ _) (.tried r ok err) ?_ ?_
  · -- a slot that has its entry was in its window before
    intro r' hr'
    cases hok : Answer.succeeded ⟨ok, err⟩ with
    | true =>
      have hr : r = r' := by simpa [exposed, hok] using hr'
      subst hr
      exact hlive (by simp [exposed, hok])
    | false => simp [exposed, hok] at hr'
  · cases hok : Answer.succeeded ⟨ok, err⟩ with
    | true =>
      exact .gain r.key (by simp [Direct.State.endAcquire, Direct.finishAcquire, hok])
        hfree hholds (by simp [holds, hok])
    | false =>
      exact .lose r.key none (by simp)
        (by simp [Direct.State.endAcquire, Direct.finishAcquire, hok])
        (Or.inr ⟨hholds, hfree⟩) (by simp [holds, hok])

/-- `Unlock` of a goroutine that keeps its lock takes the held entry. -/
theorem Inv.unlock (hw : Inv cfg w) (hj : w.jobs t = .leaving r)
    (h : w.lockStep cfg (.unlock t (refreshLockKey r.key)) t (.unlocking r) = some w') :
    Inv cfg w' := by
  obtain ⟨d, hd, rfl⟩ := lockStep_eq_some h
  have hready := hw.ready (t := t) (by rw [hj]; rfl)
  have hholds : w.holds t = some r.key := by simp [World.holds, holds, hj]
  have hheld := hw.held t r.key hholds
  have hlive := hw.live t r (by simp [World.exposed, exposed, hj])
  have hcase := hd
  simp only [Direct.step, hready, if_true, Direct.beginRelease, hheld, ne_eq, not_true_eq_false,
    if_false, Option.some.injEq] at hcase
  subst hcase
  refine hw.lockStep hd rfl rfl (Direct.State.put_calls _ _ _) (.closing r) ?_
    (.lose r.key (some .releasing) (by simp) rfl (Or.inl hholds) rfl)
  intro r' hr'
  cases hr'
  exact hlive

/-- The start of the release keeps the invariant. -/
theorem Inv.release (hw : Inv cfg w) (hj : w.jobs t = .unlocking r)
    (h : w.lockStep cfg (.release t) t (.unlocking r) = some w') : Inv cfg w' := by
  obtain ⟨d, hd, rfl⟩ := lockStep_eq_some h
  have hc := hw.calls_of_release hj hd
  have hlive := hw.live t r (by rw [World.exposed, hj, hc]; rfl)
  have hholds : w.holds t = none := by simp [World.holds, holds, hj]
  have hcase := hd
  simp only [Direct.step, hc, hlive.2, Option.some.injEq] at hcase
  subst hcase
  refine hw.lockStep hd rfl rfl (Direct.State.put_calls _ _ _) (.unlocking r) ?_
    (.same rfl hholds.symm)
  intro r' hr'
  cases hr'
  exact hlive

/-- A release that the backend has not failed keeps the invariant. -/
theorem Inv.releaseAnswer (hw : Inv cfg w) (hj : w.jobs t = .unlocking r) {a : Answer}
    (ha : a.err = none)
    (h : { w with store := store }.lockStep cfg (.releaseAnswer t a) t (.unlocking r) =
      some w') : Inv cfg w' := by
  obtain ⟨d, hd, rfl⟩ := lockStep_eq_some h
  have hc := hw.calls_of_releaseAnswer hj hd
  have hholds : w.holds t = none := by simp [World.holds, holds, hj]
  have hcase := hd
  simp only [Direct.step, hc, ha, Option.some.injEq] at hcase
  subst hcase
  exact hw.lockStep hd rfl rfl (Direct.State.put_calls _ _ _) (.unlocked r)
    (by simp [exposed]) (.same rfl hholds.symm)

/-- The end of `Unlock`, which removes the entry, keeps the invariant. -/
theorem Inv.finish (hw : Inv cfg w) (hj : w.jobs t = .unlocking r)
    (h : w.lockStep cfg (.finish t) t (.unlocking r) = some w') : Inv cfg w' := by
  obtain ⟨d, hd, rfl⟩ := lockStep_eq_some h
  have hc := hw.calls_of_finish hj hd
  have hholds : w.holds t = none := by simp [World.holds, holds, hj]
  have hreleasing : w.direct.locks (refreshLockKey r.key) = some .releasing :=
    hw.direct.locks_of_releasing (t := t) (by rw [hc]; rfl)
  have hcase := hd
  simp only [Direct.step, hc, Option.some.injEq] at hcase
  subst hcase
  exact hw.lockStep hd rfl rfl (Direct.State.endRelease_calls _ _ _ _) (.closed r)
    (by simp [exposed])
    (.lose r.key none (by simp) (by simp [Direct.State.endRelease, Direct.finishRelease])
      (Or.inr ⟨hholds, by simp [hreleasing]⟩) rfl)

/-- A new request, or its refusal, keeps the invariant. -/
theorem Inv.call (hw : Inv cfg w) (hj : w.jobs t = j) (hinside : j.inside = false)
    (hkeeper : j.keeper = none) (h : (if r.ttl ≤ 0 ∨ r.refreshAhead ≤ 0 then some (w.put t .done)
      else some (w.put t (.called r))) = some w') : Inv cfg w' := by
  split at h <;> cases h
  · exact hw.job hj hinside rfl hkeeper.symm (by simp [Job.fresh])
  · rename_i hvalid
    have hpos : 0 < r.refreshAhead := Int64.not_le.mp fun hle => hvalid (Or.inr hle)
    exact hw.job hj hinside rfl hkeeper.symm (by simpa [Job.fresh] using hpos)

end

/-- A goroutine that goes on after its lock call has returned keeps the invariant. -/
theorem Inv.returned (hw : Inv cfg w) (h : step cfg w (.resume t) = some w') : Inv cfg w' := by
  simp only [step] at h
  split at h
  · rename_i r key locked err hj hc
    have hready : (w.direct.calls t).ready = true := by rw [hc]; rfl
    split at h
    · rename_i hok
      split at h <;> cases h <;>
        exact hw.resume hready rfl rfl (by simp [World.exposed, exposed, hj, hc, hok, Job.keeper])
          (by simp [World.holds, holds, hj, hc, hok, Job.keeper])
    · rename_i hno
      cases h
      exact hw.resume hready rfl rfl (by simp [World.exposed, exposed, hj, hc, hno, Job.keeper])
        (by simp [World.holds, holds, hj, hc, hno, Job.keeper])
  · rename_i r key err hj hc
    have hready : (w.direct.calls t).ready = true := by rw [hc]; rfl
    cases h
    exact hw.resume hready rfl rfl (by simp [World.exposed, exposed, hj, hc, Job.keeper])
      (by simp [World.holds, holds, hj, Job.keeper])
  · contradiction

/-- Every step that spares the contexts in their window keeps the invariant. -/
theorem inv_step {e : Event γ τ} (hw : Inv cfg w) (hspared : Spared w e)
    (h : step cfg w e = some w') : Inv cfg w' := by
  cases e with
  | call t r =>
    simp only [step] at h
    split at h
    · rename_i hj
      exact hw.call hj rfl rfl h
    · rename_i hj
      exact hw.call hj rfl rfl h
    · contradiction
  | lookup t =>
    simp only [step] at h
    split at h
    · rename_i r hj
      have hpos := hw.fresh t r (by rw [hj]; rfl)
      split at h
      · cases h
        exact hw.job hj rfl rfl rfl (by simp [Job.fresh])
      · split at h <;> cases h
        · exact hw.job hj rfl rfl rfl (by simpa [Job.fresh] using hpos)
        · exact hw.job hj rfl rfl rfl (by simp [Job.fresh])
    · contradiction
  | inspect t =>
    simp only [step] at h
    split at h
    · rename_i r hj
      have hpos := hw.fresh t r (by rw [hj]; rfl)
      split at h
      · cases h
        exact hw.job hj rfl rfl rfl (by simp [Job.fresh])
      · split at h <;> cases h
        · exact hw.job hj rfl rfl rfl (by simp [Job.fresh])
        · exact hw.job hj rfl rfl rfl (by simpa [Job.fresh] using hpos)
    · contradiction
  | load t result =>
    simp only [step] at h
    split at h
    · rename_i r hj
      split at h <;> cases h <;> exact hw.job hj rfl rfl rfl (by simp [Job.fresh])
    · rename_i r hj
      split at h <;> cases h <;> exact hw.job hj rfl rfl rfl (by simp [Job.fresh])
    · contradiction
  | write t err =>
    simp only [step] at h
    split at h
    · rename_i r async value hj
      cases async <;> split at h <;> cases h <;>
        exact hw.job hj rfl rfl rfl (by simp [Job.fresh, afterWrite])
    · rename_i r async hj
      cases async <;> split at h <;> cases h <;>
        exact hw.job hj rfl rfl rfl (by simp [Job.fresh, afterWrite])
    · contradiction
  | resume t => exact hw.returned h
  | tryLock t =>
    simp only [step] at h
    split at h
    · rename_i r hj
      exact hw.tryLock hj h
    · contradiction
  | attempt t =>
    simp only [step] at h
    split at h
    · rename_i r hj
      exact hw.attempt hj h
    · contradiction
  | settle t =>
    simp only [step] at h
    split at h
    · rename_i r hj
      exact hw.settle hj h
    · contradiction
  | acquire t =>
    simp only [step] at h
    split at h
    · rename_i r m key ttl hj hc
      split at h <;> rename_i hcancel
      · exact hw.acquireAnswer hj (by simp) h
      · exact hw.acquireAnswer hj (fun _ => by simpa using hcancel) h
    · contradiction
  | unlock t =>
    simp only [step] at h
    split at h
    · rename_i r hj
      exact hw.unlock hj h
    · contradiction
  | release t =>
    simp only [step] at h
    split at h
    · rename_i r hj
      exact hw.release hj h
    · contradiction
  | finish t =>
    simp only [step] at h
    split at h
    · rename_i r hj
      exact hw.finish hj h
    · contradiction
  | releaseCall t =>
    simp only [step] at h
    split at h
    · rename_i r key hj hc
      have hlive := hw.live t r (by simp [World.exposed, exposed, hj, hc])
      rw [hlive.1] at h
      exact hw.releaseAnswer hj rfl h
    · contradiction
  | cancel c =>
    cases h
    refine ⟨hw.direct, hw.shape, ?_, hw.fresh, hw.held, hw.holder, hw.unique⟩
    intro t r hr
    have hne := hspared c t r rfl hr
    refine ⟨?_, (hw.live t r hr).2⟩
    exact (update_of_ne hne _ _).trans (hw.live t r hr).1
  | tick d =>
    cases h
    exact ⟨hw.direct, hw.shape, hw.live, hw.fresh, hw.held, hw.holder, hw.unique⟩

/-! ## The lifecycle is closed -/

omit [DecidableEq γ] in
/-- A call with a claim on a refresh lock belongs to a running goroutine of its key. -/
theorem Shape.running (h : Shape cfg j c) (hclaim : c.claim = .reserving (refreshLockKey key) ∨
      c.claim = .releasing (refreshLockKey key)) : j.running = some key := by
  cases h with
  | outside hj hc =>
    rw [Direct.Call.claim_of_ready hc] at hclaim
    simp at hclaim
  | tried r locked err => simp at hclaim
  | closed r => simp at hclaim
  | reserved r _ | attempting r _ | attempted r _ =>
    rcases hclaim with hclaim | hclaim <;> cases hclaim
    rfl
  | closing r | unlocking r | unlocked r =>
    rcases hclaim with hclaim | hclaim <;> cases hclaim
    rfl

omit [DecidableEq γ] in
/-- A slot that holds a key is a running goroutine of the key. -/
theorem running_of_holds (h : holds j c = some key) : j.running = some key := by
  unfold holds at h
  split at h
  · split at h <;> cases h
    rfl
  · cases h
    rfl
  · cases h
    rfl
  · cases h
    rfl
  · cases h
    rfl
  · cases h

omit [DecidableEq γ] [DecidableEq τ] in
/-- Without a running goroutine the refresh lock of a key has no entry. -/
theorem Inv.locks_eq_none (hw : Inv cfg w) (hquiet : ∀ t, (w.jobs t).running ≠ some key) :
    w.direct.locks (refreshLockKey key) = none := by
  obtain ⟨L, -, hL⟩ := hw.direct (refreshLockKey key)
  have hstatus := hL.status
  cases hphase : L.phase with
  | free => rw [hstatus, hphase, Direct.statusOf]
  | acquiring t =>
    exact absurd ((hw.shape t).running (Or.inl ((hL.reserving t).mpr hphase))) (hquiet t)
  | releasing t =>
    exact absurd ((hw.shape t).running (Or.inr ((hL.releasing t).mpr hphase))) (hquiet t)
  | held =>
    rw [hphase, Direct.statusOf] at hstatus
    obtain ⟨t, key', hkey, hholds⟩ := hw.holder _ hstatus
    rw [refreshLockKey_injective hkey] at hquiet
    exact absurd (running_of_holds hholds) (hquiet t)

/-- A goroutine whose key has no entry reaches the backend with `TryLock` and returns
its answer. -/
theorem Inv.tryLock_answers (hw : Inv cfg w) (hj : w.jobs t = .spawned r)
    (hfree : w.direct.locks (refreshLockKey r.key) = none) (hlive : w.cancelled r.ctx = false)
    (howner : cfg.direct.ownerErr = none) :
    ∃ w', run (step cfg) w [.tryLock t, .attempt t, .acquire t, .settle t] = some w' ∧
      w'.direct.calls t = .done (.acquire (refreshLockKey r.key)
        (cfg.backend.lockAcquire w.store w.now (lockKey (refreshLockKey r.key)) cfg.token
          r.refreshAhead).2 none) := by
  have hready := hw.ready (t := t) (by rw [hj]; rfl)
  have hpos : ¬r.refreshAhead ≤ 0 := Int64.not_le.mpr (hw.fresh t r (by rw [hj]; rfl))
  -- each of the four steps is enabled and can be computed
  rw [run_cons]
  simp only [step, hj, World.lockStep, Direct.step, hready, if_true, howner, Direct.beginAcquire,
    hfree, Option.bind_some]
  rw [run_cons]
  simp only [step, update_self, World.lockStep, Direct.step, Direct.State.put_calls,
    if_neg hpos, Option.bind_some, update_idem]
  rw [run_cons]
  simp only [step, update_self, World.lockStep, Direct.step, Direct.State.put_calls,
    hlive, Bool.false_eq_true, if_false, Option.bind_some, update_idem]
  rw [run_cons]
  simp only [step, update_self, World.lockStep, Direct.step, Direct.State.put_calls,
    Option.bind_some, update_idem]
  exact ⟨_, rfl, Direct.State.endAcquire_calls _ _ _ _ _⟩

/--
A background refresh closes its lock lifecycle.  In every state that any interleaving of
`RefreshAheadBytes` calls reaches, over any store that fails exactly the calls with a
cancelled context, provided that no context is cancelled while a refresh through it is
between its grant and its release in the backend:

- a key without a running refresh goroutine has no entry in `cacheDirectLocks` for its
  refresh lock;
- the next near-expiry hit of such a key, through any clone with a live context, reaches the
  backend with its `TryLock` and acquires the lock whenever the backend grants it.
-/
theorem refresh_closes_lifecycle {cfg : Config σ} {w₀ w : World γ τ σ} {es : List (Event γ τ)}
    (hinit : w₀.Initial) (hspared : Along (step cfg) Spared w₀ es)
    (hrun : run (step cfg) w₀ es = some w) :
    (∀ key, (∀ t, (w.jobs t).running ≠ some key) → w.direct.locks (refreshLockKey key) = none) ∧
    (∀ t r, w.jobs t = .spawned r → (∀ u, (w.jobs u).running ≠ some r.key) →
      w.cancelled r.ctx = false → cfg.direct.ownerErr = none →
      ∃ w', run (step cfg) w [.tryLock t, .attempt t, .acquire t, .settle t] = some w' ∧
        w'.direct.calls t = .done (.acquire (refreshLockKey r.key)
          (cfg.backend.lockAcquire w.store w.now (lockKey (refreshLockKey r.key)) cfg.token
            r.refreshAhead).2 none)) := by
  have hw : Inv cfg w :=
    run_preserves_along (fun w e w' hw hspared h => inv_step hw hspared h) hinit.inv hspared hrun
  refine ⟨fun key hquiet => hw.locks_eq_none hquiet, ?_⟩
  intro t r hj hquiet hlive howner
  exact hw.tryLock_answers hj (hw.locks_eq_none hquiet) hlive howner

/-! ## Runs over the memory store -/

/-- The memory store behind a check of the context, as the SQL, Redis and DynamoDB clients
have it. -/
def memoryBackend (d : DefaultTTL) : Backend Memory.Items where
  get := fun m now key => Memory.get m now key
  set := Memory.set d
  lockAcquire := Memory.lockAcquire d
  lockRelease := Memory.lockRelease

/-- A Cache with an owner token over the memory store. -/
def sampleConfig : Config Memory.Items where
  backend := memoryBackend (DefaultTTL.normalize 0)
  direct := ⟨none⟩
  token := ascii "owner"
  defaultTTL := DefaultTTL.normalize 0

/-- A request with a refresh window of 100 nanoseconds, through the clone bound to
`ctx`. -/
def sampleRequest (ctx : Bool) : Request Bool := ⟨ascii "k", 1000, 100, ctx, true⟩

/-- The key `k` is cached and expires in 50 nanoseconds. -/
def nearExpiry : World Bool Bool Memory.Items where
  direct := Direct.State.initial
  jobs := fun _ => .idle
  cancelled := fun _ => false
  store := fun key =>
    if key = ascii "k" then some ⟨ascii "old", 0⟩
    else if key = metaKey (ascii "k") then some ⟨ascii "50", 0⟩
    else none
  now := 0

/-- A hit whose goroutine takes the lock, loads and writes. -/
def refreshWrites : List (Event Bool Bool) :=
  [.call false (sampleRequest false), .lookup false, .inspect false, .tryLock false,
    .attempt false, .acquire false, .settle false, .resume false, .load false (.ok (ascii "new")),
    .write false none, .write false none]

/-- The deferred `Unlock` and the end of the goroutine. -/
def refreshEnds : List (Event Bool Bool) :=
  [.unlock false, .release false, .releaseCall false, .finish false, .resume false]

/-- A later hit through the other clone, near the new expiry. -/
def laterHit : List (Event Bool Bool) :=
  [.tick 950, .call true (sampleRequest true), .lookup true, .inspect true]

/-- The Cache after a whole refresh and a later hit. -/
def refreshed : World Bool Bool Memory.Items :=
  (run (step sampleConfig) nearExpiry (refreshWrites ++ refreshEnds ++ laterHit)).getD nearExpiry

/-- A refresh that is left alone closes its lifecycle, and the later hit reaches the
backend. -/
theorem refresh_closes_lifecycle_undisturbed :
    run (step sampleConfig) nearExpiry (refreshWrites ++ refreshEnds ++ laterHit) = some refreshed ∧
      refreshed.jobs false = .done ∧
      refreshed.jobs true = .spawned (sampleRequest true) ∧
      refreshed.direct.locks (refreshLockKey (ascii "k")) = none ∧
      ∃ w, run (step sampleConfig) refreshed
          [.tryLock true, .attempt true, .acquire true, .settle true] = some w ∧
        w.direct.calls true = .done (.acquire (refreshLockKey (ascii "k"))
          (sampleConfig.backend.lockAcquire refreshed.store refreshed.now
            (lockKey (refreshLockKey (ascii "k"))) sampleConfig.token 100).2 none) := by
  have hrun : run (step sampleConfig) nearExpiry (refreshWrites ++ refreshEnds ++ laterHit) =
      some refreshed := rfl
  have hspared : ∀ e ∈ refreshWrites ++ refreshEnds ++ laterHit,
      ∀ w : World Bool Bool Memory.Items, Spared w e := by
    intro e he w c t r hc
    subst hc
    simp [refreshWrites, refreshEnds, laterHit] at he
  have hclosed := refresh_closes_lifecycle ⟨rfl, fun _ => rfl⟩ (along_of_forall hspared _) hrun
  have hquiet : ∀ t, (refreshed.jobs t).running ≠ some (ascii "k") := by decide
  have hspawned : refreshed.jobs true = .spawned (sampleRequest true) := by decide
  exact ⟨hrun, by decide, hspawned, hclosed.1 _ hquiet,
    hclosed.2 true (sampleRequest true) hspawned hquiet rfl rfl⟩

/-- The same refresh, with its context cancelled while it holds the lock, and the later hit
with its `TryLock`. -/
def cancelledRun : List (Event Bool Bool) :=
  refreshWrites ++ [.cancel false] ++ refreshEnds ++ laterHit ++ [.tryLock true]

/-- The Cache after that run. -/
def leaked : World Bool Bool Memory.Items :=
  (run (step sampleConfig) nearExpiry cancelledRun).getD nearExpiry

/-- The goroutine has ended and no other one runs, its record in the backend has expired,
and yet the entry is held: the later hit, through a clone with a live context, is refused
without asking the backend. -/
theorem refresh_leaks_lifecycle :
    run (step sampleConfig) nearExpiry cancelledRun = some leaked ∧
      leaked.jobs false = .done ∧
      leaked.direct.locks (refreshLockKey (ascii "k")) = some .held ∧
      Memory.get leaked.store leaked.now (lockKey (refreshLockKey (ascii "k"))) = none ∧
      leaked.cancelled true = false ∧
      leaked.direct.calls true = .done (.acquire (refreshLockKey (ascii "k")) false none) :=
  ⟨rfl, by decide, by decide, by decide, by decide, by decide⟩

end Refresh
end Lock
end GoforjCache
