import GoforjCache.Lock.Background

/-!
# Locks - Background refreshes over the memory store

Hits on one key over the memory store, which does not look at contexts, so none is cancelled.  The
record of the refresh lock in the store belongs to the goroutine that has the entry in the map: it
is gone when the entry is made, and gone again, by the release or by its expiry, when the entry is
removed.  So the store grants every reservation.

Main results:

- Theorem `request_step`: a request goes on as it began.
- Theorem `record_step`: every step keeps the record in order, and no reservation is abandoned.
-/

namespace GoforjCache
namespace Lock
namespace Background

open Function Foundation Foundation.Transition
open Refresh (Job Request refreshLockKey metaKey memoryBackend)

variable {γ τ : Type} [DecidableEq γ] [DecidableEq τ]

/-! ## Hits on one key -/

/-- A Cache over the memory store. -/
def memoryCache (storeTTL cacheTTL : DefaultTTL) (token : Bytes) : Refresh.Config Memory.Items where
  backend := memoryBackend storeTTL
  direct := ⟨none⟩
  token := token
  defaultTTL := cacheTTL

/-- The request of a slot. -/
def request : Job γ → Option (Request γ)
  | .idle => none
  | .called r | .found r | .missed r | .spawned r | .locking r | .loading r | .writing r _ _
  | .writingMeta r _ | .leaving r | .unlocking r => some r
  | .done => none

/-- The step is one of a hit on the key, whose loader is given.  The memory store does not look at
contexts, and its view of the clock does not go back. -/
def Hits (key : Key) (w : Refresh.World γ τ Memory.Items) : Refresh.Event γ τ → Prop
  | .call _ r => r.key = key ∧ r.hasLoader = true
  | .cancel _ => False
  | .tick d => unixNano w.now ≤ unixNano (w.now + d)
  | _ => True

/-- All requests are on the key, and no context is cancelled. -/
structure Calm (key : Key) (w : Refresh.World γ τ Memory.Items) : Prop where
  requests : ∀ t r, request (w.jobs t) = some r →
    r.key = key ∧ r.hasLoader = true ∧ 0 < r.refreshAhead
  live : ∀ c, w.cancelled c = false

variable {storeTTL cacheTTL : DefaultTTL} {token : Bytes} {key : Key}
  {w w' : Refresh.World γ τ Memory.Items}

omit [DecidableEq γ] in
/-- A slot that goes on with its request, or ends it. -/
theorem request_of_update {jobs : τ → Job γ} {t u : τ} {j j' : Job γ} {r : Request γ}
    (hr : request (update jobs u j' t) = some r) (hj : jobs u = j)
    (hkeep : request j' = request j ∨ request j' = none) : request (jobs t) = some r := by
  by_cases hu : t = u
  · rw [hu, update_self] at hr
    rw [hu, hj]
    rcases hkeep with hsame | hnone
    · rw [← hsame]
      exact hr
    · rw [hnone] at hr
      cases hr
  · rwa [update_of_ne hu] at hr

omit [DecidableEq τ] [DecidableEq γ] in
theorem request_afterWrite (r : Request γ) (async : Bool) :
    request (Refresh.afterWrite r async) = some r ∨
      request (Refresh.afterWrite r async) = none := by
  cases async with
  | true => exact Or.inl rfl
  | false => exact Or.inr rfl

variable {e : Refresh.Event γ τ} {cfg : Refresh.Config Memory.Items}

/-- A request goes on, or begins. -/
theorem request_step (h : Refresh.step cfg w e = some w') (t : τ) {r : Request γ}
    (hr : request (w'.jobs t) = some r) :
    request (w.jobs t) = some r ∨ (e = .call t r ∧ 0 < r.refreshAhead) := by
  cases e with
  | cancel c | tick d =>
    cases h
    exact Or.inl hr
  | call u r' =>
    have hcalled : ∀ {j : Job γ}, w.jobs u = j →
        (if r'.ttl ≤ 0 ∨ r'.refreshAhead ≤ 0 then some (w.put u .done)
          else some (w.put u (.called r'))) = some w' →
        request (w.jobs t) = some r ∨
          (Refresh.Event.call u r' = .call t r ∧ 0 < r.refreshAhead) := by
      intro j hj hcall
      split at hcall <;> cases hcall
      · exact Or.inl (request_of_update hr hj (Or.inr rfl))
      · rename_i hvalid
        by_cases hu : t = u
        · subst hu
          have hsame : r' = r := by
            have hput : (w.put t (.called r')).jobs t = .called r' := update_self _ _ _
            rw [hput] at hr
            exact Option.some.inj hr
          subst hsame
          exact Or.inr ⟨rfl, Int64.not_le.mp fun hle => hvalid (Or.inr hle)⟩
        · left
          have hput : (w.put u (.called r')).jobs t = w.jobs t := update_of_ne hu _ _
          rwa [hput] at hr
    simp only [Refresh.step] at h
    split at h
    · rename_i hj
      exact hcalled hj h
    · rename_i hj
      exact hcalled hj h
    · contradiction
  | tryLock u | attempt u | settle u | unlock u | release u | finish u =>
    simp only [Refresh.step] at h
    split at h
    · rename_i hj
      rcases Refresh.lockStep_eq_some h with ⟨d, hd, rfl⟩
      exact Or.inl (request_of_update hr hj (Or.inl rfl))
    · contradiction
  | acquire u | releaseCall u =>
    simp only [Refresh.step] at h
    split at h
    · rename_i hj hc
      split at h
      all_goals
        rcases Refresh.lockStep_eq_some h with ⟨d, hd, rfl⟩
        exact Or.inl (request_of_update hr hj (Or.inl rfl))
    · contradiction
  | write u err =>
    simp only [Refresh.step] at h
    split at h
    · rename_i r' async value hj
      split at h <;> cases h
      · exact Or.inl (request_of_update hr hj (request_afterWrite r' async))
      · exact Or.inl (request_of_update hr hj (Or.inl rfl))
    · rename_i r' async hj
      split at h <;> cases h <;>
        exact Or.inl (request_of_update hr hj (request_afterWrite r' async))
    · contradiction
  | lookup u =>
    simp only [Refresh.step] at h
    split at h
    · rename_i hj
      split at h
      · cases h
        exact Or.inl (request_of_update hr hj (Or.inr rfl))
      · split at h <;> cases h <;> exact Or.inl (request_of_update hr hj (Or.inl rfl))
    · contradiction
  | inspect u =>
    simp only [Refresh.step] at h
    split at h
    · rename_i hj
      split at h
      · cases h
        exact Or.inl (request_of_update hr hj (Or.inr rfl))
      · split at h <;> cases h
        · exact Or.inl (request_of_update hr hj (Or.inr rfl))
        · exact Or.inl (request_of_update hr hj (Or.inl rfl))
    · contradiction
  | resume u =>
    simp only [Refresh.step] at h
    split at h
    · rename_i hj hc
      split at h
      · split at h <;> cases h <;> exact Or.inl (request_of_update hr hj (Or.inl rfl))
      · cases h
        exact Or.inl (request_of_update hr hj (Or.inr rfl))
    · rename_i hj hc
      cases h
      exact Or.inl (request_of_update hr hj (Or.inr rfl))
    · contradiction
  | load u result =>
    simp only [Refresh.step] at h
    split at h
    · rename_i hj
      split at h <;> cases h <;> exact Or.inl (request_of_update hr hj (Or.inl rfl))
    · rename_i hj
      split at h <;> cases h
      · exact Or.inl (request_of_update hr hj (Or.inl rfl))
      · exact Or.inl (request_of_update hr hj (Or.inr rfl))
    · contradiction

theorem cancelled_step (h : Refresh.step cfg w e = some w') (he : ∀ c, e ≠ .cancel c) :
    w'.cancelled = w.cancelled := by
  cases e with
  | cancel c => exact absurd rfl (he c)
  | tryLock u | attempt u | settle u | unlock u | release u | finish u =>
    simp only [Refresh.step] at h
    split at h
    · rcases Refresh.lockStep_eq_some h with ⟨d, hd, rfl⟩
      rfl
    · contradiction
  | acquire u | releaseCall u =>
    simp only [Refresh.step] at h
    split at h
    · split at h
      all_goals
        rcases Refresh.lockStep_eq_some h with ⟨d, hd, rfl⟩
        rfl
    · contradiction
  | _ =>
    simp only [Refresh.step] at h
    repeat' split at h
    all_goals
      cases h
      try rfl

/-- A hit keeps the requests on the key. -/
theorem Calm.step (h : Calm key w) (he : Hits key w e) (hstep : Refresh.step cfg w e = some w') :
    Calm key w' where
  requests t r hr := by
    rcases request_step hstep t hr with hold | ⟨rfl, hpos⟩
    · exact h.requests t r hold
    · exact ⟨he.1, he.2, hpos⟩
  live c := by
    have hsame : w'.cancelled = w.cancelled := by
      refine cancelled_step hstep fun c heq => ?_
      rw [heq] at he
      exact he
    rw [hsame]
    exact h.live c

/-! ## The record of the lock -/

/-- The call has reserved the lock and not asked the store for it yet, or has given it back there
and not in the map yet. -/
def Waits (lock : Key) : Direct.Call → Prop
  | .reserved _ k _ => k = lock
  | .attempting _ k _ => k = lock
  | .unlocked k _ => k = lock
  | _ => False

/-- The lock record of the key in the store. -/
def lockRecord (key : Key) (w : Refresh.World γ τ Memory.Items) : Option Bytes :=
  Memory.get w.store w.now (lockKey (refreshLockKey key))

/-- The record carries the token of the Cache if there is one, and there is none while nobody has
the lock; a reservation was answered with a grant. -/
structure Record (key : Key) (token : Bytes) (w : Refresh.World γ τ Memory.Items) : Prop where
  mine : ∀ v, lockRecord key w = some v → v = token
  vacant : (w.direct.locks (refreshLockKey key) = none ∨
    ∃ t, Waits (refreshLockKey key) (w.direct.calls t)) → lockRecord key w = none
  granted : ∀ t m k ttl a, w.direct.calls t = .attempted m k ttl a → a = ⟨true, none⟩

omit [DecidableEq τ] [DecidableEq γ] in
/-- Such a call has a claim on the lock. -/
theorem claim_of_waits {lock : Key} {c : Direct.Call} (h : Waits lock c) :
    c.claim = .reserving lock ∨ c.claim = .releasing lock := by
  cases c with
  | reserved m k ttl | attempting m k ttl => exact Or.inl (congrArg _ h)
  | unlocked k err => exact Or.inr (congrArg _ h)
  | _ => cases h

section LockStep

variable {cfg : Direct.Config} {e : Direct.Event τ} {d : Direct.State τ}

omit [DecidableEq γ] in
/-- Reservations stay granted, if the step grants one. -/
theorem Record.granted_step (h : Record key token w) (hd : Direct.step cfg w.direct e = some d)
    (hanswer : ∀ m k ttl a, d.calls e.slot = .attempted m k ttl a → a = ⟨true, none⟩) (u : τ)
    (m : Direct.Method) (k : Key) (ttl : Duration) (a : Direct.Answer)
    (hu : d.calls u = .attempted m k ttl a) : a = ⟨true, none⟩ := by
  by_cases hslot : u = e.slot
  · rw [hslot] at hu
    exact hanswer m k ttl a hu
  · rw [(Direct.step_effect hd).calls_of_ne hslot] at hu
    exact h.granted u m k ttl a hu

omit [DecidableEq γ] in
/-- A step on the lock map leaves the record in order, if the slot that takes it left the lock to
nobody and does not wait for it now, unless nobody had it before. -/
theorem Record.frame (h : Record key token w) (hd : Direct.step cfg w.direct e = some d)
    (hlocks : d.locks (refreshLockKey key) = none →
      w.direct.locks (refreshLockKey key) = none ∨
        Waits (refreshLockKey key) (w.direct.calls e.slot))
    (hwaits : Waits (refreshLockKey key) (d.calls e.slot) →
      w.direct.locks (refreshLockKey key) = none ∨
        Waits (refreshLockKey key) (w.direct.calls e.slot))
    (hanswer : ∀ m k ttl a, d.calls e.slot = .attempted m k ttl a → a = ⟨true, none⟩)
    (jobs : τ → Job γ) : Record key token { w with direct := d, jobs := jobs } := by
  have hslot : w.direct.locks (refreshLockKey key) = none ∨
      Waits (refreshLockKey key) (w.direct.calls e.slot) → lockRecord key w = none :=
    fun hbefore => h.vacant (hbefore.imp_right fun hwait => ⟨e.slot, hwait⟩)
  refine ⟨h.mine, ?_, h.granted_step hd hanswer⟩
  rintro (hfree | ⟨u, hu⟩)
  · exact hslot (hlocks hfree)
  · by_cases hut : u = e.slot
    · rw [hut] at hu
      exact hslot (hwaits hu)
    · dsimp only at hu
      rw [(Direct.step_effect hd).calls_of_ne hut] at hu
      exact h.vacant (Or.inr ⟨u, hu⟩)

/-- The call is not between a reservation and its end, and not after the release. -/
def isClear : Direct.Call → Bool
  | .reserved _ _ _ | .attempting _ _ _ | .attempted _ _ _ _ | .unlocked _ _ => false
  | _ => true

omit [DecidableEq γ] in
/-- A step that leads to such a call. -/
theorem Record.clear (h : Record key token w) (hd : Direct.step cfg w.direct e = some d)
    {c : Direct.Call} (hcall : d.calls e.slot = c) (hclear : isClear c = true)
    (hlocks : d.locks (refreshLockKey key) = none →
      w.direct.locks (refreshLockKey key) = none ∨
        Waits (refreshLockKey key) (w.direct.calls e.slot))
    (jobs : τ → Job γ) : Record key token { w with direct := d, jobs := jobs } := by
  subst hcall
  refine h.frame hd hlocks (fun hwait => ?_) (fun m k ttl a ha => ?_) jobs
  · generalize d.calls e.slot = c at hwait hclear
    cases c with
    | reserved m k ttl | attempting m k ttl | unlocked k err => cases hclear
    | _ => cases hwait
  · rw [ha] at hclear
    cases hclear

end LockStep

omit [DecidableEq γ] [DecidableEq τ] in
/-- A step that leaves the lock map and the record alone. -/
theorem Record.quiet (h : Record key token w) (hdirect : w'.direct = w.direct)
    (hrecord : ∀ v, lockRecord key w' = some v → lockRecord key w = some v) :
    Record key token w' := by
  refine ⟨fun v hv => h.mine v (hrecord v hv), fun hfree => ?_, ?_⟩
  · rw [hdirect] at hfree
    cases hafter : lockRecord key w' with
    | none => rfl
    | some v => cases (h.vacant hfree).symm.trans (hrecord v hafter)
  · rw [hdirect]
    exact h.granted

/-- A reservation is not abandoned. -/
def Keeps (key : Key) (w w' : Refresh.World γ τ Memory.Items) : Prop :=
  w.direct.locks (refreshLockKey key) = some .acquiring →
    w'.direct.locks (refreshLockKey key) ≠ none

omit [DecidableEq γ] [DecidableEq τ] in
theorem keeps_of_same (h : w'.direct.locks (refreshLockKey key) =
    w.direct.locks (refreshLockKey key)) : Keeps key w w' := by
  intro hacquiring hnone
  rw [h, hacquiring] at hnone
  cases hnone

variable {cfg : Refresh.Config Memory.Items} {t : τ} {r : Request γ} {k : Key}

section

omit [DecidableEq γ]

theorem Record.tryLock (hrec : Record key token w) (hkey : r.key = key)
    (h : w.lockStep cfg (.tryLock t (refreshLockKey r.key) r.refreshAhead) t (.locking r) =
      some w') : Record key token w' ∧ Keeps key w w' := by
  subst hkey
  rcases Refresh.lockStep_eq_some h with ⟨d, hd, rfl⟩
  rcases tryLock_cases hd with ⟨⟨err, hcall⟩, hsame, -⟩ | ⟨hfree, hcall, hsets⟩
  · refine ⟨hrec.clear hd hcall rfl (fun hnone => Or.inl ?_) _, keeps_of_same (hsame _).1⟩
    rwa [(hsame _).1] at hnone
  · refine ⟨hrec.frame hd (fun _ => Or.inl hfree) (fun _ => Or.inl hfree) ?_ _,
      fun hacquiring => ?_⟩
    · intro m k ttl a ha
      cases hcall.symm.trans ha
    · rw [hfree] at hacquiring
      cases hacquiring

/-- The start of the call of the store; the lifetime of the lock is positive. -/
theorem Record.attempt (hrec : Record key token w) (hw : Refresh.Inv cfg w)
    (hj : w.jobs t = .locking r) (hkey : r.key = key) (hpos : 0 < r.refreshAhead)
    (h : w.lockStep cfg (.attempt t) t (.locking r) = some w') :
    Record key token w' ∧ Keeps key w w' := by
  subst hkey
  rcases Refresh.lockStep_eq_some h with ⟨d, hd, rfl⟩
  have hc := (hw.calls_of_attempt hj hd).1
  have hstep := hd
  simp only [Direct.step, hc, if_neg (Int64.not_le.mpr hpos), Option.some.injEq] at hd
  subst hd
  refine ⟨hrec.frame hstep Or.inl (fun _ => Or.inr ?_) ?_ _, keeps_of_same rfl⟩
  · dsimp only [Direct.Event.slot]
    rw [hc]
    rfl
  · intro m k ttl a ha
    cases (Direct.State.put_calls _ _ _).symm.trans ha

/-- The store grants the lock, because nobody has it. -/
theorem Record.acquire (hrec : Record key token w)
    (hw : Refresh.Inv (memoryCache storeTTL cacheTTL token) w) (hj : w.jobs t = .locking r)
    (hkey : r.key = key) {m : Direct.Method} {ttl : Duration}
    (hc : w.direct.calls t = .attempting m k ttl)
    (h : { w with store := (Memory.lockAcquire storeTTL w.store w.now (lockKey k) token ttl).1
      }.lockStep (memoryCache storeTTL cacheTTL token)
        (.acquireAnswer t ⟨(Memory.lockAcquire storeTTL w.store w.now (lockKey k) token ttl).2,
          none⟩) t (.locking r) = some w') : Record key token w' ∧ Keeps key w w' := by
  subst hkey
  have hlock : k = refreshLockKey r.key := by
    rcases Refresh.lockStep_eq_some h with ⟨d, hd, -⟩
    cases hc.symm.trans (hw.calls_of_acquireAnswer hj hd).1
    rfl
  subst hlock
  have hclaim : (w.direct.calls t).claim = .reserving (refreshLockKey r.key) := by
    rw [hc]
    rfl
  have hnone : lockRecord r.key w = none := hrec.vacant (Or.inr ⟨t, by rw [hc]; rfl⟩)
  rcases Memory.add_spec storeTTL w.store w.now (lockKey (refreshLockKey r.key)) token ttl with
    ⟨-, hadd⟩ | ⟨hsome, -⟩
  · rw [Memory.lockAcquire, hadd] at h
    rcases Refresh.lockStep_eq_some h with ⟨d, hd, rfl⟩
    have hstep := hd
    simp only [Direct.step, hc, Option.some.injEq] at hd
    subst hd
    refine ⟨⟨?_, ?_, hrec.granted_step hstep ?_⟩, keeps_of_same rfl⟩
    · intro v hv
      rcases ExpiringMap.get_eq_some_iff.mp hv with ⟨item, hitem, -, rfl⟩
      dsimp only at hitem
      rw [update_self] at hitem
      cases hitem
      rfl
    · -- nobody else has a claim on the lock
      rintro (hfree | ⟨u, hu⟩)
      · cases (hw.direct.locks_of_reserving hclaim).symm.trans hfree
      · by_cases hut : u = t
        · subst hut
          dsimp only at hu
          rw [Direct.State.put_calls] at hu
          cases hu
        · dsimp only [Direct.State.put] at hu
          rw [update_of_ne hut] at hu
          exact absurd (hw.direct.claim_unique (claim_of_waits hu) (Or.inl hclaim)) hut
    · intro m' k ttl' a ha
      cases (Direct.State.put_calls _ _ _).symm.trans ha
      rfl
  · rw [show w.store.get w.now (lockKey (refreshLockKey r.key)) = none from hnone] at hsome
    cases hsome

/-- The end of `TryLock` makes the reservation an entry. -/
theorem Record.settle (hrec : Record key token w) (hw : Refresh.Inv cfg w)
    (hj : w.jobs t = .locking r) (hkey : r.key = key)
    (h : w.lockStep cfg (.settle t) t (.locking r) = some w') :
    Record key token w' ∧ Keeps key w w' := by
  subst hkey
  rcases Refresh.lockStep_eq_some h with ⟨d, hd, rfl⟩
  obtain ⟨a, hc⟩ := hw.calls_of_settle hj hd
  cases hrec.granted t _ _ _ a hc
  have hstep := hd
  simp only [Direct.step, hc, Option.some.injEq] at hd
  subst hd
  have hheld : (w.direct.endAcquire t (refreshLockKey r.key) true none).locks
      (refreshLockKey r.key) = some .held := update_self _ _ _
  refine ⟨hrec.clear hstep (Direct.State.endAcquire_calls _ _ _ _ _) rfl (fun hnone => ?_) _,
    fun _ hnone => ?_⟩
  · cases hheld.symm.trans hnone
  · cases hheld.symm.trans hnone

theorem Record.unlock (hrec : Record key token w) (hkey : r.key = key)
    (h : w.lockStep cfg (.unlock t (refreshLockKey r.key)) t (.unlocking r) = some w') :
    Record key token w' ∧ Keeps key w w' := by
  subst hkey
  rcases Refresh.lockStep_eq_some h with ⟨d, hd, rfl⟩
  rcases unlock_cases hd with ⟨-, hcall, hsets⟩ | ⟨-, hcall, hsame⟩
  · refine ⟨hrec.clear hd hcall rfl (fun hnone => ?_) _, fun _ hnone => ?_⟩
    · cases hsets.status.symm.trans hnone
    · cases hsets.status.symm.trans hnone
  · refine ⟨hrec.clear hd hcall rfl (fun hnone => Or.inl ?_) _, keeps_of_same (hsame _).1⟩
    rwa [(hsame _).1] at hnone

theorem Record.release (hrec : Record key token w) (howner : cfg.direct.ownerErr = none)
    (h : w.lockStep cfg (.release t) t (.unlocking r) = some w') :
    Record key token w' ∧ Keeps key w w' := by
  rcases Refresh.lockStep_eq_some h with ⟨d, hd, rfl⟩
  have hstep := hd
  simp only [Direct.step, howner] at hd
  split at hd
  · cases hd
    exact ⟨hrec.clear hstep (Direct.State.put_calls _ _ _) rfl Or.inl _, keeps_of_same rfl⟩
  · contradiction

/-- The store removes the record, or there is none any more. -/
theorem Record.releaseCall (hrec : Record key token w)
    (hw : Refresh.Inv (memoryCache storeTTL cacheTTL token) w) (hj : w.jobs t = .unlocking r)
    (hkey : r.key = key) (hc : w.direct.calls t = .unlocking k)
    (h : { w with store := (Memory.lockRelease w.store w.now (lockKey k) token).1 }.lockStep
      (memoryCache storeTTL cacheTTL token)
        (.releaseAnswer t ⟨(Memory.lockRelease w.store w.now (lockKey k) token).2, none⟩) t
          (.unlocking r) = some w') : Record key token w' ∧ Keeps key w w' := by
  subst hkey
  rcases Refresh.lockStep_eq_some h with ⟨d, hd, rfl⟩
  cases hc.symm.trans (hw.calls_of_releaseAnswer hj hd)
  have hstep := hd
  simp only [Direct.step, hc, Option.some.injEq] at hd
  subst hd
  have hgone : Memory.get
      (Memory.lockRelease w.store w.now (lockKey (refreshLockKey r.key)) token).1 w.now
      (lockKey (refreshLockKey r.key)) = none := by
    rcases Memory.lockRelease_spec w.store w.now (lockKey (refreshLockKey r.key)) token with
      ⟨-, hrelease⟩ | ⟨hother, hrelease⟩
    · rw [hrelease, Memory.get, ExpiringMap.get]
      dsimp only
      rw [update_self]
    · rw [hrelease]
      cases hrecord : lockRecord r.key w with
      | none => exact hrecord
      | some v =>
        rw [hrec.mine v hrecord] at hrecord
        exact absurd hrecord hother
  refine ⟨⟨fun v hv => ?_, fun _ => hgone, hrec.granted_step hstep ?_⟩, keeps_of_same rfl⟩
  · cases hgone.symm.trans hv
  · intro m k ttl a ha
    cases (Direct.State.put_calls _ _ _).symm.trans ha

/-- The end of `Unlock` removes the entry, and the record is gone already. -/
theorem Record.finish (hrec : Record key token w) (hw : Refresh.Inv cfg w)
    (hj : w.jobs t = .unlocking r) (hkey : r.key = key)
    (h : w.lockStep cfg (.finish t) t (.unlocking r) = some w') :
    Record key token w' ∧ Keeps key w w' := by
  subst hkey
  rcases Refresh.lockStep_eq_some h with ⟨d, hd, rfl⟩
  have hc := hw.calls_of_finish hj hd
  have hreleasing : w.direct.locks (refreshLockKey r.key) = some .releasing := by
    refine hw.direct.locks_of_releasing (t := t) ?_
    rw [hc]
    rfl
  have hstep := hd
  simp only [Direct.step, hc, Option.some.injEq] at hd
  subst hd
  refine ⟨hrec.clear hstep (Direct.State.endRelease_calls _ _ _ _) rfl (fun _ => Or.inr ?_) _,
    fun hacquiring => ?_⟩
  · dsimp only [Direct.Event.slot]
    rw [hc]
    rfl
  · cases hreleasing.symm.trans hacquiring

end

/-- The steps that leave the lock map, the store and the clock alone. -/
def isQuiet : Refresh.Event γ τ → Bool
  | .call _ _ | .lookup _ | .inspect _ | .resume _ | .load _ _ => true
  | _ => false

theorem quiet_step {e : Refresh.Event γ τ} (h : Refresh.step cfg w e = some w')
    (he : isQuiet e = true) : w'.direct = w.direct ∧ w'.store = w.store ∧ w'.now = w.now := by
  cases e with
  | call u r | lookup u | inspect u | resume u | load u result =>
    simp only [Refresh.step] at h
    repeat' split at h
    all_goals
      cases h
      try exact ⟨rfl, rfl, rfl⟩
  | _ => cases he

omit [DecidableEq γ] [DecidableEq τ] in
/-- A write of another key leaves the record alone. -/
theorem lockRecord_set (hk : k ≠ lockKey (refreshLockKey key)) (d : DefaultTTL)
    (w : Refresh.World γ τ Memory.Items) (value : Bytes) (ttl : Duration) :
    lockRecord key { w with store := Memory.set d w.store w.now k value ttl } =
      lockRecord key w := by
  unfold lockRecord Memory.get ExpiringMap.get Memory.set ExpiringMap.set
  dsimp only
  rw [update_of_ne (Ne.symm hk)]

/-- The lock record is neither the value nor the metadata. -/
theorem ne_lockKey (key : Key) :
    key ≠ lockKey (refreshLockKey key) ∧ metaKey key ≠ lockKey (refreshLockKey key) := by
  have hlength : (lockKey (refreshLockKey key)).length = key.length + 22 := by
    rw [lockKey, refreshLockKey, List.length_append, List.length_append]
    change 7 + (15 + key.length) = _
    omega
  constructor
  · intro heq
    have hsame := congrArg List.length heq
    omega
  · intro heq
    have hsame := congrArg List.length heq
    rw [metaKey, List.length_append] at hsame
    change key.length + 14 = _ at hsame
    omega

omit [DecidableEq γ] [DecidableEq τ] in
/-- What is found later can be found now. -/
theorem lockRecord_tick {d : Nat} (hclock : unixNano w.now ≤ unixNano (w.now + d)) {v : Bytes}
    (hv : lockRecord key { w with now := w.now + d } = some v) : lockRecord key w = some v := by
  rcases ExpiringMap.get_eq_some_iff.mp hv with ⟨item, hitem, hlive, rfl⟩
  refine ExpiringMap.get_eq_some_iff.mpr ⟨item, hitem, ?_, rfl⟩
  by_contra hdead
  have hlater := ExpiringMap.expired_mono hclock (Bool.not_eq_false _ ▸ hdead)
  cases hlive.symm.trans hlater

/-- Every step of a hit keeps the record in order, and abandons no reservation. -/
theorem record_step (hw : Refresh.Inv (memoryCache storeTTL cacheTTL token) w) (hcalm : Calm key w)
    (hrec : Record key token w) {e : Refresh.Event γ τ} (he : Hits key w e)
    (h : Refresh.step (memoryCache storeTTL cacheTTL token) w e = some w') :
    Record key token w' ∧ Keeps key w w' := by
  have hvalid : ∀ {t : τ} {j : Job γ} {r : Request γ}, w.jobs t = j → request j = some r →
      r.key = key ∧ r.hasLoader = true ∧ 0 < r.refreshAhead :=
    fun hj hr => hcalm.requests _ _ (hj ▸ hr)
  cases e with
  | call u r | lookup u | inspect u | resume u | load u result =>
    rcases quiet_step h rfl with ⟨hdirect, hstore, hnow⟩
    refine ⟨hrec.quiet hdirect fun v hv => ?_, keeps_of_same (by rw [hdirect])⟩
    rwa [lockRecord, hstore, hnow] at hv
  | cancel c => cases he
  | tick d =>
    cases h
    exact ⟨hrec.quiet rfl fun v hv => lockRecord_tick he hv, keeps_of_same rfl⟩
  | write t err =>
    simp only [Refresh.step] at h
    split at h
    · rename_i r async value hj
      obtain rfl := (hvalid hj rfl).1
      split at h <;> cases h
      · exact ⟨hrec.quiet rfl fun v hv => hv, keeps_of_same rfl⟩
      · refine ⟨hrec.quiet rfl fun v hv => ?_, keeps_of_same rfl⟩
        rw [← lockRecord_set (ne_lockKey r.key).1]
        exact hv
    · rename_i r async hj
      obtain rfl := (hvalid hj rfl).1
      split at h <;> cases h
      · exact ⟨hrec.quiet rfl fun v hv => hv, keeps_of_same rfl⟩
      · refine ⟨hrec.quiet rfl fun v hv => ?_, keeps_of_same rfl⟩
        rw [← lockRecord_set (ne_lockKey r.key).2]
        exact hv
    · contradiction
  | tryLock t =>
    simp only [Refresh.step] at h
    split at h
    · rename_i r hj
      exact hrec.tryLock (hvalid hj rfl).1 h
    · contradiction
  | attempt t =>
    simp only [Refresh.step] at h
    split at h
    · rename_i r hj
      exact hrec.attempt hw hj (hvalid hj rfl).1 (hvalid hj rfl).2.2 h
    · contradiction
  | acquire t =>
    simp only [Refresh.step] at h
    split at h
    · rename_i r m k ttl hj hc
      rw [hcalm.live r.ctx] at h
      exact hrec.acquire hw hj (hvalid hj rfl).1 hc h
    · contradiction
  | settle t =>
    simp only [Refresh.step] at h
    split at h
    · rename_i r hj
      exact hrec.settle hw hj (hvalid hj rfl).1 h
    · contradiction
  | unlock t =>
    simp only [Refresh.step] at h
    split at h
    · rename_i r hj
      exact hrec.unlock (hvalid hj rfl).1 h
    · contradiction
  | release t =>
    simp only [Refresh.step] at h
    split at h
    · exact hrec.release rfl h
    · contradiction
  | releaseCall t =>
    simp only [Refresh.step] at h
    split at h
    · rename_i r k hj hc
      rw [hcalm.live r.ctx] at h
      exact hrec.releaseCall hw hj (hvalid hj rfl).1 hc h
    · contradiction
  | finish t =>
    simp only [Refresh.step] at h
    split at h
    · rename_i r hj
      exact hrec.finish hw hj (hvalid hj rfl).1 h
    · contradiction

end Background
end Lock
end GoforjCache
