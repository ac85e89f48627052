import GoforjCache.Lock.Background

/-!
# Locks - Background refreshes never overlap

Every step of the requests over any backend, and every whole run.  The goroutine at work is a tenant
of the refresh lock, and a resource has at most one tenant.

Main results:

- Theorem `step_refines`: every step keeps the invariant, and is one of
  `Foundation.Tenancy` or none.
- Theorem `refreshes_never_overlap`: at most one goroutine of a key is between the start of its
  loader and the end of its writes.
- Theorem `refresh_step`: the steps of `Lock.Refresh`, over a store, are steps over some
  backend.
-/

namespace GoforjCache
namespace Lock
namespace Background

open Function Foundation Foundation.Transition
open Direct (Answer)
open Refresh (Job Request refreshLockKey)

variable {γ τ : Type} [DecidableEq τ]

/-! ## Every step -/

section Steps

variable {cfg : Direct.Config} {key : Key} {w w' : World γ τ} {t : τ}

/-- A step of one slot keeps the invariant when the slot ends in a matching state. -/
theorem Inv.advance (hw : Inv key w) (hdirect : Direct.Inv w'.direct)
    (hjobs : ∀ u, u ≠ t → w'.jobs u = w.jobs u)
    (hcalls : ∀ u, u ≠ t → w'.direct.calls u = w.direct.calls u)
    (h : Fits (refreshLockKey key) (w'.jobs t) (w'.direct.calls t) ∧ Moves key w w' t) :
    Inv key w' ∧ Moves key w w' t := by
  rcases h with ⟨hfits, hmoves⟩
  refine ⟨⟨hdirect, fun u => ?_, ?_⟩, hmoves⟩
  · by_cases hu : u = t
    · rw [hu]
      exact hfits
    · rw [hjobs u hu, hcalls u hu]
      exact hw.fits u
  · rcases hmoves with hsame | ⟨a, hstep, -⟩
    · rw [hsame]
      exact hw.sound
    · exact hw.sound.step hstep

variable {j : Job γ} {e : Direct.Event τ}

/-- A step that leaves the lock map alone keeps the invariant. -/
theorem Inv.put (hw : Inv key w) (hj : j.inside = false)
    (hcall : (w.direct.calls t).inFlight ≠ some (refreshLockKey key))
    (hpass : Passes (w.jobs t) (stageOf key (w.jobs t) (w.direct.calls t))
      (stageOf key j (w.direct.calls t))) : Inv key (w.put t j) ∧ Moves key w (w.put t j) t := by
  refine hw.advance hw.direct (fun u hu => update_of_ne hu _ _) (fun _ _ => rfl)
    ⟨?_, moves_put hpass⟩
  have hput : (w.put t j).jobs t = j := update_self _ _ _
  rw [hput, fits_of_outside hj]
  exact hcall

/-- A step between two phases outside the lock map keeps the invariant. -/
theorem Inv.job (hw : Inv key w) {j' : Job γ} (hj : w.jobs t = j) (hfrom : j.inside = false)
    (hto : j'.inside = false)
    (hpass : Passes j (stageOf key j (w.direct.calls t)) (stageOf key j' (w.direct.calls t))) :
    Inv key (w.put t j') ∧ Moves key w (w.put t j') t := by
  have hfits := hw.fits t
  rw [hj, fits_of_outside hfrom] at hfits
  exact hw.put hto hfits (by rw [hj]; exact hpass)

/-- A step on the lock map keeps the invariant. -/
theorem Inv.lockStep (hw : Inv key w) (h : w.lockStep cfg e e.slot j = some w')
    (hmoves : ∀ d, Direct.step cfg w.direct e = some d →
      Fits (refreshLockKey key) j (d.calls e.slot) ∧
        Moves key w ⟨d, update w.jobs e.slot j⟩ e.slot) : Inv key w' ∧ Moves key w w' e.slot := by
  rcases Option.map_eq_some_iff.mp h with ⟨d, hd, rfl⟩
  refine hw.advance (Direct.inv_step hw.direct hd) (fun u hu => update_of_ne hu _ _)
    (fun u hu => (Direct.step_effect hd).calls_of_ne hu) ?_
  dsimp only
  rw [update_self]
  exact hmoves d hd

/-- A goroutine goes on inside `TryLock`. -/
theorem Inv.locking (hw : Inv key w) {r : Request γ}
    (h : w.lockStep cfg e e.slot (.locking r) = some w') (he : goesOn e = true)
    (hj : w.jobs e.slot = .locking r) : Inv key w' ∧ Moves key w w' e.slot := by
  refine hw.lockStep h fun d hd => ?_
  have hfits := hw.fits e.slot
  rw [hj] at hfits
  rcases hfits with hown | ⟨locked, err, hdone⟩
  · exact moves_locking hw hj hown (Direct.step_effect hd)
  · refine absurd ?_ (claim_of_goesOn hd he)
    rw [hdone]
    rfl

/-- A goroutine goes on inside `Unlock`. -/
theorem Inv.unlocking (hw : Inv key w) {r : Request γ}
    (h : w.lockStep cfg e e.slot (.unlocking r) = some w') (he : goesOn e = true)
    (hj : w.jobs e.slot = .unlocking r) : Inv key w' ∧ Moves key w w' e.slot := by
  refine hw.lockStep h fun d hd => ?_
  have hfits := hw.fits e.slot
  rw [hj] at hfits
  rcases hfits with hown | ⟨err, hdone⟩
  · exact moves_unlocking hw hj hown (Direct.step_effect hd)
  · refine absurd ?_ (claim_of_goesOn hd he)
    rw [hdone]
    rfl

/-- A goroutine returns from `TryLock` or `Unlock`. -/
theorem Inv.resume (hw : Inv key w) (h : step cfg w (.resume t) = some w') :
    Inv key w' ∧ Moves key w w' t := by
  simp only [step] at h
  split at h
  · rename_i r lock locked err hj hc
    have hflight : (w.direct.calls t).inFlight ≠ some (refreshLockKey key) := by
      rw [hc]
      exact fun h => nomatch h
    have hstage : stageOf key (w.jobs t) (w.direct.calls t) =
        if r.key = key ∧ Answer.succeeded ⟨locked, err⟩ = true then .granted else .apart := by
      rw [hj, hc]
      rfl
    split at h
    · rename_i hok
      split at h
      · cases h
        refine hw.put rfl hflight ?_
        rw [hstage]
        by_cases hkey : r.key = key
        · rw [if_pos ⟨hkey, hok⟩, stageOf, if_pos hkey]
          exact .start
        · rw [if_neg fun h => hkey h.1, stageOf, if_neg hkey]
          exact .same _
      · rename_i hloader
        cases h
        refine hw.put rfl hflight ?_
        rw [hstage]
        by_cases hkey : r.key = key
        · rw [if_pos ⟨hkey, hok⟩, stageOf, if_pos hkey]
          exact .skip r hj (Bool.eq_false_iff.mpr hloader)
        · rw [if_neg fun h => hkey h.1, stageOf, if_neg hkey]
          exact .same _
    · rename_i hfail
      cases h
      refine hw.put rfl hflight ?_
      rw [hstage, if_neg fun h => hfail h.2]
      exact .same _
  · rename_i r lock err hj hc
    cases h
    refine hw.put rfl ?_ ?_
    · rw [hc]
      exact fun h => nomatch h
    · rw [hj]
      exact .same _
  · contradiction

/-- Every step keeps the invariant and does nothing to the refresh lock, or what a tenant may do
with it. -/
theorem step_refines {e : Event γ τ} (hw : Inv key w) (hspares : e.Spares (refreshLockKey key))
    (h : step cfg w e = some w') : Inv key w' ∧ Moves key w w' e.slot := by
  cases e with
  | resume t => exact hw.resume h
  | call t r =>
    simp only [step] at h
    split at h
    · rename_i hj
      split at h <;> cases h <;> exact hw.job hj rfl rfl (.same _)
    · rename_i hj
      split at h <;> cases h <;> exact hw.job hj rfl rfl (.same _)
    · contradiction
  | lookup t answer =>
    simp only [step] at h
    split at h
    · rename_i r hj
      split at h <;> cases h <;> exact hw.job hj rfl rfl (.same _)
    · contradiction
  | inspect t answer now =>
    simp only [step] at h
    split at h
    · rename_i r hj
      split at h
      · cases h
        exact hw.job hj rfl rfl (.same _)
      · split at h <;> cases h <;> exact hw.job hj rfl rfl (.same _)
    · contradiction
  | load t result =>
    simp only [step] at h
    split at h
    · rename_i r hj
      split at h
      · cases h
        exact hw.job hj rfl rfl (passes_finish key r _)
      · cases h
        exact hw.job hj rfl rfl (.same _)
    · rename_i r hj
      split at h <;> cases h <;> exact hw.job hj rfl rfl (.same _)
    · contradiction
  | write t err =>
    simp only [step] at h
    split at h
    · rename_i r async value hj
      cases async with
      | true =>
        split at h <;> cases h
        · exact hw.job hj rfl rfl (passes_finish key r _)
        · exact hw.job hj rfl rfl (.same _)
      | false => split at h <;> cases h <;> exact hw.job hj rfl rfl (.same _)
    · rename_i r async hj
      cases async with
      | true =>
        cases h
        exact hw.job hj rfl rfl (passes_finish key r _)
      | false =>
        cases h
        exact hw.job hj rfl rfl (.same _)
    · contradiction
  | tryLock t =>
    simp only [step] at h
    split at h
    · rename_i r hj
      exact hw.lockStep h fun d hd => moves_tryLock hj hd
    · contradiction
  | unlock t =>
    simp only [step] at h
    split at h
    · rename_i r hj
      exact hw.lockStep h fun d hd => moves_unlock hw hj hd
    · contradiction
  | attempt t | acquire t answer | settle t =>
    simp only [step] at h
    split at h
    · rename_i r hj
      exact hw.locking h rfl hj
    · contradiction
  | release t | releaseCall t answer | finish t =>
    simp only [step] at h
    split at h
    · rename_i r hj
      exact hw.unlocking h rfl hj
    · contradiction
  | other e =>
    simp only [step] at h
    split at h
    · contradiction
    · rename_i hj
      rcases Option.map_eq_some_iff.mp h with ⟨d, hd, rfl⟩
      exact hw.advance (Direct.inv_step hw.direct hd) (fun _ _ => rfl)
        (fun u hu => (Direct.step_effect hd).calls_of_ne hu)
        (moves_other hw (Bool.eq_false_iff.mpr hj) hspares hd)

/-- Every run in which others do not use the refresh lock keeps the invariant. -/
theorem inv_run {w₀ : World γ τ} (hw : Inv key w₀) {es : List (Event γ τ)}
    (hspares : ∀ e ∈ es, e.Spares (refreshLockKey key)) (hrun : run (step cfg) w₀ es = some w) :
    Inv key w :=
  run_preserves_along (fun _ _ _ hw hspares h => (step_refines hw hspares h).1) hw
    (along_of_forall (G := fun _ e => e.Spares (refreshLockKey key))
      (fun e he _ => hspares e he) w₀) hrun

end Steps

/-! ## Refreshes never overlap -/

/-- The key of a goroutine between the start of its loader and the end of its writes. -/
def refreshing : Job γ → Option Key
  | .loading r => some r.key
  | .writing r true _ => some r.key
  | .writingMeta r true => some r.key
  | _ => none

omit [DecidableEq τ] in
/-- Such a goroutine is a tenant at work. -/
theorem stageOf_eq_working_iff {key : Key} {j : Job γ} {c : Direct.Call} :
    stageOf key j c = .working ↔ refreshing j = some key := by
  have hworking : ∀ r : Request γ, (if r.key = key then Tenancy.Stage.working else .apart) =
      .working ↔ some r.key = some key := by
    intro r
    by_cases hkey : r.key = key
    · rw [if_pos hkey, hkey]
      exact iff_of_true rfl rfl
    · rw [if_neg hkey]
      exact iff_of_false (fun h => nomatch h) fun h => hkey (Option.some.inj h)
  unfold stageOf refreshing
  cases j with
  | loading r => exact hworking r
  | writing r async value =>
    cases async with
    | true => exact hworking r
    | false => exact iff_of_false (fun h => nomatch h) fun h => nomatch h
  | writingMeta r async =>
    cases async with
    | true => exact hworking r
    | false => exact iff_of_false (fun h => nomatch h) fun h => nomatch h
  | leaving r =>
    refine iff_of_false (fun h => ?_) fun h => nomatch h
    dsimp only at h
    split at h <;> cases h
  | locking r =>
    refine iff_of_false (fun h => ?_) fun h => nomatch h
    cases c with
    | done result =>
      cases result with
      | acquire lock locked err =>
        dsimp only at h
        split at h <;> cases h
      | unlock lock err => cases h
    | _ => cases h
  | _ => exact iff_of_false (fun h => nomatch h) fun h => nomatch h

/--
Background refreshes of a key never overlap.  Take one Cache with all its clones, any number of
concurrent requests with any arguments, any results of the loaders, any readings of the clock and
any answers and errors of the backend, and calls of others on the lock map that do not use the
refresh lock of the key.  In every state that is reached, at most one goroutine of the key is
between the start of its loader and the end of its writes.
-/
theorem refreshes_never_overlap {cfg : Direct.Config} {w₀ w : World γ τ} (hinit : w₀.Initial)
    {key : Key} {es : List (Event γ τ)} (hspares : ∀ e ∈ es, e.Spares (refreshLockKey key))
    (hrun : run (step cfg) w₀ es = some w) {t u : τ} (ht : refreshing (w.jobs t) = some key)
    (hu : refreshing (w.jobs u) = some key) : t = u := by
  have hw := inv_run (hinit.inv key) hspares hrun
  have hworking : ∀ v, refreshing (w.jobs v) = some key → (tenancy key w).stage v ≠ .apart := by
    intro v hv
    have hstage : (tenancy key w).stage v = .working := stageOf_eq_working_iff.mpr hv
    rw [hstage]
    decide
  exact hw.sound.unique t u (hworking t ht) (hworking u hu)

/-- A new Cache with two slots. -/
def newCache : World Bool Bool := ⟨Direct.State.initial, fun _ => .idle⟩

/-- Two hits near the expiry: the first goroutine is granted the lock and runs its loader, the
second one is refused, and then its slot takes another lock. -/
def twoHits : List (Event Bool Bool) :=
  [.call false (Refresh.sampleRequest false), .call true (Refresh.sampleRequest true),
    .lookup false (.ok (some [])), .lookup true (.ok (some [])),
    .inspect false (.ok (some (ascii "50"))) 0, .inspect true (.ok (some (ascii "50"))) 0,
    .tryLock false, .attempt false, .acquire false ⟨true, none⟩, .settle false, .resume false,
    .tryLock true, .resume true, .other (.tryLock true (ascii "job") 5)]

/-- The Cache after that run. -/
def twoHitsEnd : World Bool Bool := (run (step ⟨none⟩) newCache twoHits).getD newCache

/-- The first goroutine runs its loader, and no other one does. -/
theorem refreshes_never_overlap_twoHits :
    refreshing (twoHitsEnd.jobs false) = some (ascii "k") ∧
      ∀ t, refreshing (twoHitsEnd.jobs t) = some (ascii "k") → t = false := by
  have hrun : run (step ⟨none⟩) newCache twoHits = some twoHitsEnd := rfl
  have hspares : ∀ e ∈ twoHits, e.Spares (refreshLockKey (ascii "k")) := by
    simp [twoHits, Event.Spares, target]
    decide
  have hfirst : refreshing (twoHitsEnd.jobs false) = some (ascii "k") := by decide
  exact ⟨hfirst, fun t ht => refreshes_never_overlap ⟨rfl, fun _ => rfl⟩ hspares hrun ht hfirst⟩

/-! ## The steps over a store -/

section Store

variable {σ : Type} [DecidableEq γ]

/-- The lock map and the requests of a Cache over a store. -/
def view (w : Refresh.World γ τ σ) : World γ τ := ⟨w.direct, w.jobs⟩

/-- The slot that takes a step over a store. -/
def slotOf : Refresh.Event γ τ → Option τ
  | .call t _ | .lookup t | .inspect t | .tryLock t | .attempt t | .acquire t | .settle t
  | .resume t | .load t _ | .write t _ | .unlock t | .release t | .releaseCall t | .finish t =>
    some t
  | .cancel _ | .tick _ => none

omit [DecidableEq γ] in
/-- A step on the lock map over a store is one over some backend, if the request takes the same step
on the map. -/
theorem lockStep_simulates {cfg : Refresh.Config σ} {w w' : Refresh.World γ τ σ}
    {store : σ} {e : Direct.Event τ} {t : τ} {j : Job γ} {slot : Option τ} (e' : Event γ τ)
    (hslot : slot = some e'.slot)
    (hstep : step cfg.direct (view w) e' = (view w).lockStep cfg.direct e t j ∧
      ∀ lock, e'.Spares lock) (h : { w with store := store }.lockStep cfg e t j = some w') :
    ∃ e' : Event γ τ, slot = some e'.slot ∧ (∀ lock, e'.Spares lock) ∧
      step cfg.direct (view w) e' = some (view w') := by
  rcases Refresh.lockStep_eq_some h with ⟨d, hd, rfl⟩
  exact ⟨e', hslot, hstep.2, hstep.1.trans (Option.map_eq_some_iff.mpr ⟨d, hd, rfl⟩)⟩

/-- A step over a store is the step of the same slot over some backend. -/
def Simulated (cfg : Refresh.Config σ) (w w' : Refresh.World γ τ σ) (e : Refresh.Event γ τ) :
    Prop :=
  ∃ e' : Event γ τ, slotOf e = some e'.slot ∧ (∀ lock, e'.Spares lock) ∧
    step cfg.direct (view w) e' = some (view w')

variable {cfg : Refresh.Config σ} {w w' : Refresh.World γ τ σ} {t : τ}

/-- A call is answered by the tests of its durations. -/
theorem call_simulated {r : Request γ} (h : Refresh.step cfg w (.call t r) = some w') :
    Simulated cfg w w' (.call t r) := by
  refine ⟨.call t r, rfl, fun _ => trivial, ?_⟩
  simp only [Refresh.step] at h
  split at h
  · rename_i hj
    split at h <;> cases h <;> rename_i hvalid <;> simp only [step, view, hj, hvalid] <;> rfl
  · rename_i hj
    split at h <;> cases h <;> rename_i hvalid <;> simp only [step, view, hj, hvalid] <;> rfl
  · contradiction

/-- The lookup of a cancelled context is one that fails. -/
theorem lookup_simulated (h : Refresh.step cfg w (.lookup t) = some w') :
    Simulated cfg w w' (.lookup t) := by
  simp only [Refresh.step] at h
  split at h
  · rename_i r hj
    split at h
    · cases h
      refine ⟨.lookup t (.error .contextDone), rfl, fun _ => trivial, ?_⟩
      simp only [step, view, hj]
      rfl
    · refine ⟨.lookup t (.ok (cfg.backend.get w.store w.now r.key)), rfl, fun _ => trivial, ?_⟩
      split at h <;> cases h <;> rename_i hget <;> simp only [step, view, hj, hget] <;> rfl
  · contradiction

/-- The expiry that the store has is one that a backend may have. -/
theorem inspect_simulated (h : Refresh.step cfg w (.inspect t) = some w') :
    Simulated cfg w w' (.inspect t) := by
  simp only [Refresh.step] at h
  split at h
  · rename_i r hj
    refine ⟨.inspect t (.ok (cfg.backend.get w.store w.now (Refresh.metaKey r.key))) w.now, rfl,
      fun _ => trivial, ?_⟩
    split at h
    · cases h
      rename_i hmeta
      simp only [step, view, hj, Except.toOption, Option.join_some, hmeta]
      rfl
    · rename_i expiresAt hmeta
      split at h <;> cases h <;> rename_i hfar <;>
        simp only [step, view, hj, Except.toOption, Option.join_some, hmeta, hfar] <;> rfl
  · contradiction

/-- Loaders are the same over every backend. -/
theorem load_simulated {result : Except CacheError Bytes}
    (h : Refresh.step cfg w (.load t result) = some w') : Simulated cfg w w' (.load t result) := by
  refine ⟨.load t result, rfl, fun _ => trivial, ?_⟩
  simp only [Refresh.step] at h
  split at h
  · rename_i r hj
    split at h <;> cases h <;> simp only [step, view, hj] <;> rfl
  · rename_i r hj
    cases hloader : r.hasLoader with
    | false =>
      simp only [hloader] at h
      cases h
      simp only [step, view, hj, hloader]
      rfl
    | true =>
      simp only [hloader] at h
      cases result <;> cases h <;> simp only [step, view, hj, hloader] <;> rfl
  · contradiction

/-- The write of a cancelled context is one that fails. -/
theorem write_simulated {err : Option CacheError}
    (h : Refresh.step cfg w (.write t err) = some w') : Simulated cfg w w' (.write t err) := by
  simp only [Refresh.step] at h
  split at h
  · rename_i r async value hj
    split at h <;> cases h
    · refine ⟨.write t (some .contextDone), rfl, fun _ => trivial, ?_⟩
      simp only [step, view, hj]
      rfl
    · refine ⟨.write t none, rfl, fun _ => trivial, ?_⟩
      simp only [step, view, hj]
      rfl
  · rename_i r async hj
    refine ⟨.write t err, rfl, fun _ => trivial, ?_⟩
    simp only [step, view, hj]
    split at h <;> cases h <;> rfl
  · contradiction

/-- A request goes on with the answer of the lock map. -/
theorem resume_simulated (h : Refresh.step cfg w (.resume t) = some w') :
    Simulated cfg w w' (.resume t) := by
  refine ⟨.resume t, rfl, fun _ => trivial, ?_⟩
  simp only [Refresh.step] at h
  split at h
  · rename_i r lock locked err hj hc
    simp only [step, view, hj, hc]
    split at h
    · rename_i hok
      rw [if_pos hok]
      split at h <;> cases h <;> rename_i hloader <;> simp only [hloader] <;> rfl
    · rename_i hfail
      cases h
      rw [if_neg hfail]
      rfl
  · rename_i r lock err hj hc
    cases h
    simp only [step, view, hj, hc]
    rfl
  · contradiction

/-- Every step over a store that fails calls with a cancelled context is a step over some backend,
or one of the contexts or of the clock. -/
theorem refresh_step {e : Refresh.Event γ τ} (h : Refresh.step cfg w e = some w') :
    (slotOf e = none ∧ view w' = view w) ∨
      ∃ e' : Event γ τ, slotOf e = some e'.slot ∧ (∀ lock, e'.Spares lock) ∧
        step cfg.direct (view w) e' = some (view w') := by
  cases e with
  | cancel c =>
    cases h
    exact Or.inl ⟨rfl, rfl⟩
  | tick d =>
    cases h
    exact Or.inl ⟨rfl, rfl⟩
  | call t r => exact Or.inr (call_simulated h)
  | lookup t => exact Or.inr (lookup_simulated h)
  | inspect t => exact Or.inr (inspect_simulated h)
  | load t result => exact Or.inr (load_simulated h)
  | write t err => exact Or.inr (write_simulated h)
  | resume t => exact Or.inr (resume_simulated h)
  | tryLock t =>
    simp only [Refresh.step] at h
    split at h
    · rename_i r hj
      exact Or.inr (lockStep_simulates (.tryLock t) rfl
        ⟨by simp only [step, view, hj], fun _ => trivial⟩ h)
    · contradiction
  | attempt t =>
    simp only [Refresh.step] at h
    split at h
    · rename_i r hj
      exact Or.inr (lockStep_simulates (.attempt t) rfl
        ⟨by simp only [step, view, hj], fun _ => trivial⟩ h)
    · contradiction
  | settle t =>
    simp only [Refresh.step] at h
    split at h
    · rename_i r hj
      exact Or.inr (lockStep_simulates (.settle t) rfl
        ⟨by simp only [step, view, hj], fun _ => trivial⟩ h)
    · contradiction
  | unlock t =>
    simp only [Refresh.step] at h
    split at h
    · rename_i r hj
      exact Or.inr (lockStep_simulates (.unlock t) rfl
        ⟨by simp only [step, view, hj], fun _ => trivial⟩ h)
    · contradiction
  | release t =>
    simp only [Refresh.step] at h
    split at h
    · rename_i r hj
      exact Or.inr (lockStep_simulates (.release t) rfl
        ⟨by simp only [step, view, hj], fun _ => trivial⟩ h)
    · contradiction
  | finish t =>
    simp only [Refresh.step] at h
    split at h
    · rename_i r hj
      exact Or.inr (lockStep_simulates (.finish t) rfl
        ⟨by simp only [step, view, hj], fun _ => trivial⟩ h)
    · contradiction
  | acquire t =>
    simp only [Refresh.step] at h
    split at h
    · rename_i r m lock ttl hj hc
      split at h
      · exact Or.inr (lockStep_simulates (.acquire t ⟨false, some .contextDone⟩) rfl
          ⟨by simp only [step, view, hj], fun _ => trivial⟩ h)
      · exact Or.inr (lockStep_simulates
          (.acquire t
            ⟨(cfg.backend.lockAcquire w.store w.now (lockKey lock) cfg.token ttl).2, none⟩) rfl
          ⟨by simp only [step, view, hj], fun _ => trivial⟩ h)
    · contradiction
  | releaseCall t =>
    simp only [Refresh.step] at h
    split at h
    · rename_i r lock hj hc
      split at h
      · exact Or.inr (lockStep_simulates (.releaseCall t ⟨false, some .contextDone⟩) rfl
          ⟨by simp only [step, view, hj], fun _ => trivial⟩ h)
      · exact Or.inr (lockStep_simulates
          (.releaseCall t
            ⟨(cfg.backend.lockRelease w.store w.now (lockKey lock) cfg.token).2, none⟩) rfl
          ⟨by simp only [step, view, hj], fun _ => trivial⟩ h)
    · contradiction

end Store

end Background
end Lock
end GoforjCache
