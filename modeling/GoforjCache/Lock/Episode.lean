import GoforjCache.Lock.MemoryRefresh
import GoforjCache.Lock.Overlap

/-!
# Locks - Refreshes of one near-expiry episode

Several hits read the same near-expiry metadata, and each of them starts a goroutine.  The
goroutines decide nothing any more: the one that gets the refresh lock loads, and after its
`Unlock` the next one that calls `TryLock` gets it again and loads once more, although the
metadata has been rewritten meanwhile.

A tally goes along with the run: how often a goroutine of the key has started its loader, and
whether one has called `TryLock` after the lock was given back.

Main results:

- Theorem `counted_moves`: the grants of the refresh lock are counted by the started loaders.
- Theorem `one_refresh_iff`: the loader is started at most once if and only if no goroutine
  calls `TryLock` after the lock was given back.
- Theorem `late_goroutine_loads_again`: two hits at the same instant, two loads.
-/

namespace GoforjCache
namespace Lock
namespace Background

open Foundation Foundation.Transition
open Direct (Answer)
open Refresh (Job Request refreshLockKey metaKey memoryBackend)
open Tenancy (Act Mode Stage Sound Counted)

variable {γ τ : Type} [DecidableEq γ] [DecidableEq τ]

/-! ## The tally -/

/-- A Cache with the number of loaders that goroutines of the key have started, and whether one of
them has called `TryLock` after the lock was given back. -/
structure Tally (γ τ σ : Type) where
  world : Refresh.World γ τ σ
  loads : Nat
  late : Bool

/-- A slot starts its loader in the background. -/
def starts (key : Key) (j j' : Job γ) : Nat :=
  if refreshing j ≠ some key ∧ refreshing j' = some key then 1 else 0

/-- The slot calls `TryLock`, the only thing that a new goroutine does, and more lifecycles of
the lock have been closed than before the episode. -/
def callsLate {σ : Type} (key : Key) (base : Nat) (w : Refresh.World γ τ σ) (t : τ) : Bool :=
  match w.jobs t with
  | .spawned r => decide (r.key = key) && decide (base < w.direct.closed (refreshLockKey key))
  | _ => false

/-- The tally after a step to a state. -/
def Tally.next {σ : Type} (key : Key) (base : Nat) (T : Tally γ τ σ) (e : Refresh.Event γ τ)
    (w : Refresh.World γ τ σ) : Tally γ τ σ :=
  match slotOf e with
  | none => { T with world := w }
  | some t =>
    { world := w
      loads := T.loads + starts key (T.world.jobs t) (w.jobs t)
      late := T.late || callsLate key base T.world t }

/-- One step with its tally. -/
def tally {σ : Type} (cfg : Refresh.Config σ) (key : Key) (base : Nat) (T : Tally γ τ σ)
    (e : Refresh.Event γ τ) : Option (Tally γ τ σ) :=
  (Refresh.step cfg T.world e).map (T.next key base e)

omit [DecidableEq γ] [DecidableEq τ] in
@[simp]
theorem Tally.next_world {σ : Type} (key : Key) (base : Nat) (T : Tally γ τ σ)
    (e : Refresh.Event γ τ) (w : Refresh.World γ τ σ) : (T.next key base e w).world = w := by
  unfold Tally.next
  cases slotOf e <;> rfl

/-- Every run has a tally, and the tally changes nothing. -/
theorem run_tally {σ : Type} {cfg : Refresh.Config σ} {key : Key} {base : Nat} {T : Tally γ τ σ}
    {es : List (Refresh.Event γ τ)} {w : Refresh.World γ τ σ} :
    run (Refresh.step cfg) T.world es = some w ↔
      ∃ T', run (tally cfg key base) T es = some T' ∧ T'.world = w := by
  induction es generalizing T with
  | nil =>
    constructor
    · intro h
      cases h
      exact ⟨T, rfl, rfl⟩
    · rintro ⟨T', h, rfl⟩
      cases h
      rfl
  | cons e es ih =>
    rw [run_cons, run_cons, tally]
    cases hstep : Refresh.step cfg T.world e with
    | none =>
      refine iff_of_false (fun h => nomatch h) ?_
      rintro ⟨T', h, -⟩
      cases h
    | some v => rw [Option.bind_some, Option.map_some, Option.bind_some, ← ih, Tally.next_world]

/-! ## Grants and late calls -/

section Tenants

variable {key : Key} {w w' : World γ τ} {t : τ}

omit [DecidableEq γ] [DecidableEq τ] in
/-- The starts of loaders are the starts of tenants. -/
theorem starts_eq (key : Key) (w w' : World γ τ) (t : τ) :
    starts key (w.jobs t) (w'.jobs t) =
      if (tenancy key w).stage t ≠ .working ∧ (tenancy key w').stage t = .working then 1
      else 0 := by
  unfold starts
  congr 1
  exact propext (and_congr (not_congr stageOf_eq_working_iff.symm) stageOf_eq_working_iff.symm)

omit [DecidableEq γ] in
/-- The grants of the refresh lock are counted by the started loaders. -/
theorem counted_moves {n : Nat} (hsound : (tenancy key w).Sound) (h : (tenancy key w).Counted n)
    (hmoves : Moves key w w' t) (hloader : ∀ r, w.jobs t = .locking r → r.hasLoader = true) :
    (tenancy key w').Counted (n + starts key (w.jobs t) (w'.jobs t)) := by
  rw [starts_eq]
  rcases hmoves with hsame | ⟨a, hstep, hcause⟩
  · rw [hsame, if_neg fun h => h.1 h.2]
    exact h
  · have hskip : a ≠ .skip := by
      rintro rfl
      rcases hcause with ⟨r, hj, hnone⟩
      rw [hloader r hj] at hnone
      cases hnone
    have hstart : ((tenancy key w).stage t ≠ .working ∧ (tenancy key w').stage t = .working) ↔
        a = .start := by
      generalize tenancy key w' = T' at hstep
      cases hstep with
      | start hstage =>
        rw [hstage]
        exact iff_of_true ⟨by decide, Function.update_self _ _ _⟩ rfl
      | reserve _ | abandon _ | close _ | restore _ =>
        exact iff_of_false (fun h => h.1 h.2) (by decide)
      | grant _ | skip _ | finish _ | release _ =>
        refine iff_of_false (fun h => ?_) (by decide)
        have hstage := h.2
        dsimp only at hstage
        rw [Function.update_self] at hstage
        cases hstage
    rw [if_congr hstart rfl rfl]
    exact h.step hsound hstep hskip

end Tenants

/-- The grants since the beginning of the episode.  Without a late call there is at most one, and
none while the lock is being acquired.  After a late call there are two, or the second one is
about to be made. -/
structure Pace (base : Nat) (late : Bool) (T : Tenancy τ) : Prop where
  begun : base ≤ T.closed
  early : late = false → T.granted ≤ base + 1 ∧ (T.phase = .acquiring → T.granted = base)
  tardy : late = true → base < T.closed ∧ (base + 2 ≤ T.granted ∨ T.phase = .acquiring)

section Pace

variable {base : Nat} {late noted : Bool} {T T' : Tenancy τ} {t : τ} {a : Act}

omit [DecidableEq τ] in
/-- A lock that is in use after a release was granted a second time, or is about to be. -/
theorem tardy_of_used (hsound : Sound T) (hclosed : base < T.closed) (hphase : T.phase ≠ .free) :
    base + 2 ≤ T.granted ∨ T.phase = .acquiring := by
  have hbalanced := hsound.balanced
  cases hcase : T.phase with
  | free => exact absurd hcase hphase
  | acquiring => exact Or.inr rfl
  | held | releasing =>
    rw [hcase] at hbalanced
    left
    change T.granted = T.closed + 1 at hbalanced
    omega

omit [DecidableEq τ] in
/-- A call that does nothing to the lock keeps the pace. -/
theorem Pace.still (h : Pace base late T) (hsound : Sound T)
    (hnoted : noted = true → base < T.closed ∧ T.phase ≠ .free) : Pace base (late || noted) T where
  begun := h.begun
  early hlate := h.early (Bool.or_eq_false_iff.mp hlate).1
  tardy hlate := by
    rcases Bool.or_eq_true_iff.mp hlate with hold | hnew
    · exact h.tardy hold
    · exact ⟨(hnoted hnew).1, tardy_of_used hsound (hnoted hnew).1 (hnoted hnew).2⟩

/-- The closed lifecycles only grow. -/
theorem closed_le (hstep : Tenancy.Step t T a T') : T.closed ≤ T'.closed := by
  cases hstep <;> simp

/-- A step without a late reservation. -/
theorem Pace.early_step (h : Pace base false T) (hsound : Sound T)
    (hstep : Tenancy.Step t T a T') (hreserve : a = .reserve → ¬base < T.closed) :
    T'.granted ≤ base + 1 ∧ (T'.phase = .acquiring → T'.granted = base) := by
  have hbegun := h.begun
  have hbalanced := hsound.balanced
  rcases h.early rfl with ⟨hgranted, hacquiring⟩
  cases hstep with
  | reserve hphase =>
    have hfirst := hreserve rfl
    rw [hphase] at hbalanced
    change T.granted = T.closed + 0 at hbalanced
    exact ⟨hgranted, fun _ => by dsimp only; omega⟩
  | grant hphase =>
    have hnone := hacquiring hphase
    exact ⟨by dsimp only; omega, fun h => nomatch h⟩
  | abandon _ | release _ | close _ | restore _ => exact ⟨hgranted, fun h => nomatch h⟩
  | start _ | skip _ | finish _ => exact ⟨hgranted, hacquiring⟩

/-- A step after a late call. -/
theorem Pace.tardy_step (h : Pace base true T) (hsound : Sound T) (hstep : Tenancy.Step t T a T')
    (habandon : a ≠ .abandon) : base + 2 ≤ T'.granted ∨ T'.phase = .acquiring := by
  rcases h.tardy rfl with ⟨hclosed, hgranted⟩
  have hused : T.phase ≠ .acquiring → base + 2 ≤ T.granted := fun hphase =>
    hgranted.resolve_right hphase
  cases hstep with
  | reserve _ => exact Or.inr rfl
  | abandon _ => exact absurd rfl habandon
  | start _ | skip _ | finish _ => exact hgranted
  | close hphase | restore hphase => exact Or.inl (hused (by rw [hphase]; decide))
  | release hstage =>
    have hheld := hsound.held t (by rw [hstage]; decide)
    exact Or.inl (hused (by rw [hheld]; decide))
  | grant hphase =>
    have hbalanced := hsound.balanced
    rw [hphase] at hbalanced
    change T.granted = T.closed + 0 at hbalanced
    left
    dsimp only
    omega

/-- Every step keeps the pace, if no reservation is abandoned, every reservation after a release is
noted, and a noted call leaves the lock in use. -/
theorem Pace.step (h : Pace base late T) (hsound : Sound T) (hstep : Tenancy.Step t T a T')
    (habandon : a ≠ .abandon) (hreserve : a = .reserve → base < T.closed → noted = true)
    (hnoted : noted = true → base < T.closed ∧ T'.phase ≠ .free) :
    Pace base (late || noted) T' where
  begun := h.begun.trans (closed_le hstep)
  early hlate := by
    rcases Bool.or_eq_false_iff.mp hlate with ⟨rfl, hquiet⟩
    refine h.early_step hsound hstep fun ha hclosed => ?_
    rw [hreserve ha hclosed] at hquiet
    cases hquiet
  tardy hlate := by
    rcases Bool.or_eq_true_iff.mp hlate with rfl | hnew
    · exact ⟨(h.tardy rfl).1.trans_le (closed_le hstep), h.tardy_step hsound hstep habandon⟩
    · have hclosed := (hnoted hnew).1.trans_le (closed_le hstep)
      exact ⟨hclosed, tardy_of_used (hsound.step hstep) hclosed (hnoted hnew).2⟩

end Pace

/-! ## Runs with their tally -/

section Runs

variable {storeTTL cacheTTL : DefaultTTL} {token : Bytes} {key : Key}
  {w w' : Refresh.World γ τ Memory.Items}

/-- The beginning of an episode: a Cache with any past in which all requests are on the key and
nobody has the refresh lock. -/
structure Begins (cfg : Refresh.Config Memory.Items) (key : Key)
    (w : Refresh.World γ τ Memory.Items) : Prop where
  reached : ∃ w₀ past, w₀.Initial ∧ (∀ c, w₀.cancelled c = false) ∧
    (∀ e ∈ past, ∀ c, e ≠ .cancel c) ∧ run (Refresh.step cfg) w₀ past = some w
  requests : ∀ t r, request (w.jobs t) = some r → r.key = key ∧ r.hasLoader = true
  entry : w.direct.locks (refreshLockKey key) = none
  record : lockRecord key w = none

/-- What holds along a run of hits. -/
structure Sums (storeTTL cacheTTL : DefaultTTL) (token : Bytes) (key : Key) (base : Nat)
    (T : Tally γ τ Memory.Items) : Prop where
  requests : Refresh.Inv (memoryCache storeTTL cacheTTL token) T.world
  lock : Inv key (view T.world)
  calm : Calm key T.world
  record : Record key token T.world
  counted : (tenancy key (view T.world)).Counted (base + T.loads)
  pace : Pace base T.late (tenancy key (view T.world))

/-- The requests of any past without cancellations. -/
theorem past_inv {cfg : Refresh.Config Memory.Items} {w₀ : Refresh.World γ τ Memory.Items}
    (hinit : w₀.Initial) (hlive : ∀ c, w₀.cancelled c = false) {past : List (Refresh.Event γ τ)}
    (hpast : ∀ e ∈ past, ∀ c, e ≠ .cancel c) (hrun : run (Refresh.step cfg) w₀ past = some w)
    (key : Key) :
    Refresh.Inv cfg w ∧ Inv key (view w) ∧ (∀ c, w.cancelled c = false) ∧
      ∀ t r, request (w.jobs t) = some r → 0 < r.refreshAhead := by
  refine run_preserves_along (G := fun _ e => ∀ c, e ≠ .cancel c)
    (P := fun w => Refresh.Inv cfg w ∧ Inv key (view w) ∧ (∀ c, w.cancelled c = false) ∧
      ∀ t r, request (w.jobs t) = some r → 0 < r.refreshAhead) ?_ ?_
    (along_of_forall (fun e he _ => hpast e he) w₀) hrun
  · rintro w e w' ⟨hinv, hlock, hcancelled, hpositive⟩ he h
    refine ⟨Refresh.inv_step hinv (fun c t r hc => absurd hc (he c)) h, ?_, ?_, ?_⟩
    · rcases refresh_step h with ⟨-, hsame⟩ | ⟨e', -, hspares, hstep⟩
      · rwa [hsame]
      · exact (step_refines hlock (hspares _) hstep).1
    · rw [cancelled_step h he]
      exact hcancelled
    · intro t r hr
      rcases request_step h t hr with hold | ⟨-, hpos⟩
      · exact hpositive t r hold
      · exact hpos
  · refine ⟨hinit.inv, World.Initial.inv ⟨hinit.direct, hinit.jobs⟩ key, hlive, ?_⟩
    intro t r hr
    rw [hinit.jobs] at hr
    cases hr

/-- The sums at the beginning of an episode. -/
theorem Begins.sums (h : Begins (memoryCache storeTTL cacheTTL token) key w) :
    Sums storeTTL cacheTTL token key (w.direct.closed (refreshLockKey key)) ⟨w, 0, false⟩ := by
  rcases h.reached with ⟨w₀, past, hinit, hlive, hpast, hrun⟩
  rcases past_inv hinit hlive hpast hrun key with ⟨hinv, hlock, hcancelled, hpositive⟩
  have hphase : (tenancy key (view w)).phase = .free := congrArg phaseOf h.entry
  have hvacant := hlock.sound.vacant (by rw [hphase]; decide)
  have hbalanced := hlock.sound.balanced
  rw [hphase] at hbalanced
  refine ⟨hinv, hlock, ⟨fun t r hr => ?_, hcancelled⟩, ⟨fun v hv => ?_, fun _ => h.record, ?_⟩,
    Or.inl ⟨hbalanced, fun t => by rw [hvacant t]; decide⟩, ⟨le_rfl, fun _ => ⟨?_, ?_⟩, ?_⟩⟩
  · exact ⟨(h.requests t r hr).1, (h.requests t r hr).2, hpositive t r hr⟩
  · cases h.record.symm.trans hv
  · -- a reservation that was answered would be an entry of the key
    intro t m k ttl a ha
    have hshape := hinv.shape t
    generalize hj : w.jobs t = j at hshape
    rw [ha] at hshape
    cases hshape with
    | outside _ hready => cases hready
    | attempted r _ =>
      have hentry := hinv.direct.locks_of_reserving (congrArg Direct.Call.claim ha)
      rw [(h.requests t r (by rw [hj]; rfl)).1, h.entry] at hentry
      cases hentry
  · exact hbalanced.le.trans (Nat.le_succ _)
  · intro hacquiring
    cases hphase.symm.trans hacquiring
  · intro hlate
    cases hlate

variable {e : Refresh.Event γ τ} {t : τ} {base : Nat}

/-- A goroutine that calls `TryLock` finds an entry or makes one. -/
theorem entry_of_spawned {r : Request γ}
    (h : Refresh.step (memoryCache storeTTL cacheTTL token) w e = some w')
    (hslot : slotOf e = some t) (hj : w.jobs t = .spawned r) :
    w'.direct.locks (refreshLockKey r.key) ≠ none := by
  cases e with
  | tryLock u =>
    cases hslot
    simp only [Refresh.step, hj] at h
    rcases Refresh.lockStep_eq_some h with ⟨d, hd, rfl⟩
    rcases tryLock_cases hd with ⟨-, hsame, hentry⟩ | ⟨-, -, hsets⟩
    · dsimp only
      rw [(hsame _).1]
      exact hentry rfl
    · dsimp only
      rw [hsets.status]
      exact Option.some_ne_none _
  | cancel c | tick d => cases hslot
  | _ =>
    cases hslot
    simp [Refresh.step, hj] at h

omit [DecidableEq γ] [DecidableEq τ] in
/-- A late call is one of a new goroutine of the key. -/
theorem callsLate_iff :
    callsLate key base w t = true ↔
      ∃ r, w.jobs t = .spawned r ∧ r.key = key ∧ base < w.direct.closed (refreshLockKey key) := by
  unfold callsLate
  cases w.jobs t with
  | spawned r => simp
  | _ => simp

/-- The pace along a step of a slot. -/
theorem Pace.moves {late : Bool} (hpace : Pace base late (tenancy key (view w)))
    (hsound : (tenancy key (view w)).Sound) (hmoves : Moves key (view w) (view w') t)
    (hkeeps : Keeps key w w') (h : Refresh.step (memoryCache storeTTL cacheTTL token) w e = some w')
    (hslot : slotOf e = some t) :
    Pace base (late || callsLate key base w t) (tenancy key (view w')) := by
  have hnoted : callsLate key base w t = true →
      base < (tenancy key (view w)).closed ∧ (tenancy key (view w')).phase ≠ .free := by
    intro hlate
    rcases callsLate_iff.mp hlate with ⟨r, hj, rfl, hclosed⟩
    exact ⟨hclosed, fun hfree => entry_of_spawned h hslot hj (phaseOf_injective hfree)⟩
  rcases hmoves with hsame | ⟨a, hstep, hcause⟩
  · rw [hsame] at hnoted ⊢
    exact hpace.still hsound hnoted
  · refine hpace.step hsound hstep ?_ ?_ hnoted
    · rintro rfl
      generalize hafter : tenancy key (view w') = T' at hstep
      cases hstep with
      | abandon hphase =>
        exact hkeeps (phaseOf_injective hphase)
          (phaseOf_injective (congrArg Tenancy.phase hafter))
    · rintro rfl hclosed
      rcases hcause with ⟨r, hj, hkey⟩
      exact callsLate_iff.mpr ⟨r, hj, hkey, hclosed⟩

/-- Every step of a hit keeps the sums. -/
theorem Sums.step {T T' : Tally γ τ Memory.Items}
    (hsums : Sums storeTTL cacheTTL token key base T) (he : Hits key T.world e)
    (h : tally (memoryCache storeTTL cacheTTL token) key base T e = some T') :
    Sums storeTTL cacheTTL token key base T' := by
  rcases Option.map_eq_some_iff.mp h with ⟨w', hstep, rfl⟩
  have hspared : Refresh.Spared T.world e := by
    rintro c t r rfl
    cases he
  have hinv := Refresh.inv_step hsums.requests hspared hstep
  have hcalm := hsums.calm.step he hstep
  rcases record_step hsums.requests hsums.calm hsums.record he hstep with ⟨hrecord, hkeeps⟩
  rcases refresh_step hstep with ⟨hslot, hsame⟩ | ⟨e', hslot, hspares, hopen⟩
  · rw [Tally.next, hslot]
    refine ⟨hinv, ?_, hcalm, hrecord, ?_, ?_⟩
    · exact hsame ▸ hsums.lock
    · exact hsame ▸ hsums.counted
    · exact hsame ▸ hsums.pace
  · rw [Tally.next, hslot]
    rcases step_refines hsums.lock (hspares _) hopen with ⟨hlock, hmoves⟩
    refine ⟨hinv, hlock, hcalm, hrecord, ?_, ?_⟩
    · dsimp only
      rw [← Nat.add_assoc]
      refine counted_moves hsums.lock.sound hsums.counted hmoves fun r hj => ?_
      have hrequest : request (T.world.jobs e'.slot) = some r := congrArg request hj
      exact (hsums.calm.requests _ r hrequest).2.1
    · exact hsums.pace.moves hsums.lock.sound hmoves hkeeps hstep hslot

omit [DecidableEq γ] [DecidableEq τ] in
/-- A Cache in which all requests have ended has no entry for the refresh lock, and no loader is
about to start. -/
theorem Sums.finished {T : Tally γ τ Memory.Items} (hsums : Sums storeTTL cacheTTL token key base T)
    (hend : ∀ t, T.world.jobs t = .idle ∨ T.world.jobs t = .done) :
    (tenancy key (view T.world)).phase = .free ∧
      (tenancy key (view T.world)).granted = base + T.loads := by
  have hquiet : ∀ t, (T.world.jobs t).running ≠ some key := by
    intro t
    rcases hend t with hj | hj <;> rw [hj] <;> exact fun h => nomatch h
  have hnone : ∀ t, (tenancy key (view T.world)).stage t ≠ .granted := by
    intro t
    change stageOf key (T.world.jobs t) _ ≠ _
    rcases hend t with hj | hj <;> rw [hj] <;> exact fun h => nomatch h
  refine ⟨congrArg phaseOf (hsums.requests.locks_eq_none hquiet), ?_⟩
  rcases hsums.counted with ⟨hgranted, -⟩ | ⟨-, t, ht⟩
  · exact hgranted
  · exact absurd ht (hnone t)

/--
One near-expiry episode starts one loader if and only if no goroutine comes late.  Take one Cache
over the memory store with any past, any number of hits on a key from a moment on at which nobody
has the refresh lock of the key, any results of the loaders and of the writes, and any scheduling.

- As long as no goroutine has called `TryLock` after the lock was given back, the loader was
  started at most once in the background.
- When all requests have ended, the loader was started at most once if and only if no goroutine has
  called `TryLock` after the lock was given back.
-/
theorem one_refresh_iff (hbegins : Begins (memoryCache storeTTL cacheTTL token) key w)
    {es : List (Refresh.Event γ τ)} {T : Tally γ τ Memory.Items}
    (hhits : Along (tally (memoryCache storeTTL cacheTTL token) key
      (w.direct.closed (refreshLockKey key))) (fun T e => Hits key T.world e) ⟨w, 0, false⟩ es)
    (hrun : run (tally (memoryCache storeTTL cacheTTL token) key
      (w.direct.closed (refreshLockKey key))) ⟨w, 0, false⟩ es = some T) :
    (T.late = false → T.loads ≤ 1) ∧
    ((∀ t, T.world.jobs t = .idle ∨ T.world.jobs t = .done) → (T.loads ≤ 1 ↔ T.late = false)) := by
  have hsums : Sums storeTTL cacheTTL token key (w.direct.closed (refreshLockKey key)) T :=
    run_preserves_along (fun _ _ _ hsums he h => hsums.step he h) hbegins.sums hhits hrun
  have hearly : T.late = false → T.loads ≤ 1 := by
    intro hlate
    have hgranted := (hsums.pace.early hlate).1
    have hcounted := hsums.counted.le
    omega
  refine ⟨hearly, fun hend => ⟨fun hloads => ?_, hearly⟩⟩
  rcases hsums.finished hend with ⟨hfree, hgranted⟩
  by_contra hlate
  rcases (hsums.pace.tardy (Bool.not_eq_false _ ▸ hlate)).2 with htwo | hacquiring
  · omega
  · cases hfree.symm.trans hacquiring

end Runs

/-! ## Samples -/

/-- Two hits at the same instant read that the key expires in 50 nanoseconds. -/
def bothHit : List (Refresh.Event Bool Bool) :=
  [.call false (Refresh.sampleRequest false), .lookup false, .inspect false,
    .call true (Refresh.sampleRequest true), .lookup true, .inspect true]

/-- The first goroutine takes the lock, loads and writes. -/
def firstLoads : List (Refresh.Event Bool Bool) :=
  [.tryLock false, .attempt false, .acquire false, .settle false, .resume false,
    .load false (.ok (ascii "new")), .write false none, .write false none]

/-- The second goroutine calls `TryLock` while the first one has the lock. -/
def secondInTime : List (Refresh.Event Bool Bool) :=
  bothHit ++ firstLoads ++ [.tryLock true, .resume true] ++ Refresh.refreshEnds

/-- The second goroutine calls `TryLock` when the first one has ended. -/
def secondLate : List (Refresh.Event Bool Bool) :=
  bothHit ++ firstLoads ++ Refresh.refreshEnds ++
    [.tryLock true, .attempt true, .acquire true, .settle true, .resume true]

/-- The Cache of the samples. -/
def sampleCache : Refresh.Config Memory.Items :=
  memoryCache (DefaultTTL.normalize 0) (DefaultTTL.normalize 0) (ascii "owner")

/-- The tally of a run. -/
def tallyOf (es : List (Refresh.Event Bool Bool)) : Tally Bool Bool Memory.Items :=
  (run (tally sampleCache (ascii "k") 0) ⟨Refresh.nearExpiry, 0, false⟩ es).getD
    ⟨Refresh.nearExpiry, 0, false⟩

theorem nearExpiry_begins : Begins sampleCache (ascii "k") Refresh.nearExpiry where
  reached := ⟨Refresh.nearExpiry, [], ⟨rfl, fun _ => rfl⟩, fun _ => rfl, by simp, rfl⟩
  requests t r hr := by cases hr
  entry := rfl
  record := by decide

/-- The second goroutine is refused, and the loader was started once. -/
theorem one_refresh_inTime :
    run (tally sampleCache (ascii "k") 0) ⟨Refresh.nearExpiry, 0, false⟩ secondInTime =
        some (tallyOf secondInTime) ∧
      (tallyOf secondInTime).late = false ∧ (tallyOf secondInTime).loads ≤ 1 := by
  have hrun : run (tally sampleCache (ascii "k") 0) ⟨Refresh.nearExpiry, 0, false⟩ secondInTime =
      some (tallyOf secondInTime) := rfl
  have hhits : ∀ e ∈ secondInTime, ∀ T : Tally Bool Bool Memory.Items,
      Hits (ascii "k") T.world e := by
    simp [secondInTime, bothHit, firstLoads, Refresh.refreshEnds, Hits, Refresh.sampleRequest]
  have hlate : (tallyOf secondInTime).late = false := by decide
  exact ⟨hrun, hlate, (one_refresh_iff nearExpiry_begins (along_of_forall hhits _) hrun).1 hlate⟩

/-- The second goroutine starts the loader once more, at the same instant, although the metadata
says that the key expires later than the refresh window. -/
theorem late_goroutine_loads_again :
    run (tally sampleCache (ascii "k") 0) ⟨Refresh.nearExpiry, 0, false⟩ secondLate =
        some (tallyOf secondLate) ∧
      (tallyOf secondLate).loads = 2 ∧
      (tallyOf secondLate).world.jobs false = .done ∧
      (tallyOf secondLate).world.jobs true = .loading (Refresh.sampleRequest true) ∧
      (tallyOf secondLate).world.now = 0 ∧
      (Memory.get (tallyOf secondLate).world.store 0 (metaKey (ascii "k"))).bind
        Decimal.parseInt = some 1000 ∧
      (Refresh.sampleRequest true).refreshAhead.toInt < Refresh.timeUntil 0 1000 ∧
      (Refresh.sampleRequest true).refreshAhead < (Refresh.sampleRequest true).ttl :=
  ⟨rfl, by decide, by decide, by decide, rfl, by decide, by decide, by decide⟩

end Background
end Lock
end GoforjCache
