import GoforjCache.Nats.Counters

/-!
# NATS - Who makes a counter call give up

`Increment` gives up after sixteen attempts.  An attempt fails only if the key has changed since
it was read, or if an expired record could not be purged, so a call that gives up has been
disturbed sixteen times between a read and the write after it.  While no record expires only writes
of other calls disturb, and each of them ends its own call: sixteen others have succeeded meanwhile.

Main results:

- Theorem `pace_step`: the attempts of a call never outnumber its disturbances.
- Theorem `retry_limit_paid`: a call gives up only after sixteen disturbances, which are sixteen
  successful calls when no record expires.
-/

namespace GoforjCache
namespace Nats
namespace Counters

open Function Foundation Foundation.Transition

variable {τ : Type} [DecidableEq τ]

/-! ## Disturbances -/

/-- The call has read the key in this attempt and has not yet written. -/
def Phase.hasRead : Phase → Bool
  | inspecting .. | purging .. | counted .. | writing .. => true
  | idle | reading .. | done _ => false

/-- The step changes the key between a read and the write of the call `o`, or leaves it the expired
record that the call wanted to purge. -/
def disturbs (o : τ) (w w' : World τ) : Event τ → Bool
  | .purge p _ ok => if p = o then !ok else ok && (w.phases o).hasRead
  | .write p _ => decide (p ≠ o ∧ w'.register ≠ w.register) && (w.phases o).hasRead
  | _ => false

/-- How often a run disturbs a call. -/
def disturbances (cfg : Config) (o : τ) : World τ → List (Event τ) → Nat
  | _, [] => 0
  | w, e :: es =>
    match step cfg w e with
    | none => 0
    | some w' => (disturbs o w w' e).toNat + disturbances cfg o w' es

/-- No request fails with the error of the loop itself. -/
def honest : Event τ → Bool
  | .fail _ err => decide (err ≠ .natsRetryLimit)
  | _ => true

/-- The step removes an expired record. -/
def purges : Event τ → Bool
  | .purge _ _ _ => true
  | _ => false

/-- The key is as a call with this revision expects it. -/
def Fresh (r : Register Bytes) (revision : Nat) : Prop :=
  if revision = 0 then r.value = none else r.revision = revision

/-- What a call that was disturbed `d` times may have come to.  Between its read and its write
either the key is as it was read, or one disturbance is not yet paid by an attempt. -/
def Pending (r : Register Bytes) (d : Nat) : Phase → Prop
  | .idle => True
  | .reading _ attempt | .purging _ attempt _ => attempt ≤ d
  | .inspecting _ attempt revision _ =>
    attempt ≤ d ∧ 0 < revision ∧ (r.revision = revision ∨ attempt < d)
  | .counted _ attempt revision _ | .writing _ attempt revision _ _ =>
    attempt ≤ d ∧ (Fresh r revision ∨ attempt < d)
  | .done result => result = .error .natsRetryLimit → 16 ≤ d

/-- The attempts of a call do not outnumber its disturbances. -/
structure Pace (o : τ) (w : World τ) (d : Nat) : Prop where
  positive : w.register.value ≠ none → 0 < w.register.revision
  pending : Pending w.register d (w.phases o)

variable {r : Register Bytes} {d skip : Nat} {e : Event τ}

/-- A change after the read excuses one more attempt, and before the read it does not matter. -/
theorem Pending.changed {p : Phase} (h : Pending r d p) (r' : Register Bytes) :
    Pending r' (d + p.hasRead.toNat) p := by
  cases p with
  | idle => trivial
  | reading op attempt | done result => exact h
  | purging op attempt revision => exact Nat.le_succ_of_le h
  | inspecting op attempt revision value =>
    exact ⟨Nat.le_succ_of_le h.1, h.2.1, Or.inr (Nat.lt_succ_of_le h.1)⟩
  | counted op attempt revision current | writing op attempt revision next body =>
    exact ⟨Nat.le_succ_of_le h.1, Or.inr (Nat.lt_succ_of_le h.1)⟩

/-- The next attempt is excused when the last one met a changed key. -/
theorem pending_retry (r : Register Bytes) {attempt : Nat} (h : attempt < d) (op : CounterOp) :
    Pending r d (retry op attempt) := by
  unfold retry
  split
  · exact h
  · intro _
    omega

/-- A look never ends a call with the error of the loop. -/
theorem look_ne_limit {cfg : Config} {now : Instant} {value : Bytes} :
    look cfg now value ≠ .failed .natsRetryLimit := by
  have hraw : ∀ raw, parseRaw cfg raw ≠ .failed .natsRetryLimit := by
    intro raw
    unfold parseRaw
    split
    · split <;> simp
    · simp
  unfold look decodeEnvelope
  split <;> rename_i hdecode
  · rintro ⟨⟩
    split at hdecode
    · cases hdecode
    · split at hdecode
      · split at hdecode
        · cases hdecode
        · split at hdecode <;> cases hdecode
      · cases hdecode
  · exact hraw _
  · split
    · simp
    · exact hraw _

/-- A call that has read the key knows what it found. -/
theorem pending_next {attempt revision : Nat} {cfg : Config} {now : Instant} {op : CounterOp}
    {value : Bytes} (h : Pending r d (.inspecting op attempt revision value)) :
    Pending r d ((look cfg now value).next op attempt revision) := by
  obtain ⟨hattempt, hpos, hfresh⟩ := h
  cases hlook : look cfg now value with
  | failed err =>
    intro hlimit
    cases hlimit
    exact absurd hlook look_ne_limit
  | expired => exact hattempt
  | number current =>
    refine ⟨hattempt, hfresh.imp_left fun hrevision => ?_⟩
    rw [Fresh, if_neg hpos.ne']
    exact hrevision

/-! ## Steps -/

variable {cfg : Config} {w w' : World τ} {o p : τ}

/-- A write finds the key as expected, or starts over. -/
theorem write_cases (h : step cfg w (.write p skip) = some w') :
    ∃ op attempt revision next body, w.phases p = .writing op attempt revision next body ∧
      ((Fresh w.register revision ∧ w' = w.wrote p op next (w.register.change skip (some body))) ∨
        (¬Fresh w.register revision ∧ w' = w.put p (retry op attempt))) := by
  simp only [step] at h
  split at h
  · rename_i op attempt revision next body hphase
    refine ⟨op, attempt, revision, next, body, hphase, ?_⟩
    unfold Fresh
    by_cases hzero : revision = 0
    · simp only [hzero, if_true, Register.create] at h ⊢
      cases hvalue : w.register.value <;> simp_all
    · simp only [hzero, if_false, Register.update] at h ⊢
      by_cases hrevision : w.register.revision = revision <;> simp_all
  · cases h

theorem Pace.put (hw : Pace o w d) {ph : Phase} (hown : p = o → Pending w.register d ph) :
    Pace o (w.put p ph) d := by
  refine ⟨hw.positive, ?_⟩
  by_cases hp : p = o
  · subst hp
    simpa only [World.put, update_self] using hown rfl
  · simpa only [World.put, update_of_ne (Ne.symm hp)] using hw.pending

/-- A step of another call that changes the key. -/
theorem Pace.changed (hw : Pace o w d) {ph : Phase} {log : List (Applied τ)} (hp : p ≠ o)
    (hpositive : r.value ≠ none → 0 < r.revision) :
    Pace o ⟨r, w.now, update w.phases p ph, log⟩ (d + (w.phases o).hasRead.toNat) := by
  refine ⟨hpositive, ?_⟩
  simpa only [update_of_ne (Ne.symm hp)] using hw.pending.changed r

/-- A write of the call itself is excused by what it finds; one of another call disturbs. -/
theorem Pace.write (hw : Pace o w d) (h : step cfg w (.write p skip) = some w') :
    Pace o w' (d + (disturbs o w w' (.write p skip)).toNat) := by
  obtain ⟨op, attempt, revision, next, body, hphase, hcase⟩ := write_cases h
  have hpositive : 0 < (w.register.change skip (some body)).revision := Nat.succ_pos _
  have hchanged : w.register.change skip (some body) ≠ w.register := by
    intro heq
    have hrevision := congrArg Register.revision heq
    dsimp only [Register.change] at hrevision
    omega
  by_cases hp : p = o
  · subst hp
    have hpending := hw.pending
    rw [hphase] at hpending
    have hquiet : disturbs p w w' (.write p skip) = false := by simp [disturbs]
    rw [hquiet]
    rcases hcase with ⟨-, rfl⟩ | ⟨hstale, rfl⟩
    · refine ⟨fun _ => hpositive, ?_⟩
      simp [World.wrote, Pending]
    · exact hw.put fun _ => pending_retry _ (hpending.2.resolve_left hstale) op
  · rcases hcase with ⟨-, rfl⟩ | ⟨-, rfl⟩
    · have hdisturbs : disturbs o w (w.wrote p op next (w.register.change skip (some body)))
          (.write p skip) = (w.phases o).hasRead := by
        rw [disturbs, decide_eq_true ⟨hp, hchanged⟩, Bool.true_and]
      rw [hdisturbs]
      exact hw.changed hp fun _ => hpositive
    · have hquiet : disturbs o w (w.put p (retry op attempt)) (.write p skip) = false := by
        simp [disturbs, World.put]
      rw [hquiet]
      exact hw.put fun heq => absurd heq hp

/-- A purge of the call itself leaves no record, or disturbs it by failing. -/
theorem Pace.purge {ok : Bool} (hw : Pace o w d) (h : step cfg w (.purge p skip ok) = some w') :
    Pace o w' (d + (disturbs o w w' (.purge p skip ok)).toNat) := by
  simp only [step] at h
  split at h
  · rename_i op attempt revision hphase
    cases h
    simp only [disturbs]
    by_cases hp : p = o
    · subst hp
      have hpending := hw.pending
      rw [hphase] at hpending
      have hattempt : attempt ≤ d := hpending
      cases ok with
      | true =>
        refine ⟨fun hne => absurd rfl hne, ?_⟩
        simp [Pending, Fresh, Register.purge, Register.change, hattempt]
      | false =>
        refine ⟨hw.positive, ?_⟩
        simp only [if_true, update_self, Bool.not_false, Bool.toNat_true]
        exact ⟨Nat.le_succ_of_le hattempt, Or.inr (Nat.lt_succ_of_le hattempt)⟩
    · rw [if_neg hp]
      cases ok with
      | true => exact hw.changed hp fun hne => absurd rfl hne
      | false => exact hw.put fun heq => absurd heq hp
  · cases h

/-- The attempts of a call never outnumber its disturbances. -/
theorem pace_step (hw : Pace o w d) (hhonest : honest e = true) (h : step cfg w e = some w') :
    Pace o w' (d + (disturbs o w w' e).toNat) := by
  cases e with
  | write p skip => exact hw.write h
  | purge p skip ok => exact hw.purge h
  | tick t =>
    cases h
    exact ⟨hw.positive, hw.pending⟩
  | call p op =>
    simp only [step] at h
    split at h <;> cases h
    exact hw.put fun _ => Nat.zero_le d
  | get p =>
    simp only [step] at h
    split at h
    · rename_i op attempt hphase
      have hattempt : p = o → attempt ≤ d := by
        rintro rfl
        have hpending := hw.pending
        rwa [hphase] at hpending
      split at h <;> cases h
      · rename_i hnone
        exact hw.put fun hp => ⟨hattempt hp, Or.inl (by rwa [Fresh, if_pos rfl])⟩
      · rename_i value hvalue
        refine hw.put fun hp => ⟨hattempt hp, hw.positive ?_, Or.inl rfl⟩
        rw [hvalue]
        exact Option.some_ne_none value
    · cases h
  | inspect p =>
    simp only [step] at h
    split at h <;> cases h
    rename_i hphase
    refine hw.put ?_
    rintro rfl
    have hpending := hw.pending
    rw [hphase] at hpending
    exact pending_next hpending
  | encode p =>
    simp only [step] at h
    split at h <;> cases h
    rename_i hphase
    refine hw.put ?_
    rintro rfl
    have hpending := hw.pending
    rwa [hphase] at hpending
  | fail p err =>
    simp only [step] at h
    have herr : err ≠ .natsRetryLimit := of_decide_eq_true hhonest
    split at h <;> cases h <;> exact hw.put fun _ hlimit => absurd (Except.error.inj hlimit) herr

/-- A call that has returned its number stays so. -/
theorem returned_step (h : step cfg w e = some w') {q : τ} {n : Int64}
    (hq : w.phases q = .done (.ok n)) : w'.phases q = .done (.ok n) := by
  have hother : ∀ {r : τ} {ph : Phase}, w.phases r ≠ .done (.ok n) →
      update w.phases r ph q = .done (.ok n) := by
    intro r ph hr
    have hne : q ≠ r := by
      rintro rfl
      exact hr hq
    rwa [update_of_ne hne]
  cases e with
  | tick d =>
    cases h
    exact hq
  | write p skip =>
    obtain ⟨op, attempt, revision, next, body, hphase, hcase⟩ := write_cases h
    have hp : w.phases p ≠ .done (.ok n) := by simp [hphase]
    rcases hcase with ⟨-, rfl⟩ | ⟨-, rfl⟩ <;> exact hother hp
  | get p =>
    simp only [step] at h
    split at h
    · rename_i hphase
      split at h <;> cases h <;> exact hother (by simp [hphase])
    · cases h
  | call | inspect | purge | encode | fail =>
    simp only [step] at h
    split at h <;> cases h <;> rename_i hphase <;> exact hother (by simp [hphase])

/-- Every disturbance of a call is the write of another call, which has returned. -/
def Paid (o : τ) (w : World τ) (d : Nat) : Prop :=
  ∃ others : Finset τ, others.card = d ∧ o ∉ others ∧ ∀ p ∈ others, ∃ n, w.phases p = .done (.ok n)

/-- Without a purge only the writes of other calls disturb. -/
theorem paid_step (hw : Paid o w d) (hpurge : purges e = false) (h : step cfg w e = some w') :
    Paid o w' (d + (disturbs o w w' e).toNat) := by
  obtain ⟨others, hcard, hself, hdone⟩ := hw
  have hkept : ∀ p ∈ others, ∃ n, w'.phases p = .done (.ok n) := by
    intro p hp
    obtain ⟨n, hn⟩ := hdone p hp
    exact ⟨n, returned_step h hn⟩
  cases hdisturbs : disturbs o w w' e with
  | false => exact ⟨others, hcard, hself, hkept⟩
  | true =>
    cases e with
    | purge p skip ok => cases hpurge
    | write p skip =>
      obtain ⟨hp, hchanged⟩ := of_decide_eq_true (Bool.and_elim_left hdisturbs)
      obtain ⟨op, attempt, revision, next, body, hphase, hcase⟩ := write_cases h
      have hnew : p ∉ others := by
        intro hmem
        obtain ⟨n, hn⟩ := hdone p hmem
        rw [hphase] at hn
        cases hn
      rcases hcase with ⟨-, rfl⟩ | ⟨-, rfl⟩
      · refine ⟨insert p others, ?_, ?_, ?_⟩
        · rw [Finset.card_insert_of_notMem hnew, hcard]
          rfl
        · simpa [Ne.symm hp] using hself
        · intro q hq
          rcases Finset.mem_insert.mp hq with rfl | hold
          · exact ⟨next, update_self _ _ _⟩
          · exact hkept q hold
      · exact absurd rfl hchanged
    | call | get | inspect | encode | fail | tick => cases hdisturbs

/-! ## Runs -/

/-- What every step keeps up to its disturbance holds after a run up to the disturbances. -/
theorem run_disturbed {P : World τ → Nat → Prop} {G : Event τ → Prop}
    (hstep : ∀ {w w' d e}, P w d → G e → step cfg w e = some w' →
      P w' (d + (disturbs o w w' e).toNat)) {es : List (Event τ)} (hw : P w d) (hG : ∀ e ∈ es, G e)
    (hrun : run (step cfg) w es = some w') : P w' (d + disturbances cfg o w es) := by
  induction es generalizing w d with
  | nil =>
    cases hrun
    exact hw
  | cons e es ih =>
    obtain ⟨u, hu, hrest⟩ := run_cons_eq_some hrun
    have hlast := ih (hstep hw (hG e List.mem_cons_self) hu)
      (fun e' he' => hG e' (List.mem_cons_of_mem e he')) hrest
    rw [disturbances, hu]
    dsimp only
    rwa [← Nat.add_assoc]

/--
A counter call gives up only after sixteen disturbances: each is a change of the key between a read
of the call and its write, or an expired record that it could not purge.  When no record expires, at
least sixteen other calls have returned their numbers by then.
-/
theorem retry_limit_paid {start : World τ} {es : List (Event τ)} (hinit : start.Initial)
    (hrun : run (step cfg) start es = some w) (hhonest : ∀ e ∈ es, honest e = true)
    (hlimit : w.phases o = .done (.error .natsRetryLimit)) :
    16 ≤ disturbances cfg o start es ∧
      ((∀ e ∈ es, purges e = false) →
        ∃ others : Finset τ, 16 ≤ others.card ∧ o ∉ others ∧
          ∀ p ∈ others, ∃ n, w.phases p = .done (.ok n)) := by
  have hstart : Pace o start 0 := by
    refine ⟨hinit.positive, ?_⟩
    rw [hinit.idle o]
    trivial
  have hpending := (run_disturbed pace_step hstart hhonest hrun).pending
  rw [hlimit, Nat.zero_add] at hpending
  have hsixteen : 16 ≤ disturbances cfg o start es := hpending rfl
  refine ⟨hsixteen, ?_⟩
  intro hpurge
  have hnone : Paid o start 0 := ⟨∅, rfl, by simp, by simp⟩
  obtain ⟨others, hcard, hrest⟩ := run_disturbed paid_step hnone hpurge hrun
  exact ⟨others, by omega, hrest⟩

/-! ### Seventeen calls -/

/-- One call reads the key, another one counts, and the first one writes in vain. -/
def lostAttempt (i : Fin 17) : List (Event (Fin 17)) :=
  [.get 0, .inspect 0, .encode 0, .call i (.increment 1 60000000000), .get i, .inspect i, .encode i,
    .write i 0, .write 0 0]

/-- Sixteen calls in turn are faster than the first one. -/
def outrun : List (Event (Fin 17)) :=
  .call 0 (.increment 1 60000000000) :: ((List.finRange 17).tail.map lostAttempt).flatten

/-- A key with a number and no call. -/
def numbered : World (Fin 17) where
  register := ⟨1, some (ascii "5")⟩
  now := 0
  phases := fun _ => .idle
  log := []

/-- The key after that run. -/
def outrunWorld : World (Fin 17) := (run (step sampleConfig) numbered outrun).getD numbered

/-- The call has given up. -/
def Phase.gaveUp : Phase → Bool
  | done (.error .natsRetryLimit) => true
  | _ => false

theorem Phase.eq_of_gaveUp {p : Phase} (h : p.gaveUp = true) :
    p = .done (.error .natsRetryLimit) := by
  unfold gaveUp at h
  split at h
  · rfl
  · cases h

/-- The first call gives up, and sixteen calls have returned. -/
theorem retry_limit_paid_outrun :
    outrunWorld.phases 0 = .done (.error .natsRetryLimit) ∧
      ∃ others : Finset (Fin 17), 16 ≤ others.card ∧ 0 ∉ others ∧
        ∀ p ∈ others, ∃ n, outrunWorld.phases p = .done (.ok n) := by
  have hinit : numbered.Initial := ⟨fun _ => rfl, rfl, fun _ => by decide⟩
  have hrun : run (step sampleConfig) numbered outrun = some outrunWorld := by
    have hsome : (run (step sampleConfig) numbered outrun).isSome = true := by decide +kernel
    obtain ⟨w, hw⟩ := Option.isSome_iff_exists.mp hsome
    rw [outrunWorld, hw]
    rfl
  have hlimit : outrunWorld.phases 0 = .done (.error .natsRetryLimit) :=
    Phase.eq_of_gaveUp (by decide +kernel)
  exact ⟨hlimit, (retry_limit_paid hinit hrun (by decide +kernel) hlimit).2 (by decide +kernel)⟩

end Counters
end Nats
end GoforjCache
