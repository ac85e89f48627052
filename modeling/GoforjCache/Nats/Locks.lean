import GoforjCache.Foundation.RevisionedRegister
import GoforjCache.Foundation.Transition
import GoforjCache.Nats.Envelope

/-!
# NATS - Lock acquisition and release by revision

`LockAcquire` and `LockRelease` of the NATS store in envelope mode are sequences of
KeyValue calls on one bucket key: a read, a look at the envelope and the clock, and a write
that is conditional on the revision read.  Any number of owners with distinct tokens take
these steps in any order, the clock moves between any two of them, and a KeyValue call may
also fail for another reason.  The bucket key starts with any content.

Main results:

- Theorem `Inv.holding_unique`: two owners whose grants have not expired are one.
- Theorem `nats_lock_exclusion`: exclusion in every reachable state, and a release only
  deletes the record of its own owner.
-/

namespace GoforjCache
namespace Nats
namespace Locks

open Function Foundation Foundation.Transition

/-! ## Calls in flight -/

/-- What a finished call returned. -/
inductive Result where
  | acquired (ok : Bool) (err : Option CacheError)
  | released (ok : Bool) (err : Option CacheError)
deriving DecidableEq

/-- Program counter of the call of one owner.  The envelope of an acquisition is made from the
clock when it starts, so its instant and lifetime are carried along. -/
inductive Phase where
  | idle
  /-- `LockAcquire` is about to call `Get`. -/
  | acquiring (made : Instant) (ttl : Duration)
  /-- `Get` has returned an entry. -/
  | inspecting (made : Instant) (ttl : Duration) (revision : Nat) (value : Bytes)
  /-- `Get` missed; `Create` is next. -/
  | creating (made : Instant) (ttl : Duration)
  /-- The entry has expired; `Update` at its revision is next. -/
  | updating (made : Instant) (ttl : Duration) (revision : Nat)
  /-- `LockRelease` is about to call `Get`. -/
  | releasing
  /-- `Get` has returned an entry. -/
  | checking (revision : Nat) (value : Bytes)
  /-- The entry belongs to the owner; `Delete` at its revision is next. -/
  | deleting (revision : Nat)
  | done (result : Result)
deriving DecidableEq

/-- An owner can start a call when none of its calls is in flight. -/
def Phase.ready : Phase → Bool
  | idle => true
  | done _ => true
  | _ => false

/-- A successful acquisition: the revision it wrote, and what its envelope was made from. -/
structure Grant where
  revision : Nat
  made : Instant
  ttl : Duration

/-- What is fixed: JSON decoding, the default lifetime, and the tokens of the owners. -/
structure Config (τ : Type) where
  unmarshal : Bytes → Option Envelope
  defaultTTL : DefaultTTL
  token : τ → Bytes
  token_injective : Injective token

/-- The bucket key, the clock, the call of each owner, and the acquisition each owner has made
and not released. -/
structure World (τ : Type) where
  register : Register Bytes
  now : Instant
  phases : τ → Phase
  held : τ → Option Grant

/-- The steps.  `write` is the conditional write of either call, with the revisions that
other keys of the stream have taken; `fail` is a KeyValue call that fails without effect
for a reason of its own. -/
inductive Event (τ : Type) where
  | acquire (o : τ) (ttl : Duration)
  | release (o : τ)
  | get (o : τ)
  | inspect (o : τ)
  | write (o : τ) (skip : Nat)
  | fail (o : τ) (err : CacheError)
  | tick (d : Nat)

variable {τ : Type} [DecidableEq τ]

/-- The envelope of an acquisition. -/
def Config.body (cfg : Config τ) (o : τ) (made : Instant) (ttl : Duration) : Bytes :=
  encodeEnvelope cfg.defaultTTL made (cfg.token o) ttl

/-- Move one owner to a new program counter. -/
def World.put (w : World τ) (o : τ) (p : Phase) : World τ :=
  { w with phases := update w.phases o p }

/-- A write that succeeded. -/
def World.wrote (w : World τ) (o : τ) (register : Register Bytes) (grant : Option Grant)
    (result : Result) : World τ :=
  { w with
    register := register
    phases := update w.phases o (.done result)
    held := update w.held o grant }

/-- The look at an entry by `LockAcquire`. -/
def inspectEntry (cfg : Config τ) (now made : Instant) (ttl : Duration) (revision : Nat)
    (value : Bytes) : Phase :=
  match decodeEnvelope cfg.unmarshal value with
  | .error err => .done (.acquired false (some err))
  | .ok none => .done (.acquired false none)
  | .ok (some env) =>
    if env.expiresAt ≤ 0 ∨ unixMilli now ≤ env.expiresAt then .done (.acquired false none)
    else .updating made ttl revision

/-- The look at an entry by `LockRelease`. -/
def checkEntry (cfg : Config τ) (now : Instant) (o : τ) (revision : Nat) (value : Bytes) : Phase :=
  match decodeEnvelope cfg.unmarshal value with
  | .error err => .done (.released false (some err))
  | .ok none =>
    if value ≠ cfg.token o then .done (.released false none) else .deleting revision
  | .ok (some env) =>
    if env.expired now then .done (.released false none)
    else if env.value ≠ cfg.token o then .done (.released false none)
    else .deleting revision

/-- One step. -/
def step (cfg : Config τ) (w : World τ) : Event τ → Option (World τ)
  | .acquire o ttl =>
    if (w.phases o).ready then some (w.put o (.acquiring w.now ttl)) else none
  | .release o => if (w.phases o).ready then some (w.put o .releasing) else none
  | .get o =>
    match w.phases o with
    | .acquiring made ttl =>
      match w.register.value with
      | none => some (w.put o (.creating made ttl))
      | some value => some (w.put o (.inspecting made ttl w.register.revision value))
    | .releasing =>
      match w.register.value with
      | none => some (w.put o (.done (.released false none)))
      | some value => some (w.put o (.checking w.register.revision value))
    | _ => none
  | .inspect o =>
    match w.phases o with
    | .inspecting made ttl revision value =>
      some (w.put o (inspectEntry cfg w.now made ttl revision value))
    | .checking revision value => some (w.put o (checkEntry cfg w.now o revision value))
    | _ => none
  | .write o skip =>
    match w.phases o with
    | .creating made ttl =>
      match w.register.create skip (cfg.body o made ttl) with
      | none => some (w.put o (.done (.acquired false none)))
      | some r => some (w.wrote o r (some ⟨r.revision, made, ttl⟩) (.acquired true none))
    | .updating made ttl revision =>
      match w.register.update skip (cfg.body o made ttl) revision with
      | none => some (w.put o (.done (.acquired false none)))
      | some r => some (w.wrote o r (some ⟨r.revision, made, ttl⟩) (.acquired true none))
    | .deleting revision =>
      match w.register.deleteAt skip revision with
      | none => some (w.put o (.done (.released false none)))
      | some r => some (w.wrote o r none (.released true none))
    | _ => none
  | .fail o err =>
    match w.phases o with
    | .acquiring _ _ | .creating _ _ | .updating _ _ _ =>
      some (w.put o (.done (.acquired false (some err))))
    | .releasing | .deleting _ => some (w.put o (.done (.released false (some err))))
    | _ => none
  | .tick d => some { w with now := w.now + d }

/-- No call is in flight and nothing was acquired; the key may hold anything. -/
structure World.Initial (w : World τ) : Prop where
  idle : ∀ o, w.phases o = .idle
  free : ∀ o, w.held o = none

/-! ## Grants and records -/

/-- The millisecond in which a grant expires. -/
def Grant.expiry (cfg : Config τ) (g : Grant) : Int :=
  millis (g.made + (cfg.defaultTTL.resolve g.ttl).toInt)

/-- The owner has an acquisition that was not released and whose expiry is not in the past. -/
def Holding (cfg : Config τ) (w : World τ) (o : τ) : Prop :=
  ∃ g, w.held o = some g ∧ millis w.now ≤ g.expiry cfg

/-- The owner that `LockRelease` reads from a record. -/
def recordOwner (cfg : Config τ) (value : Bytes) : Option Bytes :=
  match decodeEnvelope cfg.unmarshal value with
  | .error _ => none
  | .ok none => some value
  | .ok (some env) => some env.value

omit [DecidableEq τ] in
theorem recordOwner_body (cfg : Config τ) (o : τ) (made : Instant) (ttl : Duration) :
    recordOwner cfg (cfg.body o made ttl) = some (cfg.token o) := by
  rw [recordOwner, Config.body, decodeEnvelope_encode]

/-! ## The invariant -/

/-- What holds of a call at its program counter.  An entry that was read is remembered; a
replacement at a revision comes after the grant of that revision has expired; a deletion at a
revision is of a record of the owner. -/
def PhaseOk (cfg : Config τ) (w : World τ) (o : τ) : Phase → Prop
  | .acquiring made _ => made ≤ w.now
  | .inspecting made _ revision value => made ≤ w.now ∧ w.register.Remembers revision value
  | .creating made _ => made ≤ w.now
  | .updating made _ revision =>
    made ≤ w.now ∧ revision ≤ w.register.revision ∧
      ∀ p g, w.held p = some g → g.revision = revision → g.expiry cfg < millis w.now
  | .checking revision value => w.register.Remembers revision value
  | .deleting revision =>
    ∃ value, w.register.Remembers revision value ∧ recordOwner cfg value = some (cfg.token o)
  | _ => True

/-- The invariant: a grant that has not expired is the current record of the key. -/
structure Inv (cfg : Config τ) (w : World τ) : Prop where
  made : ∀ o g, w.held o = some g → g.made ≤ w.now
  current : ∀ o g, w.held o = some g → millis w.now ≤ g.expiry cfg →
    w.register.revision = g.revision ∧ w.register.value = some (cfg.body o g.made g.ttl)
  phases : ∀ o, PhaseOk cfg w o (w.phases o)

omit [DecidableEq τ] in
/-- The invariant holds initially. -/
theorem World.Initial.inv {w : World τ} (h : w.Initial) (cfg : Config τ) : Inv cfg w where
  made := by
    intro o g hg
    rw [h.free o] at hg
    cases hg
  current := by
    intro o g hg
    rw [h.free o] at hg
    cases hg
  phases := by
    intro o
    rw [h.idle o]
    trivial

section Steps

variable {cfg : Config τ} {w : World τ} {o : τ}

/-- A step that only moves one call keeps the invariant. -/
theorem Inv.put (hw : Inv cfg w) {p : Phase} (hp : PhaseOk cfg w o p) : Inv cfg (w.put o p) where
  made := hw.made
  current := hw.current
  phases := (forall_update_iff w.phases (PhaseOk cfg w)).mpr ⟨hp, fun q _ => hw.phases q⟩

omit [DecidableEq τ] in
/-- `LockAcquire` goes on to replace a record only after the grant of its revision has
expired. -/
theorem Inv.inspectEntry (hw : Inv cfg w) {made : Instant} {ttl : Duration} {revision : Nat}
    {value : Bytes} (hmade : made ≤ w.now) (hread : w.register.Remembers revision value) :
    PhaseOk cfg w o (inspectEntry cfg w.now made ttl revision value) := by
  unfold Locks.inspectEntry
  split
  · trivial
  · trivial
  · rename_i env henv
    split
    · trivial
    · rename_i hlive
      rw [not_or, Int64.not_le, Int64.not_le] at hlive
      have hexpired : env.expired w.now = true := by
        simp [Envelope.expired, hlive.1, hlive.2]
      refine ⟨hmade, hread.le, ?_⟩
      intro p g hg hrevision
      by_contra hgrant
      -- a grant that has not expired is still the current record, so it was the one read
      obtain ⟨hcurrent, hvalue⟩ := hw.current p g hg (not_lt.mp hgrant)
      have hsame := hread.value_eq (hcurrent.trans hrevision)
      rw [hvalue] at hsame
      rw [← Option.some.inj hsame, Config.body, decodeEnvelope_encode] at henv
      cases henv
      rw [not_expired_within (hw.made p g hg) (not_lt.mp hgrant)] at hexpired
      cases hexpired

omit [DecidableEq τ] in
/-- `LockRelease` goes on to delete only a record of its own owner. -/
theorem checkEntry_ok {revision : Nat} {value : Bytes}
    (hread : w.register.Remembers revision value) :
    PhaseOk cfg w o (checkEntry cfg w.now o revision value) := by
  unfold checkEntry
  split
  · trivial
  · rename_i hdecode
    split
    · trivial
    · rename_i howner
      refine ⟨value, hread, ?_⟩
      rw [recordOwner, hdecode, not_not.mp howner]
  · rename_i env hdecode
    split
    · trivial
    · split
      · trivial
      · rename_i howner
        refine ⟨value, hread, ?_⟩
        rw [recordOwner, hdecode]
        exact congrArg some (not_not.mp howner)

omit [DecidableEq τ] in
/-- What holds of a call survives a change of the key by another owner: memories stay true,
and a new grant has a new revision. -/
theorem PhaseOk.change {p : τ} {q : Phase} (h : PhaseOk cfg w p q) {w' : World τ} {skip : Nat}
    {value : Option Bytes} (hregister : w'.register = w.register.change skip value)
    (hnow : w'.now = w.now) (hheld : ∀ u g, w'.held u = some g →
      w.held u = some g ∨ g.revision = w'.register.revision) : PhaseOk cfg w' p q := by
  cases q with
  | acquiring made ttl | creating made ttl => exact h.trans hnow.ge
  | inspecting made ttl revision v =>
    refine ⟨h.1.trans hnow.ge, ?_⟩
    rw [hregister]
    exact h.2.change skip value
  | updating made ttl revision =>
    obtain ⟨hmade, hle, hexpired⟩ := h
    have hlt : revision < w'.register.revision := by
      rw [hregister, Register.change]
      dsimp only
      omega
    refine ⟨hmade.trans hnow.ge, hlt.le, ?_⟩
    intro u g hg hrevision
    rw [hnow]
    rcases hheld u g hg with hold | hnew
    · exact hexpired u g hold hrevision
    · omega
  | checking revision v =>
    change w'.register.Remembers revision v
    rw [hregister]
    exact Register.Remembers.change h skip value
  | deleting revision =>
    obtain ⟨v, hread, howner⟩ := h
    refine ⟨v, ?_, howner⟩
    rw [hregister]
    exact hread.change skip value
  | idle | releasing | done result => trivial

/-- A write by `o` keeps the invariant when the live grants of the others are not
affected: none of them exists. -/
theorem Inv.wrote (hw : Inv cfg w) {skip : Nat} {value : Option Bytes} {grant : Option Grant}
    (result : Result) (hothers : ∀ p g, p ≠ o → w.held p = some g → g.expiry cfg < millis w.now)
    (hgrant : ∀ g, grant = some g → g.made ≤ w.now ∧
      g.revision = (w.register.change skip value).revision ∧
      value = some (cfg.body o g.made g.ttl)) :
    Inv cfg (w.wrote o (w.register.change skip value) grant result) := by
  have hself : (w.wrote o (w.register.change skip value) grant result).held o = grant :=
    update_self _ _ _
  have hne : ∀ p, p ≠ o →
      (w.wrote o (w.register.change skip value) grant result).held p = w.held p :=
    fun p hp => update_of_ne hp _ _
  refine ⟨?_, ?_, ?_⟩
  · intro p g hg
    by_cases hp : p = o
    · subst hp
      rw [hself] at hg
      exact (hgrant g hg).1
    · rw [hne p hp] at hg
      exact hw.made p g hg
  · intro p g hg hlive
    by_cases hp : p = o
    · subst hp
      rw [hself] at hg
      exact ⟨(hgrant g hg).2.1.symm, (hgrant g hg).2.2⟩
    · rw [hne p hp] at hg
      exact absurd hlive (not_le.mpr (hothers p g hp hg))
  · refine (forall_update_iff w.phases (PhaseOk cfg _)).mpr ⟨trivial, ?_⟩
    intro p hp
    refine (hw.phases p).change rfl rfl ?_
    intro u g hg
    by_cases hu : u = o
    · subst hu
      rw [hself] at hg
      exact Or.inr (hgrant g hg).2.1
    · rw [hne u hu] at hg
      exact Or.inl hg

end Steps

/-- Time does not run back. -/
theorem millis_mono {now later : Instant} (h : now ≤ later) : millis now ≤ millis later :=
  Int.ediv_le_ediv (by decide) h

variable {cfg : Config τ} {w w' : World τ} {e : Event τ}

omit [DecidableEq τ] in
/-- The passing of time keeps the invariant. -/
theorem Inv.tick (hw : Inv cfg w) (d : Nat) : Inv cfg { w with now := w.now + d } := by
  have hnow : w.now ≤ w.now + d := Int.le_add_of_nonneg_right (Int.natCast_nonneg d)
  refine ⟨?_, ?_, ?_⟩
  · intro o g hg
    exact (hw.made o g hg).trans hnow
  · intro o g hg hlive
    exact hw.current o g hg ((millis_mono hnow).trans hlive)
  · intro o
    have hphase := hw.phases o
    dsimp only
    generalize w.phases o = q at hphase
    cases q with
    | acquiring made ttl | creating made ttl => exact le_trans hphase hnow
    | inspecting made ttl revision v => exact ⟨hphase.1.trans hnow, hphase.2⟩
    | updating made ttl revision =>
      refine ⟨hphase.1.trans hnow, hphase.2.1, ?_⟩
      intro p g hg hrevision
      exact (hphase.2.2 p g hg hrevision).trans_le (millis_mono hnow)
    | checking revision v => exact hphase
    | deleting revision => exact hphase
    | idle | releasing | done result => trivial

/-- A conditional write keeps the invariant. -/
theorem Inv.write {o : τ} {skip : Nat} (hw : Inv cfg w) (h : step cfg w (.write o skip) = some w') :
    Inv cfg w' := by
  have hok := hw.phases o
  simp only [step] at h
  split at h
  · rename_i made ttl hphase
    rw [hphase] at hok
    split at h
    · cases h
      exact hw.put trivial
    · rename_i r hcreate
      cases h
      obtain ⟨hnone, rfl⟩ := Register.create_eq_some hcreate
      refine hw.wrote _ ?_ ?_
      · intro p g _ hg
        by_contra hlive
        have hvalue := (hw.current p g hg (not_lt.mp hlive)).2
        rw [hnone] at hvalue
        cases hvalue
      · rintro g ⟨⟩
        exact ⟨hok, rfl, rfl⟩
  · rename_i made ttl revision hphase
    rw [hphase] at hok
    obtain ⟨hmade, -, hexpired⟩ := hok
    split at h
    · cases h
      exact hw.put trivial
    · rename_i r hupdate
      cases h
      obtain ⟨hrevision, rfl⟩ := Register.update_eq_some hupdate
      refine hw.wrote _ ?_ ?_
      · intro p g _ hg
        by_contra hlive
        have hcurrent := (hw.current p g hg (not_lt.mp hlive)).1
        exact hlive (hexpired p g hg (hcurrent.symm.trans hrevision))
      · rintro g ⟨⟩
        exact ⟨hmade, rfl, rfl⟩
  · rename_i revision hphase
    rw [hphase] at hok
    obtain ⟨value, hread, howner⟩ := hok
    split at h
    · cases h
      exact hw.put trivial
    · rename_i r hdelete
      cases h
      obtain ⟨hrevision, rfl⟩ := Register.deleteAt_eq_some hdelete
      refine hw.wrote _ ?_ ?_
      · -- the record of a live grant carries another token than the one deleted
        intro p g hp hg
        by_contra hlive
        have hvalue := (hw.current p g hg (not_lt.mp hlive)).2
        rw [hread.value_eq hrevision] at hvalue
        rw [Option.some.inj hvalue, recordOwner_body] at howner
        exact hp (cfg.token_injective (Option.some.inj howner))
      · rintro g ⟨⟩
  · cases h

/-- Every step keeps the invariant. -/
theorem inv_step (hw : Inv cfg w) (h : step cfg w e = some w') : Inv cfg w' := by
  cases e with
  | acquire o ttl =>
    simp only [step, Option.ite_none_right_eq_some, Option.some.injEq] at h
    obtain ⟨-, rfl⟩ := h
    exact hw.put (p := .acquiring w.now ttl) (le_refl w.now)
  | release o =>
    simp only [step, Option.ite_none_right_eq_some, Option.some.injEq] at h
    obtain ⟨-, rfl⟩ := h
    exact hw.put trivial
  | get o =>
    have hok := hw.phases o
    simp only [step] at h
    split at h
    · rename_i made ttl hphase
      rw [hphase] at hok
      split at h <;> cases h
      · exact hw.put (p := .creating made ttl) hok
      · rename_i value hvalue
        exact hw.put (p := .inspecting made ttl w.register.revision value)
          ⟨hok, Register.remembers_read hvalue⟩
    · split at h <;> cases h
      · exact hw.put trivial
      · rename_i value hvalue
        exact hw.put (p := .checking w.register.revision value)
          (Register.remembers_read hvalue)
    · cases h
  | inspect o =>
    have hok := hw.phases o
    simp only [step] at h
    split at h
    · rename_i hphase
      rw [hphase] at hok
      cases h
      exact hw.put (hw.inspectEntry hok.1 hok.2)
    · rename_i hphase
      rw [hphase] at hok
      cases h
      exact hw.put (checkEntry_ok hok)
    · cases h
  | write o skip => exact hw.write h
  | fail o err =>
    simp only [step] at h
    split at h <;> cases h <;> exact hw.put trivial
  | tick d =>
    cases h
    exact hw.tick d

omit [DecidableEq τ] in
/-- Two owners whose grants have not expired are one: both grants are the record of the key. -/
theorem Inv.holding_unique (hw : Inv cfg w) {o p : τ} (ho : Holding cfg w o)
    (hp : Holding cfg w p) : o = p := by
  obtain ⟨g, hg, hglive⟩ := ho
  obtain ⟨g', hg', hglive'⟩ := hp
  have hrecord := (hw.current o g hg hglive).2
  rw [(hw.current p g' hg' hglive').2] at hrecord
  have howner := congrArg (recordOwner cfg) (Option.some.inj hrecord)
  rw [recordOwner_body, recordOwner_body] at howner
  exact (cfg.token_injective (Option.some.inj howner)).symm

/-- Only a write touches the key. -/
theorem step_register (h : step cfg w e = some w') (he : ∀ o skip, e ≠ .write o skip) :
    w'.register = w.register := by
  cases e with
  | write o skip => exact absurd rfl (he o skip)
  | acquire o ttl | release o =>
    simp only [step, Option.ite_none_right_eq_some, Option.some.injEq] at h
    obtain ⟨-, rfl⟩ := h
    rfl
  | get o =>
    simp only [step] at h
    split at h
    · split at h <;> cases h <;> rfl
    · split at h <;> cases h <;> rfl
    · cases h
  | inspect o | fail o err =>
    simp only [step] at h
    split at h <;> cases h <;> rfl
  | tick d =>
    cases h
    rfl

/-- Only a release removes the record of the key, and only a record of its own owner. -/
theorem Inv.removed (hw : Inv cfg w) (h : step cfg w e = some w') {value : Bytes}
    (hbefore : w.register.value = some value) (hafter : w'.register.value = none) :
    ∃ o skip, e = .write o skip ∧ recordOwner cfg value = some (cfg.token o) := by
  by_cases he : ∃ o skip, e = .write o skip
  · obtain ⟨o, skip, rfl⟩ := he
    refine ⟨o, skip, rfl, ?_⟩
    have hok := hw.phases o
    simp only [step] at h
    split at h
    · split at h
      · cases h
        cases hbefore.symm.trans hafter
      · rename_i r hcreate
        cases h
        rw [(Register.create_eq_some hcreate).1] at hbefore
        cases hbefore
    · split at h
      · cases h
        cases hbefore.symm.trans hafter
      · rename_i r hupdate
        cases h
        obtain ⟨-, rfl⟩ := Register.update_eq_some hupdate
        cases hafter
    · rename_i revision hphase
      rw [hphase] at hok
      obtain ⟨v, hread, howner⟩ := hok
      split at h
      · cases h
        cases hbefore.symm.trans hafter
      · rename_i r hdelete
        have hsame := hread.value_eq (Register.deleteAt_eq_some hdelete).1
        rw [hbefore] at hsame
        rw [Option.some.inj hsame]
        exact howner
    · cases h
  · have hsame := step_register h fun o skip heq => he ⟨o, skip, heq⟩
    rw [hsame, hbefore] at hafter
    cases hafter

/--
Mutual exclusion of NATS locks.  In every state that owners with distinct tokens reach by any
interleaving of their KeyValue calls, from any content of the key and on a clock that moves
forward:

- at most one owner has an acquisition that succeeded, was not released, and whose expiry is
  not in the past;
- a step that removes the record of the key is the deletion of a `LockRelease` by the owner
  that the record carries, and by no other.
-/
theorem nats_lock_exclusion {cfg : Config τ} {w : World τ}
    (h : Reachable World.Initial (step cfg) w) :
    (∀ o p, Holding cfg w o → Holding cfg w p → o = p) ∧
    (∀ e w' value, step cfg w e = some w' → w.register.value = some value →
      w'.register.value = none →
      ∃ o skip, e = .write o skip ∧ recordOwner cfg value = some (cfg.token o) ∧
        ∀ p, p ≠ o → recordOwner cfg value ≠ some (cfg.token p)) := by
  have hw : Inv cfg w :=
    reachable_invariant (fun w hinit => hinit.inv cfg) (fun w e w' hw h => inv_step hw h) h
  refine ⟨fun o p ho hp => hw.holding_unique ho hp, ?_⟩
  intro e w' value hstep hbefore hafter
  obtain ⟨o, skip, rfl, howner⟩ := hw.removed hstep hbefore hafter
  refine ⟨o, skip, rfl, howner, ?_⟩
  intro p hp hother
  rw [howner] at hother
  exact hp (cfg.token_injective (Option.some.inj hother)).symm

/-! ## A run with a takeover -/

/-- Two owners on a bucket without JSON envelopes. -/
def sampleConfig : Config Bool where
  unmarshal := fun _ => none
  defaultTTL := DefaultTTL.normalize 0
  token := fun o => if o then ascii "b" else ascii "a"
  token_injective := by decide

/-- A key that was never written. -/
def freshWorld : World Bool := ⟨⟨0, none⟩, 0, fun _ => .idle, fun _ => none⟩

/-- The first owner acquires for 50 milliseconds, the second one finds the record expired 60
milliseconds later and replaces it, and the first one tries to release. -/
def takeover : List (Event Bool) :=
  [.acquire false 50000000, .get false, .write false 0, .tick 60000000,
    .acquire true 50000000, .get true, .inspect true, .write true 3,
    .release false, .get false, .inspect false]

/-- The bucket key after that run. -/
def takenOver : World Bool := (run (step sampleConfig) freshWorld takeover).getD freshWorld

/-- After a takeover the second owner alone holds the lock, and the release of the first one
has ended without deleting anything. -/
theorem nats_lock_exclusion_takeover :
    run (step sampleConfig) freshWorld takeover = some takenOver ∧
    takenOver.phases false = .done (.released false none) ∧
    takenOver.phases true = .done (.acquired true none) ∧
    Holding sampleConfig takenOver true ∧
    (∀ o p, Holding sampleConfig takenOver o → Holding sampleConfig takenOver p → o = p) := by
  have hrun : run (step sampleConfig) freshWorld takeover = some takenOver := rfl
  have hreachable : Reachable World.Initial (step sampleConfig) takenOver :=
    ⟨freshWorld, takeover, ⟨fun _ => rfl, fun _ => rfl⟩, hrun⟩
  refine ⟨hrun, by decide, by decide, ?_, (nats_lock_exclusion hreachable).1⟩
  exact ⟨⟨5, 60000000, 50000000⟩, rfl, by decide⟩

end Locks
end Nats
end GoforjCache
