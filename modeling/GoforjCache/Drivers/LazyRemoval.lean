import GoforjCache.Dynamo.Store
import GoforjCache.Foundation.RevisionedRegister
import GoforjCache.Foundation.Transition
import GoforjCache.Sql.Store

/-!
# Drivers - Lazy removal of expired entries

`Get` of the NATS, SQL and DynamoDB stores reads the entry of a key, looks at the clock, and
removes an entry that has expired.  The removal is a backend call of its own and names nothing but
the key.  `Add` of the NATS store and its `ListPage` run the same `Get`.  Any number
of clients take these steps in any order with those of `Set` and `Add`, on a clock that
moves between any two of them; other clients may change the key in any other way.

The three stores share one step function.  A `Driver` says what a store writes, how it reads
it back, and how its `Add` finds out that the key is free.

Main results:

- Theorem `inv_step`: the last write on a key is still there while its lifetime lasts, if
  every removal finds the entry that was looked at, or none.
- Theorem `reads_keep_live_data`: under that condition every `Get` returns the last
  write on its key.
- Theorem `reader_removes_live_data`: otherwise a reader can remove an entry written after
  its look, in each of the three stores.
-/

namespace GoforjCache
namespace LazyRemoval

open Function Foundation Foundation.Transition
open Nats (Envelope decodeEnvelope encodeEnvelope decodeEnvelope_encode millis unixMilli
  toInt_unixMilli)

/-! ## Drivers -/

/-- How the look at an entry ends. -/
inductive Look where
  | failed (err : CacheError)
  | expired
  | live (value : Bytes)
deriving DecidableEq

/-- The two calls that write. -/
inductive Kind where
  | set
  | add
deriving DecidableEq

/-- How `Add` finds out that the key is free. -/
inductive AddProtocol where
  /-- `Get`, then a `Create` that refuses a key with an entry. -/
  | getThenCreate
  /-- An insert that refuses a key with a row, then an update of an expired row. -/
  | insertThenReuse
  /-- One write under the condition that there is no item, or an expired one. -/
  | conditionalPut
deriving DecidableEq

/-- A value written with a lifetime, from a clock that was read at `made`. -/
structure Write where
  kind : Kind
  value : Bytes
  ttl : Duration
  made : Instant
deriving DecidableEq

/-- A store with lazy removal, over entries of type `V`. -/
structure Driver (V : Type) where
  defaultTTL : DefaultTTL
  addProtocol : AddProtocol
  /-- `Get`'s look at an entry. -/
  look : Instant → V → Look
  /-- The entry that a write makes. -/
  entry : Write → V
  /-- The entry has expired in the eyes of an `Add` that read the clock at an instant. -/
  reusable : Instant → V → Bool
  /-- The expiration that the write carries is the end of its lifetime. -/
  fits : Write → Bool
  look_entry : ∀ (W : Write) (now : Instant), fits W = true → W.made ≤ now →
    now < W.made + (defaultTTL.resolve W.ttl).toInt → look now (entry W) = .live W.value

/-- The instant at which the lifetime of a write has elapsed. -/
def Driver.deadline {V : Type} (D : Driver V) (W : Write) : Instant :=
  W.made + (D.defaultTTL.resolve W.ttl).toInt

/-! ## Calls in flight -/

/-- The calls that run `Get`. -/
inductive Reader where
  | get
  | list
  | add (value : Bytes) (ttl : Duration)
deriving DecidableEq

/-- What a finished call returned.  A `Get` also records the last write on the key when it
read, if that is known, and the instant at which it looked. -/
inductive Result where
  | got (seen : Option Write) (at_ : Instant) (result : Except CacheError (Option Bytes))
  | wrote (result : Except CacheError Bool)

/-- Program counter of the call of one client. -/
inductive Phase (V : Type) where
  | idle
  /-- The backend read is next. -/
  | reading (r : Reader)
  /-- An entry was read; the look at the clock is next. -/
  | inspecting (r : Reader) (revision : Nat) (entry : V) (seen : Option Write)
  /-- The entry has expired; its removal is next. -/
  | removing (r : Reader) (revision : Nat) (seen : Option Write) (at_ : Instant)
  /-- `ListPage` reads the entry again for its expiration. -/
  | relisting (seen : Option Write) (at_ : Instant) (value : Bytes)
  /-- The clock is read next, for the expiration of a write. -/
  | stamping (kind : Kind) (value : Bytes) (ttl : Duration)
  /-- The write is next. -/
  | writing (W : Write)
  /-- The insert found a row; the update of an expired row is next. -/
  | reusing (W : Write)
  | done (result : Result)

/-- The calls of the model. -/
inductive Call where
  | get
  | list
  | set (value : Bytes) (ttl : Duration)
  | add (value : Bytes) (ttl : Duration)
deriving DecidableEq

/-- The entry of the key, the clock, the call of each client, and the last write on the key.
Any other change of the key makes the last write unknown. -/
structure World (τ V : Type) where
  register : Register V
  now : Instant
  phases : τ → Phase V
  last : Option Write

/-- The steps.  `other` is any change of the key by another client: a `Delete`, a
`Flush`, a release or a counter.  `fail` is a backend call that fails without effect;
a removal that fails is ignored. -/
inductive Event (τ V : Type) where
  | call (o : τ) (c : Call)
  | read (o : τ)
  | inspect (o : τ)
  | remove (o : τ) (skip : Nat) (ok : Bool)
  | stamp (o : τ)
  | write (o : τ) (skip : Nat)
  | reuse (o : τ) (skip : Nat)
  | fail (o : τ) (err : CacheError)
  | other (skip : Nat) (entry : Option V)
  | tick (d : Nat)

variable {τ V : Type} [DecidableEq τ]

/-- The first step of a call.  Only `ListPage` of the NATS store runs `Get`. -/
def Driver.start (D : Driver V) : Call → Option (Phase V)
  | .get => some (.reading .get)
  | .list => if D.addProtocol = .getThenCreate then some (.reading .list) else none
  | .set value ttl => some (.stamping .set value ttl)
  | .add value ttl =>
    if D.addProtocol = .getThenCreate then some (.reading (.add value ttl))
    else some (.stamping .add value ttl)

/-- What follows on the result of `Get`. -/
def Reader.gave : Reader → Option Write → Instant → Except CacheError (Option Bytes) → Phase V
  | get, seen, at_, result => .done (.got seen at_ result)
  | list, seen, at_, .ok (some value) => .relisting seen at_ value
  | list, seen, at_, result => .done (.got seen at_ result)
  | add value ttl, _, _, .ok none => .stamping .add value ttl
  | add _ _, _, _, .ok (some _) => .done (.wrote (.ok false))
  | add _ _, _, _, .error err => .done (.wrote (.error err))

/-- Move one client to a new program counter. -/
def World.put (w : World τ V) (o : τ) (p : Phase V) : World τ V :=
  { w with phases := update w.phases o p }

/-- A write that took effect. -/
def World.wrote (D : Driver V) (w : World τ V) (o : τ) (W : Write) (skip : Nat) : World τ V :=
  { w with
    register := w.register.change skip (some (D.entry W))
    phases := update w.phases o (.done (.wrote (.ok true)))
    last := some W }

/-- A write that found the key taken. -/
def World.refused (w : World τ V) (o : τ) : World τ V := w.put o (.done (.wrote (.ok false)))

/-- One step. -/
def step (D : Driver V) (w : World τ V) : Event τ V → Option (World τ V)
  | .call o c =>
    match w.phases o with
    | .idle | .done _ => (D.start c).map (w.put o)
    | _ => none
  | .read o =>
    match w.phases o with
    | .reading r =>
      match w.register.value with
      | none => some (w.put o (r.gave w.last w.now (.ok none)))
      | some entry => some (w.put o (.inspecting r w.register.revision entry w.last))
    | .relisting seen at_ value => some (w.put o (.done (.got seen at_ (.ok (some value)))))
    | _ => none
  | .inspect o =>
    match w.phases o with
    | .inspecting r revision entry seen =>
      match D.look w.now entry with
      | .failed err => some (w.put o (r.gave seen w.now (.error err)))
      | .live value => some (w.put o (r.gave seen w.now (.ok (some value))))
      | .expired => some (w.put o (.removing r revision seen w.now))
    | _ => none
  | .remove o skip ok =>
    match w.phases o with
    | .removing r _ seen at_ =>
      -- the removal names the key only
      some { w with
        register := if ok then w.register.purge skip else w.register
        phases := update w.phases o (r.gave seen at_ (.ok none)) }
    | _ => none
  | .stamp o =>
    match w.phases o with
    | .stamping kind value ttl => some (w.put o (.writing ⟨kind, value, ttl, w.now⟩))
    | _ => none
  | .write o skip =>
    match w.phases o with
    | .writing W =>
      match W.kind, w.register.value with
      | .set, _ => some (w.wrote D o W skip)
      | .add, none => some (w.wrote D o W skip)
      | .add, some entry =>
        match D.addProtocol with
        | .getThenCreate => some (w.refused o)
        | .insertThenReuse => some (w.put o (.reusing W))
        | .conditionalPut =>
          if D.reusable W.made entry then some (w.wrote D o W skip)
          else some (w.refused o)
    | _ => none
  | .reuse o skip =>
    match w.phases o with
    | .reusing W =>
      match w.register.value with
      | none => some (w.refused o)
      | some entry =>
        if D.reusable W.made entry then some (w.wrote D o W skip) else some (w.refused o)
    | _ => none
  | .fail o err =>
    match w.phases o with
    | .reading r => some (w.put o (r.gave none w.now (.error err)))
    | .writing _ | .reusing _ => some (w.put o (.done (.wrote (.error err))))
    | _ => none
  | .other skip entry => some { w with register := w.register.change skip entry, last := none }
  | .tick d => some { w with now := w.now + d }

/-- No call has been made; the key may hold anything. -/
structure World.Initial (w : World τ V) : Prop where
  idle : ∀ o, w.phases o = .idle
  last : w.last = none

/-- The side condition of a step: a removal finds the entry that was looked at, or none, and the
expiration of a write is the end of its lifetime. -/
def Sound (D : Driver V) (w : World τ V) : Event τ V → Prop
  | .remove o _ ok =>
    match w.phases o with
    | .removing _ revision _ _ =>
      ok = true → w.register.revision = revision ∨ w.register.value = none
    | _ => True
  | .stamp o =>
    match w.phases o with
    | .stamping kind value ttl => D.fits ⟨kind, value, ttl, w.now⟩ = true
    | _ => True
  | _ => True

instance (D : Driver V) (w : World τ V) : DecidablePred (Sound D w) := by
  intro e
  cases e with
  | remove o skip ok =>
    dsimp only [Sound]
    split <;> infer_instance
  | stamp o =>
    dsimp only [Sound]
    split <;> infer_instance
  | call | read | inspect | write | reuse | fail | other | tick => exact .isTrue trivial

/-! ## The invariant -/

/-- A write has been made, and `entry` is what it wrote unless its lifetime has elapsed. -/
structure Carries (D : Driver V) (now : Instant) (entry : Option V) (W : Write) : Prop where
  made : W.made ≤ now
  fits : D.fits W = true
  entry_eq : now < D.deadline W → entry = some (D.entry W)

/-- A `Get` that knows the last write on its key has returned it, unless its lifetime had
elapsed. -/
def Answered (D : Driver V) (seen : Option Write) (at_ : Instant)
    (result : Except CacheError (Option Bytes)) : Prop :=
  ∀ W, seen = some W → at_ < D.deadline W → result = .ok (some W.value)

/-- What holds of a call at its program counter.  While the key is at the revision that was read,
the last write is the one that was known then. -/
def PhaseOk (D : Driver V) (w : World τ V) : Phase V → Prop
  | .inspecting _ revision entry seen =>
    revision ≤ w.register.revision ∧ (w.register.revision = revision → w.last = seen) ∧
      ∀ W, seen = some W → Carries D w.now (some entry) W
  | .removing _ revision seen at_ =>
    revision ≤ w.register.revision ∧ (w.register.revision = revision → w.last = seen) ∧
      at_ ≤ w.now ∧ ∀ W, seen = some W → D.deadline W ≤ at_
  | .relisting seen at_ value => Answered D seen at_ (.ok (some value))
  | .writing W => W.made ≤ w.now ∧ D.fits W = true
  | .reusing W => W.made ≤ w.now ∧ D.fits W = true
  | .done (.got seen at_ result) => Answered D seen at_ result
  | _ => True

/-- The invariant: the last write on the key is its entry while its lifetime lasts. -/
structure Inv (D : Driver V) (w : World τ V) : Prop where
  current : ∀ W, w.last = some W → Carries D w.now w.register.value W
  phases : ∀ o, PhaseOk D w (w.phases o)

omit [DecidableEq τ] in
/-- The invariant holds initially. -/
theorem World.Initial.inv {w : World τ V} (h : w.Initial) (D : Driver V) : Inv D w where
  current := by
    intro W hW
    rw [h.last] at hW
    cases hW
  phases := by
    intro o
    rw [h.idle o]
    trivial

section Steps

variable {D : Driver V} {w : World τ V} {o : τ}

/-- Time passes. -/
theorem Carries.mono {now now' : Instant} {entry : Option V} {W : Write}
    (h : Carries D now entry W) (hnow : now ≤ now') : Carries D now' entry W where
  made := h.made.trans hnow
  fits := h.fits
  entry_eq := fun hlt => h.entry_eq (hnow.trans_lt hlt)

variable {p : Phase V} {w' : World τ V} {skip : Nat}

/-- A step that only moves one call keeps the invariant. -/
theorem Inv.put (hw : Inv D w) (hp : PhaseOk D w p) : Inv D (w.put o p) where
  current := hw.current
  phases := (forall_update_iff w.phases fun _ => PhaseOk D w).mpr
    ⟨hp, fun q _ => hw.phases q⟩

omit [DecidableEq τ] in
/-- What holds of a call survives a change of the key. -/
theorem PhaseOk.change (h : PhaseOk D w p) {entry : Option V}
    (hregister : w'.register = w.register.change skip entry) (hnow : w'.now = w.now) :
    PhaseOk D w' p := by
  have hlt : ∀ {revision}, revision ≤ w.register.revision → revision < w'.register.revision := by
    intro revision hle
    rw [hregister, Register.change]
    dsimp only
    omega
  cases p with
  | inspecting r revision v seen =>
    obtain ⟨hle, -, hseen⟩ := h
    refine ⟨(hlt hle).le, fun heq => absurd heq (hlt hle).ne', ?_⟩
    rw [hnow]
    exact hseen
  | removing r revision seen at_ =>
    obtain ⟨hle, -, hat, hseen⟩ := h
    exact ⟨(hlt hle).le, fun heq => absurd heq (hlt hle).ne', hat.trans hnow.ge, hseen⟩
  | writing W | reusing W => exact ⟨h.1.trans hnow.ge, h.2⟩
  | relisting seen at_ value => exact h
  | done result =>
    cases result with
    | got seen at_ result => exact h
    | wrote result => trivial
  | idle | reading r | stamping kind value ttl => trivial

omit [DecidableEq τ] in
/-- What holds of a call survives the passing of time. -/
theorem PhaseOk.tick (h : PhaseOk D w p) (hregister : w'.register = w.register)
    (hlast : w'.last = w.last) (hnow : w.now ≤ w'.now) : PhaseOk D w' p := by
  cases p with
  | inspecting r revision v seen =>
    dsimp only [PhaseOk] at h ⊢
    rw [hregister, hlast]
    exact ⟨h.1, h.2.1, fun W hW => (h.2.2 W hW).mono hnow⟩
  | removing r revision seen at_ =>
    dsimp only [PhaseOk] at h ⊢
    rw [hregister, hlast]
    exact ⟨h.1, h.2.1, h.2.2.1.trans hnow, h.2.2.2⟩
  | writing W | reusing W => exact ⟨h.1.trans hnow, h.2⟩
  | relisting seen at_ value => exact h
  | done result =>
    cases result with
    | got seen at_ result => exact h
    | wrote result => trivial
  | idle | reading r | stamping kind value ttl => trivial

omit [DecidableEq τ] in
/-- After a `Get` that returned the last write, its caller is as it should be. -/
theorem phaseOk_gave {r : Reader} {seen : Option Write} {at_ : Instant}
    {result : Except CacheError (Option Bytes)} (h : Answered D seen at_ result) :
    PhaseOk D w (r.gave seen at_ result) := by
  cases r with
  | get => exact h
  | list =>
    cases result with
    | error err => exact h
    | ok value =>
      cases value with
      | none => exact h
      | some value => exact h
  | add value ttl =>
    cases result with
    | error err => trivial
    | ok value => cases value <;> trivial

/-- Nothing is known, so nothing is missing. -/
theorem answered_none {at_ : Instant} {result : Except CacheError (Option Bytes)} :
    Answered D none at_ result := by
  intro W hW
  cases hW

/-- A write that takes effect keeps the invariant. -/
theorem Inv.wrote (hw : Inv D w) {W : Write} (hW : W.made ≤ w.now ∧ D.fits W = true)
    (skip : Nat) : Inv D (w.wrote D o W skip) where
  current := by
    rintro _ ⟨⟩
    exact ⟨hW.1, hW.2, fun _ => rfl⟩
  phases := by
    refine (forall_update_iff w.phases fun _ => PhaseOk D _).mpr ⟨trivial, ?_⟩
    intro q _
    exact (hw.phases q).change rfl rfl

/-- The look at an entry keeps the invariant. -/
theorem Inv.inspect (hw : Inv D w) (h : step D w (.inspect o) = some w') : Inv D w' := by
  have hok := hw.phases o
  simp only [step] at h
  split at h
  · rename_i r revision entry seen hphase
    rw [hphase] at hok
    obtain ⟨hle, hlast, hseen⟩ := hok
    -- within its lifetime the write that is known is the entry that was read
    have hlook : ∀ W, seen = some W → w.now < D.deadline W →
        D.look w.now entry = .live W.value := by
      intro W hW hlt
      have hcarries := hseen W hW
      rw [Option.some.inj (hcarries.entry_eq hlt)]
      exact D.look_entry W w.now hcarries.fits hcarries.made hlt
    split at h
    · rename_i err hfailed
      cases h
      refine hw.put (phaseOk_gave ?_)
      intro W hW hlt
      rw [hlook W hW hlt] at hfailed
      cases hfailed
    · rename_i value hlive
      cases h
      refine hw.put (phaseOk_gave ?_)
      intro W hW hlt
      rw [hlook W hW hlt] at hlive
      cases hlive
      rfl
    · rename_i hexpired
      cases h
      refine hw.put ⟨hle, hlast, le_rfl, ?_⟩
      intro W hW
      by_contra hlt
      rw [hlook W hW (not_le.mp hlt)] at hexpired
      cases hexpired
  · cases h

/-- A removal that finds the entry that was looked at, or none, keeps the invariant. -/
theorem Inv.remove {ok : Bool} (hw : Inv D w) (hsound : Sound D w (.remove o skip ok))
    (h : step D w (.remove o skip ok) = some w') : Inv D w' := by
  have hok := hw.phases o
  simp only [step] at h
  split at h
  · rename_i r revision seen at_ hphase
    rw [hphase] at hok
    simp only [Sound, hphase] at hsound
    obtain ⟨-, hlast, hat, hseen⟩ := hok
    have hanswered : Answered D seen at_ (.ok none) :=
      fun W hW hlt => absurd hlt (not_lt.mpr (hseen W hW))
    cases ok with
    | false =>
      cases h
      exact hw.put (phaseOk_gave hanswered)
    | true =>
      cases h
      -- the lifetime of the last write has elapsed, so its entry may go
      have helapsed : ∀ W, w.last = some W → D.deadline W ≤ w.now := by
        intro W hW
        rcases hsound rfl with hrevision | hnone
        · rw [hlast hrevision] at hW
          exact (hseen W hW).trans hat
        · by_contra hlt
          have hentry := (hw.current W hW).entry_eq (not_le.mp hlt)
          rw [hnone] at hentry
          cases hentry
      refine ⟨?_, ?_⟩
      · intro W hW
        have hcarries := hw.current W hW
        exact ⟨hcarries.made, hcarries.fits, fun hlt => absurd hlt (not_lt.mpr (helapsed W hW))⟩
      · refine (forall_update_iff w.phases fun _ => PhaseOk D _).mpr
          ⟨phaseOk_gave hanswered, ?_⟩
        intro q _
        exact (hw.phases q).change rfl rfl
  · cases h

/-- A write, or its refusal, keeps the invariant. -/
theorem Inv.write (hw : Inv D w) (h : step D w (.write o skip) = some w') : Inv D w' := by
  have hok := hw.phases o
  simp only [step] at h
  split at h
  · rename_i W hphase
    rw [hphase] at hok
    split at h
    · cases h
      exact hw.wrote hok skip
    · cases h
      exact hw.wrote hok skip
    · split at h
      · cases h
        exact hw.put trivial
      · cases h
        exact hw.put hok
      · split at h <;> cases h
        · exact hw.wrote hok skip
        · exact hw.put trivial
  · cases h

omit [DecidableEq τ] in
/-- A call begins as it should. -/
theorem phaseOk_start {c : Call} (h : D.start c = some p) : PhaseOk D w p := by
  cases c with
  | get | set value ttl =>
    cases h
    trivial
  | list =>
    simp only [Driver.start, Option.ite_none_right_eq_some, Option.some.injEq] at h
    obtain ⟨-, rfl⟩ := h
    trivial
  | add value ttl =>
    simp only [Driver.start] at h
    split at h <;> cases h <;> trivial

/-- A read keeps the invariant: the entry that it finds is the last write, if its lifetime lasts. -/
theorem Inv.read (hw : Inv D w) (h : step D w (.read o) = some w') : Inv D w' := by
  have hok := hw.phases o
  simp only [step] at h
  split at h
  · split at h <;> cases h
    · rename_i hnone
      refine hw.put (phaseOk_gave ?_)
      intro W hW hlt
      have hentry := (hw.current W hW).entry_eq hlt
      rw [hnone] at hentry
      cases hentry
    · rename_i entry hentry
      refine hw.put ⟨le_rfl, fun _ => rfl, ?_⟩
      intro W hW
      rw [← hentry]
      exact hw.current W hW
  · rename_i seen at_ value hphase
    rw [hphase] at hok
    cases h
    exact hw.put hok
  · cases h

/-- Every step that meets the side condition keeps the invariant. -/
theorem inv_step {e : Event τ V} (hw : Inv D w) (hsound : Sound D w e) (h : step D w e = some w') :
    Inv D w' := by
  cases e with
  | call o c =>
    simp only [step] at h
    split at h
    · obtain ⟨p, hp, rfl⟩ := Option.map_eq_some_iff.mp h
      exact hw.put (phaseOk_start hp)
    · obtain ⟨p, hp, rfl⟩ := Option.map_eq_some_iff.mp h
      exact hw.put (phaseOk_start hp)
    · cases h
  | read o => exact hw.read h
  | inspect o => exact hw.inspect h
  | remove o skip ok => exact hw.remove hsound h
  | stamp o =>
    simp only [step] at h
    split at h
    · rename_i kind value ttl hphase
      simp only [Sound, hphase] at hsound
      cases h
      exact hw.put ⟨le_rfl, hsound⟩
    · cases h
  | write o skip => exact hw.write h
  | reuse o skip =>
    have hok := hw.phases o
    simp only [step] at h
    split at h
    · rename_i W hphase
      rw [hphase] at hok
      split at h
      · cases h
        exact hw.put trivial
      · split at h <;> cases h
        · exact hw.wrote hok skip
        · exact hw.put trivial
    · cases h
  | fail o err =>
    simp only [step] at h
    split at h
    · cases h
      exact hw.put (phaseOk_gave answered_none)
    · cases h
      exact hw.put trivial
    · cases h
      exact hw.put trivial
    · cases h
  | other skip entry =>
    cases h
    refine ⟨?_, fun q => (hw.phases q).change rfl rfl⟩
    intro W hW
    cases hW
  | tick d =>
    cases h
    have hnow : w.now ≤ w.now + d := Int.le_add_of_nonneg_right (Int.natCast_nonneg d)
    exact ⟨fun W hW => (hw.current W hW).mono hnow, fun q => (hw.phases q).tick rfl rfl hnow⟩

end Steps

/-! ## The three stores -/

/-- An expiration at `deadline` has not passed before it. -/
theorem not_unixMilli_lt {now deadline : Instant} (hlo : -2 ^ 63 ≤ millis now)
    (hhi : millis deadline < 2 ^ 63) (h : now < deadline) :
    ¬unixMilli deadline < unixMilli now := by
  have hmillis : millis now ≤ millis deadline := by
    unfold millis Instant at *
    omega
  rw [Int64.lt_iff_toInt_lt, toInt_unixMilli (hlo.trans hmillis) hhi,
    toInt_unixMilli hlo (hmillis.trans_lt hhi)]
  exact not_lt.mpr hmillis

/-- The look of the NATS store in envelope mode: a value without an envelope does not expire. -/
def natsLook (unmarshal : Bytes → Option Envelope) (now : Instant) (body : Bytes) : Look :=
  match decodeEnvelope unmarshal body with
  | .error err => .failed err
  | .ok none => .live body
  | .ok (some env) => if env.expired now then .expired else .live env.value

/-- The NATS store in envelope mode. -/
def natsDriver (unmarshal : Bytes → Option Envelope) (d : DefaultTTL) : Driver Bytes where
  defaultTTL := d
  addProtocol := .getThenCreate
  look := natsLook unmarshal
  entry := fun W => encodeEnvelope d W.made W.value W.ttl
  reusable := fun _ _ => false
  fits := fun _ => true
  look_entry := by
    intro W now _ hmade hlt
    have hmillis : millis now ≤ millis (W.made + (d.resolve W.ttl).toInt) := by
      unfold millis Instant at *
      omega
    unfold natsLook
    rw [decodeEnvelope_encode]
    dsimp only
    rw [Nats.not_expired_within hmade hmillis]
    rfl

/-- The milliseconds of the clock and of the expiration are 64-bit numbers, and an `Add`, which
starts from the clock in whole milliseconds, loses no millisecond of its lifetime by that. -/
def millisFit (d : DefaultTTL) (W : Write) : Bool :=
  let ttl := (d.resolve W.ttl).toInt
  decide (-2 ^ 63 ≤ millis W.made) && decide (millis (W.made + ttl) < 2 ^ 63) &&
    decide (W.kind = .add → millis (millis W.made * 1000000 + ttl) = millis (W.made + ttl))

/-- The expiration that a write of the SQL and DynamoDB stores carries. -/
def expiryMillis (d : DefaultTTL) (W : Write) : Int64 :=
  match W.kind with
  | .set => unixMilli (W.made + (d.resolve W.ttl).toInt)
  | .add => unixMilli ((unixMilli W.made).toInt * 1000000 + (d.resolve W.ttl).toInt)

/-- The expiration of a write has not passed within its lifetime. -/
theorem not_expiryMillis_lt {d : DefaultTTL} {W : Write} {now : Instant}
    (hfits : millisFit d W = true) (hmade : W.made ≤ now)
    (hlt : now < W.made + (d.resolve W.ttl).toInt) : ¬expiryMillis d W < unixMilli now := by
  simp only [millisFit, Bool.and_eq_true, decide_eq_true_eq] at hfits
  obtain ⟨⟨hlo, hhi⟩, hwhole⟩ := hfits
  have hpos : 0 < (d.resolve W.ttl).toInt := Int64.lt_iff_toInt_lt.mp (d.resolve_pos W.ttl)
  have hnow : -2 ^ 63 ≤ millis now := by
    unfold millis Instant at *
    omega
  have hset := not_unixMilli_lt hnow hhi hlt
  unfold expiryMillis
  cases hkind : W.kind with
  | set => exact hset
  | add =>
    have hmillis : (unixMilli W.made).toInt = millis W.made := by
      apply toInt_unixMilli hlo
      unfold millis Instant at *
      omega
    dsimp only
    rw [hmillis, unixMilli, hwhole hkind]
    exact hset

/-- The SQL store. -/
def sqlDriver (cfg : Sql.Config) : Driver Sql.Row where
  defaultTTL := cfg.defaultTTL
  addProtocol := .insertThenReuse
  look := fun now row => if row.expired now then .expired else .live row.v
  entry := fun W =>
    match W.kind with
    | .set => ⟨W.value, Sql.setExpiry cfg W.made W.ttl⟩
    | .add => ⟨W.value, Sql.addExpiry cfg (unixMilli W.made) W.ttl⟩
  reusable := fun made row => decide (row.ea < unixMilli made)
  fits := millisFit cfg.defaultTTL
  look_entry := by
    intro W now hfits hmade hlt
    have hlive := not_expiryMillis_lt hfits hmade hlt
    unfold expiryMillis at hlive
    cases hkind : W.kind <;> rw [hkind] at hlive <;>
      simp [Sql.Row.expired, Sql.setExpiry, Sql.addExpiry, hlive]

/-- The look of the DynamoDB store. -/
def dynamoLook (now : Instant) (item : Dynamo.Attributes) : Look :=
  if item.expired now then .expired
  else
    match item.v with
    | some value => .live value
    | none => .failed Dynamo.missingValue

/-- The DynamoDB store. -/
def dynamoDriver (cfg : Dynamo.Config) : Driver Dynamo.Attributes where
  defaultTTL := cfg.defaultTTL
  addProtocol := .conditionalPut
  look := dynamoLook
  entry := fun W =>
    match W.kind with
    | .set => Dynamo.setItem cfg W.made W.value W.ttl
    | .add => Dynamo.addItem cfg (unixMilli W.made) W.value W.ttl
  reusable := fun made item => item.before (unixMilli made)
  fits := millisFit cfg.defaultTTL
  look_entry := by
    intro W now hfits hmade hlt
    have hlive := not_expiryMillis_lt hfits hmade hlt
    unfold expiryMillis at hlive
    cases hkind : W.kind <;> rw [hkind] at hlive <;>
      simp [dynamoLook, Dynamo.Attributes.expired, Dynamo.setItem, Dynamo.addItem, hlive]

/-- The stores with lazy removal, each with its configuration. -/
inductive Backend where
  | nats (unmarshal : Bytes → Option Envelope) (d : DefaultTTL)
  | sql (cfg : Sql.Config)
  | dynamo (cfg : Dynamo.Config)

/-- The entries of a store. -/
def Backend.Entry : Backend → Type
  | nats _ _ => Bytes
  | sql _ => Sql.Row
  | dynamo _ => Dynamo.Attributes

/-- How a store reads and writes. -/
def Backend.driver : (b : Backend) → Driver b.Entry
  | nats unmarshal d => natsDriver unmarshal d
  | sql cfg => sqlDriver cfg
  | dynamo cfg => dynamoDriver cfg

/-! ## Live data is kept -/

/--
Reads keep live data, in each of the three stores.  Take any entry of the key at the start, any
number of clients, and any interleaving of the backend calls of `Get`, `ListPage`,
`Set` and `Add` with any other changes of the key, in which every removal by a reader
finds the entry that it looked at, or none, and every written expiration is the end of the lifetime
in milliseconds.  In every state reached:

- the last write on the key is its entry as long as its lifetime has not elapsed;
- a `Get` that read the key after that write, with no other change in between, and looked
  before the lifetime had elapsed, has returned the written value.
-/
theorem reads_keep_live_data {b : Backend} {w₀ w : World τ b.Entry} {es : List (Event τ b.Entry)}
    (hinit : w₀.Initial) (hsound : Along (step b.driver) (Sound b.driver) w₀ es)
    (hrun : run (step b.driver) w₀ es = some w) :
    (∀ W, w.last = some W → w.now < b.driver.deadline W →
      w.register.value = some (b.driver.entry W)) ∧
    (∀ o W at_ result, w.phases o = .done (.got (some W) at_ result) →
      at_ < b.driver.deadline W → result = .ok (some W.value)) := by
  have hw : Inv b.driver w :=
    run_preserves_along (fun _ _ _ hs hG h => inv_step hs hG h) (hinit.inv b.driver) hsound hrun
  refine ⟨fun W hW hlt => (hw.current W hW).entry_eq hlt, ?_⟩
  intro o W at_ result hphase hlt
  have hok := hw.phases o
  rw [hphase] at hok
  exact hok W rfl hlt

/-! ## A reader and a writer -/

/-- An entry that was written for a millisecond. -/
def oldWrite : Write := ⟨.set, ascii "old", 1000000, 0⟩

/-- A write for a minute, five milliseconds after the old one. -/
def newWrite : Write := ⟨.set, ascii "new", 60000000000, 5000000⟩

/-- The old entry has expired; nobody has called yet. -/
def staleWorld (D : Driver V) : World Nat V where
  register := ⟨1, some (D.entry oldWrite)⟩
  now := 5000000
  phases := fun _ => .idle
  last := none

omit [DecidableEq τ] in
/-- Nobody has called. -/
theorem staleWorld_initial (D : Driver V) : (staleWorld D).Initial := ⟨fun _ => rfl, rfl⟩

/-- A NATS bucket without JSON envelopes. -/
def sampleBucket : Backend := .nats (fun _ => none) (DefaultTTL.normalize 0)

/-- An `Add` finds the old entry expired, removes it and creates its own; a `ListPage`
of another client then reads the key. -/
def addAndList : List (Event Nat V) :=
  [.call 0 (.add (ascii "new") 60000000000), .read 0, .inspect 0, .remove 0 0 true, .stamp 0,
    .write 0 0, .call 1 .list, .read 1, .inspect 1, .read 1]

/-- The bucket key after that run. -/
def listedWorld : World Nat sampleBucket.Entry :=
  (run (step sampleBucket.driver) (staleWorld sampleBucket.driver) addAndList).getD
    (staleWorld sampleBucket.driver)

/-- The entry that `Add` created is listed. -/
theorem reads_keep_live_data_add :
    run (step sampleBucket.driver) (staleWorld sampleBucket.driver) addAndList = some listedWorld ∧
    listedWorld.last = some ⟨.add, ascii "new", 60000000000, 5000000⟩ ∧
    listedWorld.phases 1 = .done (.got listedWorld.last 5000000 (.ok (some (ascii "new")))) ∧
    ∀ o W at_ result, listedWorld.phases o = .done (.got (some W) at_ result) →
      at_ < sampleBucket.driver.deadline W → result = .ok (some W.value) := by
  have hrun : run (step sampleBucket.driver) (staleWorld sampleBucket.driver) addAndList =
      some listedWorld := rfl
  have hsound : Along (step sampleBucket.driver) (Sound sampleBucket.driver)
      (staleWorld sampleBucket.driver) addAndList := by
    decide +kernel
  exact ⟨hrun, rfl, rfl, (reads_keep_live_data (staleWorld_initial _) hsound hrun).2⟩

/-- A `Get` finds the old entry expired. -/
def looks : List (Event Nat V) := [.call 0 .get, .read 0, .inspect 0]

/-- A `Set` of another client completes, the first client removes what it finds, and a third
client reads. -/
def removes : List (Event Nat V) :=
  [.call 1 (.set (ascii "new") 60000000000), .stamp 1, .write 1 0, .remove 0 0 true,
    .call 2 .get, .read 2]

/-- The first client is about to remove the old entry. -/
def lookedWorld (D : Driver V) : World Nat V :=
  (((staleWorld D).put 0 (.reading .get)).put 0 (.inspecting .get 1 (D.entry oldWrite) none)).put 0
    (.removing .get 1 none 5000000)

/-- In any store that takes the old entry for expired, the first client goes on to remove it. -/
theorem run_looks {D : Driver V} (hold : D.look 5000000 (D.entry oldWrite) = .expired) :
    run (step D) (staleWorld D) looks = some (lookedWorld D) := by
  have hinspect : step D (((staleWorld D).put 0 (.reading .get)).put 0
      (.inspecting .get 1 (D.entry oldWrite) none)) (.inspect 0) = some (lookedWorld D) := by
    simp only [step, World.put, update_self, staleWorld]
    rw [hold]
    rfl
  exact congrArg (fun r : Option (World Nat V) => r.bind some) hinspect

/-- The rest of the race: the `Set` returns success, and the value it wrote is removed. -/
theorem run_removes (D : Driver V) :
    ∃ w, run (step D) (lookedWorld D) removes = some w ∧
      w.phases 1 = .done (.wrote (.ok true)) ∧ w.last = some newWrite ∧ w.now = 5000000 ∧
      w.register.value = none ∧
      w.phases 2 = .done (.got (some newWrite) w.now (.ok none)) :=
  ⟨_, rfl, rfl, rfl, rfl, rfl, rfl⟩

/-- The old entry of each store has expired. -/
theorem look_oldWrite (b : Backend) :
    b.driver.look 5000000 (b.driver.entry oldWrite) = .expired := by
  have hresolve : ∀ d : DefaultTTL, d.resolve 1000000 = 1000000 := by
    intro d
    exact d.resolve_of_pos (by decide)
  cases b with
  | nats unmarshal d =>
    change (natsDriver unmarshal d).look 5000000 ((natsDriver unmarshal d).entry oldWrite) = _
    dsimp only [natsDriver, natsLook, oldWrite]
    rw [decodeEnvelope_encode, hresolve]
    rfl
  | sql cfg =>
    change (sqlDriver cfg).look 5000000 ((sqlDriver cfg).entry oldWrite) = _
    dsimp only [sqlDriver, oldWrite, Sql.setExpiry]
    rw [hresolve]
    rfl
  | dynamo cfg =>
    change (dynamoDriver cfg).look 5000000 ((dynamoDriver cfg).entry oldWrite) = _
    dsimp only [dynamoDriver, oldWrite, Dynamo.setItem]
    rw [hresolve]
    rfl

/-- From an expired entry and on a clock that stands still, a `Set` returns success and is the
last change of the key but for the removal by a `Get` that had looked at the old entry; the
next `Get` misses, although the lifetime of the written value has hardly begun. -/
def LosesLiveData (b : Backend) : Prop :=
  ∃ w, (staleWorld b.driver).Initial ∧
    run (step b.driver) (staleWorld b.driver) (looks ++ removes) = some w ∧
    w.phases 1 = .done (.wrote (.ok true)) ∧ w.last = some newWrite ∧
    w.now < b.driver.deadline newWrite ∧ w.register.value = none ∧
    w.phases 2 = .done (.got (some newWrite) w.now (.ok none))

/-- The race goes wrong in every configuration. -/
theorem losesLiveData (b : Backend) : LosesLiveData b := by
  have hdeadline : (5000000 : Instant) < b.driver.deadline newWrite := by
    have hresolve : ∀ d : DefaultTTL, d.resolve newWrite.ttl = 60000000000 := by
      intro d
      exact d.resolve_of_pos (by decide)
    rw [Driver.deadline, hresolve]
    decide
  rcases run_removes b.driver with ⟨w, hrun, hwriter, hlast, hnow, hgone, hreader⟩
  refine ⟨w, staleWorld_initial _, ?_, hwriter, hlast, hnow ▸ hdeadline, hgone, hreader⟩
  rw [run_append, run_looks (look_oldWrite b), Option.bind_some]
  exact hrun

/-- A reader removes live data in each of the three stores. -/
theorem reader_removes_live_data :
    LosesLiveData sampleBucket ∧ LosesLiveData (.sql (.sqlite (ascii "app"))) ∧
      LosesLiveData (.dynamo ⟨ascii "app", DefaultTTL.normalize 0⟩) :=
  ⟨losesLiveData _, losesLiveData _, losesLiveData _⟩

end LazyRemoval
end GoforjCache
