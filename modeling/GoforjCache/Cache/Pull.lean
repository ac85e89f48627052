import GoforjCache.Core.Types
import GoforjCache.Foundation.Transition

/-!
# Cache - Pulling a value

`PullBytes` reads a key and, on a hit, deletes it; the two store calls are separate.  Any
number of pulls of one key take these steps in any order with any number of `Set` calls, over a
store whose calls are atomic and may fail.  The content may also expire at any moment.

The values are told apart by the `Set` that wrote them: each one makes a new version.

Main results:

- Theorem `Inv.delete`: a pull that deletes what it has read hands out a new version.
- Theorem `pull_hands_out_once`: when nothing is written or deleted between the read of a pull
  and its deletion, no version is handed out twice, and a pull only deletes what it hands out.
- Theorem `pull_hands_out_twice`: otherwise two pulls return one value, and a pull deletes a
  value that nobody has read.
-/

namespace GoforjCache
namespace Pull

open Function Foundation Foundation.Transition

/-! ## Pulls in flight -/

/-- Program counter of one pull. -/
inductive Phase where
  | idle
  /-- `Get` is next. -/
  | reading
  /-- `Get` has hit; `Delete` is next.  `seen` is the number of changes of the key
  before the read. -/
  | deleting (seen : Nat) (version : Nat) (value : Bytes)
  | done (result : Except CacheError (Option Bytes))

/-- A pull that has returned a value: the version it had read, and the version that its deletion
removed, if there was one. -/
structure Handout (τ : Type) where
  slot : τ
  version : Nat
  value : Bytes
  removed : Option Nat

/-- The content of the key with its version, the number of versions so far, the number of
`Set` and `Delete` calls that took effect, one pull per slot, and what was handed out. -/
structure World (τ : Type) where
  content : Option (Nat × Bytes)
  versions : Nat
  changes : Nat
  phases : τ → Phase
  handed : List (Handout τ)

/-- The steps.  `fail` is a store call that fails without effect. -/
inductive Event (τ : Type) where
  | call (o : τ)
  | get (o : τ)
  | delete (o : τ)
  | fail (o : τ) (err : CacheError)
  | set (value : Bytes)
  | expire

variable {τ : Type} [DecidableEq τ]

/-- Move one pull to a new program counter. -/
def World.put (w : World τ) (o : τ) (p : Phase) : World τ :=
  { w with phases := update w.phases o p }

/-- One step. -/
def step (w : World τ) : Event τ → Option (World τ)
  | .call o =>
    match w.phases o with
    | .idle => some (w.put o .reading)
    | _ => none
  | .get o =>
    match w.phases o with
    | .reading =>
      match w.content with
      | none => some (w.put o (.done (.ok none)))
      | some (version, value) => some (w.put o (.deleting w.changes version value))
    | _ => none
  | .delete o =>
    match w.phases o with
    | .deleting _ version value =>
      -- the deletion names the key only
      some { w with
        content := none
        changes := w.changes + 1
        phases := update w.phases o (.done (.ok (some value)))
        handed := w.handed ++ [⟨o, version, value, w.content.map Prod.fst⟩] }
    | _ => none
  | .fail o err =>
    match w.phases o with
    | .reading | .deleting _ _ _ => some (w.put o (.done (.error err)))
    | _ => none
  | .set value =>
    some { w with
      content := some (w.versions, value)
      versions := w.versions + 1
      changes := w.changes + 1 }
  | .expire => some { w with content := none }

/-- No pull has been made; the key may hold anything, as the first version. -/
structure World.Initial (w : World τ) : Prop where
  idle : ∀ o, w.phases o = .idle
  handed : w.handed = []
  versions : ∀ version value, w.content = some (version, value) → version < w.versions

/-- The side condition of a step: when a pull deletes, no `Set` and no `Delete` has taken
effect since it read. -/
def Undisturbed (w : World τ) : Event τ → Prop
  | .delete o =>
    match w.phases o with
    | .deleting seen _ _ => w.changes = seen
    | _ => True
  | _ => True

instance (w : World τ) : DecidablePred (Undisturbed w) := by
  intro e
  cases e with
  | delete o =>
    dsimp only [Undisturbed]
    split <;> infer_instance
  | call | get | fail | set | expire => exact .isTrue trivial

/-! ## The invariant -/

/-- A version that can still be handed out: it exists, and no pull has returned it. -/
structure Pullable (w : World τ) (version : Nat) : Prop where
  lt : version < w.versions
  fresh : ∀ h ∈ w.handed, h.version ≠ version

/-- What holds of a pull at its program counter: while nothing has changed since its read, its
version can be handed out, and the key holds no other one. -/
def PhaseOk (w : World τ) : Phase → Prop
  | .deleting seen version _ =>
    seen ≤ w.changes ∧ (w.changes = seen →
      Pullable w version ∧ ∀ v ∈ w.content.map Prod.fst, v = version)
  | _ => True

/-- The invariant: no version was handed out twice, pulls removed what they handed out, and the
content of the key can still be handed out. -/
structure Inv (w : World τ) : Prop where
  nodup : (w.handed.map Handout.version).Nodup
  removed : ∀ h ∈ w.handed, ∀ v ∈ h.removed, v = h.version
  lt : ∀ h ∈ w.handed, h.version < w.versions
  content : ∀ version value, w.content = some (version, value) → Pullable w version
  returned : ∀ o value, w.phases o = .done (.ok (some value)) ↔
    ∃ h ∈ w.handed, h.slot = o ∧ h.value = value
  phases : ∀ o, PhaseOk w (w.phases o)

omit [DecidableEq τ] in
/-- The invariant holds initially. -/
theorem World.Initial.inv {w : World τ} (h : w.Initial) : Inv w := by
  have hnone : ∀ d, d ∉ w.handed := by
    intro d hd
    rw [h.handed] at hd
    cases hd
  refine ⟨?_, fun d hd => absurd hd (hnone d), fun d hd => absurd hd (hnone d), ?_, ?_, ?_⟩
  · rw [h.handed]
    exact List.nodup_nil
  · intro version value hcontent
    exact ⟨h.versions version value hcontent, fun d hd => absurd hd (hnone d)⟩
  · intro o value
    rw [h.idle o]
    constructor
    · intro hdone
      cases hdone
    · rintro ⟨d, hd, -⟩
      exact absurd hd (hnone d)
  · intro o
    rw [h.idle o]
    trivial

section Steps

variable {w : World τ} {o : τ}

/-- The pull has returned a value. -/
def Phase.handing : Phase → Bool
  | done (.ok (some _)) => true
  | _ => false

omit [DecidableEq τ] in
/-- A pull that has returned no value is not among those handed out. -/
theorem Inv.slot_ne (hw : Inv w) (hbefore : (w.phases o).handing = false) :
    ∀ h ∈ w.handed, h.slot ≠ o := by
  intro h hh hslot
  have hdone := (hw.returned o h.value).mpr ⟨h, hh, hslot, rfl⟩
  rw [hdone] at hbefore
  cases hbefore

/-- A step that only moves one pull, to no value, keeps the invariant. -/
theorem Inv.put (hw : Inv w) {p : Phase} (hbefore : (w.phases o).handing = false)
    (hafter : p.handing = false) (hp : PhaseOk w p) : Inv (w.put o p) where
  nodup := hw.nodup
  removed := hw.removed
  lt := hw.lt
  content := fun version value hcontent =>
    ⟨(hw.content version value hcontent).lt, (hw.content version value hcontent).fresh⟩
  returned := by
    refine (forall_update_iff w.phases fun q p => ∀ value, p = .done (.ok (some value)) ↔
      ∃ h ∈ w.handed, h.slot = q ∧ h.value = value).mpr ⟨?_, fun q _ => hw.returned q⟩
    intro value
    constructor
    · intro hdone
      rw [hdone] at hafter
      cases hafter
    · rintro ⟨h, hh, hslot, -⟩
      exact absurd hslot (hw.slot_ne hbefore h hh)
  phases := by
    have hmoved : ∀ {q : Phase}, PhaseOk w q → PhaseOk (w.put o p) q := by
      intro q hq
      unfold PhaseOk at hq ⊢
      split at hq
      · exact ⟨hq.1, fun heq => ⟨⟨(hq.2 heq).1.lt, (hq.2 heq).1.fresh⟩, (hq.2 heq).2⟩⟩
      · trivial
    exact (forall_update_iff w.phases fun _ => PhaseOk (w.put o p)).mpr
      ⟨hmoved hp, fun q _ => hmoved (hw.phases q)⟩

variable {w' : World τ}

omit [DecidableEq τ] in
/-- A change of the key leaves nothing to say of the pulls that have read. -/
theorem PhaseOk.changed {p : Phase} (h : PhaseOk w p) (hchanges : w'.changes = w.changes + 1) :
    PhaseOk w' p := by
  unfold PhaseOk at h ⊢
  split at h
  · have hle := h.1
    exact ⟨by omega, fun heq => by omega⟩
  · trivial

/-- A pull that deletes what it has read, or nothing, hands out a new version. -/
theorem Inv.delete (hw : Inv w) (hsound : Undisturbed w (.delete o))
    (h : step w (.delete o) = some w') : Inv w' := by
  have hok := hw.phases o
  simp only [step] at h
  split at h
  · rename_i seen version value hphase
    simp only [Undisturbed, hphase] at hsound
    rw [hphase] at hok
    rcases hok.2 hsound with ⟨hpullable, hcontent⟩
    have hbefore : (w.phases o).handing = false := by rw [hphase]; rfl
    cases h
    refine ⟨?_, ?_, ?_, ?_, ?_, ?_⟩
    · dsimp only
      rw [List.map_append, List.nodup_append]
      refine ⟨hw.nodup, List.nodup_singleton version, ?_⟩
      intro v hv v' hv'
      rcases List.mem_map.mp hv with ⟨d, hd, rfl⟩
      rw [List.mem_singleton.mp hv']
      exact hpullable.fresh d hd
    · intro d hd
      rcases List.mem_append.mp hd with hold | hnew
      · exact hw.removed d hold
      · rw [List.mem_singleton.mp hnew]
        exact hcontent
    · intro d hd
      rcases List.mem_append.mp hd with hold | hnew
      · exact hw.lt d hold
      · rw [List.mem_singleton.mp hnew]
        exact hpullable.lt
    · intro v b hnone
      cases hnone
    · refine (forall_update_iff w.phases fun q p => ∀ b, p = .done (.ok (some b)) ↔
        ∃ d ∈ w.handed ++ [⟨o, version, value, w.content.map Prod.fst⟩],
          d.slot = q ∧ d.value = b).mpr ⟨?_, ?_⟩
      · intro b
        simp only [List.mem_append, List.mem_singleton, or_and_right, exists_or, exists_eq_left]
        constructor
        · rintro ⟨⟩
          exact Or.inr ⟨trivial, rfl⟩
        · rintro (⟨d, hd, hslot, -⟩ | ⟨-, rfl⟩)
          · exact absurd hslot (hw.slot_ne hbefore d hd)
          · rfl
      · intro q hq b
        simp only [List.mem_append, List.mem_singleton, or_and_right, exists_or, exists_eq_left]
        rw [hw.returned q b]
        constructor
        · exact Or.inl
        · rintro (hold | ⟨hslot, -⟩)
          · exact hold
          · exact absurd hslot.symm hq
    · exact (forall_update_iff w.phases fun _ => PhaseOk _).mpr
        ⟨trivial, fun q _ => (hw.phases q).changed rfl⟩
  · cases h

/-- Every step that meets the side condition keeps the invariant. -/
theorem inv_step {e : Event τ} (hw : Inv w) (hsound : Undisturbed w e) (h : step w e = some w') :
    Inv w' := by
  cases e with
  | call o =>
    simp only [step] at h
    split at h
    · rename_i hphase
      cases h
      exact hw.put (by rw [hphase]; rfl) rfl trivial
    · cases h
  | get o =>
    simp only [step] at h
    split at h
    · rename_i hphase
      have hbefore : (w.phases o).handing = false := by rw [hphase]; rfl
      split at h <;> cases h
      · exact hw.put hbefore rfl trivial
      · rename_i version value hcontent
        refine hw.put hbefore rfl ⟨le_rfl, fun _ => ⟨hw.content version value hcontent, ?_⟩⟩
        intro v hv
        rw [hcontent] at hv
        exact (Option.some.inj hv).symm
    · cases h
  | delete o => exact hw.delete hsound h
  | fail o err =>
    simp only [step] at h
    split at h
    · rename_i hphase
      cases h
      exact hw.put (by rw [hphase]; rfl) rfl trivial
    · rename_i hphase
      cases h
      exact hw.put (by rw [hphase]; rfl) rfl trivial
    · cases h
  | set value =>
    cases h
    refine ⟨hw.nodup, hw.removed, ?_, ?_, hw.returned, fun q => (hw.phases q).changed rfl⟩
    · intro d hd
      exact Nat.lt_succ_of_lt (hw.lt d hd)
    · rintro _ _ ⟨⟩
      exact ⟨Nat.lt_succ_self _, fun d hd => (hw.lt d hd).ne⟩
  | expire =>
    cases h
    refine ⟨hw.nodup, hw.removed, hw.lt, ?_, hw.returned, ?_⟩
    · intro v b hnone
      cases hnone
    · intro q
      have hok := hw.phases q
      unfold PhaseOk at hok ⊢
      dsimp only
      split at hok
      · refine ⟨hok.1, fun heq => ⟨⟨(hok.2 heq).1.lt, (hok.2 heq).1.fresh⟩, ?_⟩⟩
        intro v hv
        cases hv
      · trivial

end Steps

/-! ## At most once -/

/--
A value is handed out at most once.  Take any content of the key at the start, any number of pulls
and of `Set` calls, and any interleaving of the store calls, with failures and expiry, in which
no `Set` and no `Delete` takes effect between the read of a pull and its deletion.  In
every state reached:

- no two pulls have returned the value of one `Set`;
- a pull has removed no version but the one whose value it has returned;
- the pulls that have returned a value are those that are recorded, each with its value.
-/
theorem pull_hands_out_once {start w : World τ} {es : List (Event τ)} (hinit : start.Initial)
    (hsound : Along step Undisturbed start es) (hrun : run step start es = some w) :
    (w.handed.map Handout.version).Nodup ∧
    (∀ h ∈ w.handed, ∀ v, h.removed = some v → v = h.version) ∧
    (∀ o value, w.phases o = .done (.ok (some value)) ↔
      ∃ h ∈ w.handed, h.slot = o ∧ h.value = value) := by
  have hw : Inv w :=
    run_preserves_along (fun _ _ _ hs hG h => inv_step hs hG h) hinit.inv hsound hrun
  exact ⟨hw.nodup, fun h hh v hv => hw.removed h hh v hv, hw.returned⟩

/-! ## Overlapping pulls -/

/-- A key without content; nobody has called. -/
def freshWorld : World Nat := ⟨none, 0, 0, fun _ => .idle, []⟩

/-- Two pulls one after the other, the second one called before the first one deletes. -/
def ordered : List (Event Nat) := [.set (ascii "abc"), .call 0, .call 1, .get 0, .delete 0, .get 1]

/-- The key after that run. -/
def orderedWorld : World Nat := (run step freshWorld ordered).getD freshWorld

/-- The first pull returns the value, and the second one misses. -/
theorem pull_hands_out_once_ordered :
    run step freshWorld ordered = some orderedWorld ∧
    orderedWorld.phases 0 = .done (.ok (some (ascii "abc"))) ∧
    orderedWorld.phases 1 = .done (.ok none) ∧
    (orderedWorld.handed.map Handout.version).Nodup := by
  have hinit : freshWorld.Initial := by
    refine ⟨fun _ => rfl, rfl, ?_⟩
    intro version value hcontent
    cases hcontent
  have hrun : run step freshWorld ordered = some orderedWorld := rfl
  have hsound : Along step Undisturbed freshWorld ordered := by decide
  exact ⟨hrun, rfl, rfl, (pull_hands_out_once hinit hsound hrun).1⟩

/-- Two pulls read before either one deletes. -/
def overlapping : List (Event Nat) :=
  [.set (ascii "abc"), .call 0, .call 1, .get 0, .get 1, .delete 0, .delete 1]

/-- A value is written between the read of a pull and its deletion. -/
def overwritten : List (Event Nat) := [.call 0, .get 0, .set (ascii "new"), .delete 0]

/-- A key that holds a value at the start. -/
def holdingWorld : World Nat := ⟨some (0, ascii "old"), 1, 0, fun _ => .idle, []⟩

/-- With one `Set`, two pulls both return its value; and a pull that has read the value before
it returns that one and deletes the new one, which nobody has returned. -/
theorem pull_hands_out_twice :
    (∃ w, freshWorld.Initial ∧ run step freshWorld overlapping = some w ∧
      w.phases 0 = .done (.ok (some (ascii "abc"))) ∧
      w.phases 1 = .done (.ok (some (ascii "abc"))) ∧
      w.handed.map Handout.version = [0, 0]) ∧
    (∃ w, holdingWorld.Initial ∧ run step holdingWorld overwritten = some w ∧
      w.phases 0 = .done (.ok (some (ascii "old"))) ∧ w.content = none ∧
      w.handed.map Handout.version = [0] ∧ w.handed.map Handout.removed = [some 1]) := by
  constructor
  · refine ⟨_, ⟨fun _ => rfl, rfl, ?_⟩, rfl, rfl, rfl, rfl⟩
    intro version value hcontent
    cases hcontent
  · refine ⟨_, ⟨fun _ => rfl, rfl, ?_⟩, rfl, rfl, rfl, rfl, rfl⟩
    rintro _ _ ⟨⟩
    decide

end Pull
end GoforjCache
