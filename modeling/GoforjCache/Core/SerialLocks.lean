import GoforjCache.Core.Portable

/-!
# Core - Locks on a store that follows the contract

`LockAcquire` adds the owner's token and `LockRelease` removes it if it is still there.  On a
store that follows the contract this alone makes a lock: while the lock of one owner lives, every
other owner is refused, whatever else is called on other keys.

Main results:

- Theorem `backed_step`: every step keeps the tokens of living locks in the store.
- Theorem `Backed.excludes`: while an owner's lock lives, nobody else holds, gets or releases it.
-/

namespace GoforjCache
namespace Observation

open Function Foundation Foundation.Transition

variable {σ τ : Type}

/-- What lives at an instant has lived before. -/
def Setting.Fading (P : Setting) : Prop :=
  ∀ {made ttl now later}, now ≤ later → P.alive made ttl later = true → P.alive made ttl now = true

/-- A lock granted at an instant with a lifetime. -/
structure Grant where
  made : Int
  ttl : Duration
deriving DecidableEq

/-- The lock's key, and the token of each owner. -/
structure Owners (τ : Type) where
  key : Key
  token : τ → Bytes
  injective : Injective token

/-- A store, the clock, and what each owner was granted and has not released. -/
structure LockWorld (σ τ : Type) where
  state : σ
  now : Int
  grants : τ → Option Grant

/-- The lock calls of the owners, other calls, what the store does on its own, and the clock. -/
inductive LockEvent (τ : Type) where
  | acquire (o : τ) (ttl : Duration)
  | release (o : τ)
  | call (op : Op)
  | tidy
  | tick (d : Nat)

/-- One step. -/
def lockStep [DecidableEq τ] (S : Store σ) (L : Owners τ) (w : LockWorld σ τ) :
    LockEvent τ → Option (LockWorld σ τ)
  | .acquire o ttl =>
    let r := S.exec w.now w.state (.lockAcquire L.key (L.token o) ttl)
    some ⟨r.1, w.now,
      if r.2 = .flag true then update w.grants o (some ⟨w.now, ttl⟩) else w.grants⟩
  | .release o =>
    let r := S.exec w.now w.state (.lockRelease L.key (L.token o))
    some ⟨r.1, w.now, if r.2 = .flag true then update w.grants o none else w.grants⟩
  | .call op => some { w with state := (S.exec w.now w.state op).1 }
  | .tidy => some { w with state := S.tidy w.now w.state }
  | .tick d => some { w with now := w.now + d }

/-- The calls belong to the setting, and other calls leave the lock alone. -/
def LockGuard (P : Setting) (S : Store σ) (L : Owners τ) (w : LockWorld σ τ) : LockEvent τ → Prop
  | .acquire o ttl => P.Admits (S.live w.now w.state) (.lockAcquire L.key (L.token o) ttl)
  | .release o => P.Admits (S.live w.now w.state) (.lockRelease L.key (L.token o))
  | .call op => P.Admits (S.live w.now w.state) op ∧ op.touches L.key = false
  | .tidy => True
  | .tick d => P.times (w.now + d)

/-- The owner's lock lives. -/
def Holds (P : Setting) (w : LockWorld σ τ) (o : τ) : Prop :=
  ∃ g, w.grants o = some g ∧ P.alive g.made g.ttl w.now = true

/-- The store holds the token of every granted lock for as long as it lives. -/
structure Backed (P : Setting) (S : Store σ) (L : Owners τ) (w : LockWorld σ τ) : Prop where
  now : P.times w.now
  valid : S.valid w.state
  token : ∀ o g, w.grants o = some g → ∀ later, P.times later → w.now ≤ later →
    P.alive g.made g.ttl later = true → S.live later w.state L.key = some (L.token o)

variable {P : Setting} {S : Store σ} {L : Owners τ} {w w' : LockWorld σ τ}

/-- The key's value now, when an owner's lock lives now or later. -/
theorem Backed.live_eq (hw : Backed P S L w) (hP : P.Fading) {o : τ} {g : Grant}
    (hg : w.grants o = some g) {later : Int} (hle : w.now ≤ later)
    (halive : P.alive g.made g.ttl later = true) : S.live w.now w.state L.key = some (L.token o) :=
  hw.token o g hg w.now hw.now le_rfl (hP hle halive)

/-- Every step keeps the tokens of living locks in the store. -/
theorem backed_step [DecidableEq τ] (hS : Lawful P S) (hP : P.Fading) {e : LockEvent τ}
    (hw : Backed P S L w) (hG : LockGuard P S L w e)
    (h : lockStep S L w e = some w') : Backed P S L w' := by
  cases e with
  | tick d =>
    cases h
    exact ⟨hG, hw.valid, fun o g hg later hlater hle => hw.token o g hg later hlater
      ((Int.le_add_of_nonneg_right (Int.natCast_nonneg d)).trans hle)⟩
  | tidy =>
    cases h
    refine ⟨hw.now, hS.tidy_valid _ _ hw.valid, ?_⟩
    intro o g hg later hlater hle halive
    rw [hS.tidy_live _ _ hw.now _ _ hlater hle]
    exact hw.token o g hg later hlater hle halive
  | call op =>
    cases h
    have hfollows := hS.follows _ _ _ hw.now hw.valid hG.1
    refine ⟨hw.now, hfollows.valid, ?_⟩
    intro o g hg later hlater hle halive
    rw [hfollows.holds _ _ hlater hle, hG.2]
    exact hw.token o g hg later hlater hle halive
  | acquire o ttl =>
    cases h
    have hfollows := hS.follows _ _ _ hw.now hw.valid hG
    have hanswer := hfollows.answer L.key (Or.inl rfl)
    refine ⟨hw.now, hfollows.valid, ?_⟩
    intro p g hg later hlater hle halive
    dsimp only at hg
    rw [hfollows.holds _ _ hlater hle, Op.touches_of_single rfl, if_pos (decide_eq_true rfl)]
    rw [hanswer] at hg
    cases hlive : S.live w.now w.state L.key with
    | some token =>
      rw [hlive] at hg
      exact hw.token p g hg later hlater hle halive
    | none =>
      have hgranted : (Op.plan (.lockAcquire L.key (L.token o) ttl) none).2 = .flag true := rfl
      rw [hlive, if_pos hgranted] at hg
      by_cases hp : p = o
      · subst hp
        rw [update_self] at hg
        cases hg
        exact if_pos halive
      · rw [update_of_ne hp] at hg
        rw [hw.live_eq hP hg hle halive] at hlive
        cases hlive
  | release o =>
    cases h
    have hfollows := hS.follows _ _ _ hw.now hw.valid hG
    have hanswer := hfollows.answer L.key (Or.inl rfl)
    refine ⟨hw.now, hfollows.valid, ?_⟩
    intro p g hg later hlater hle halive
    dsimp only at hg
    rw [hfollows.holds _ _ hlater hle, Op.touches_of_single rfl, if_pos (decide_eq_true rfl)]
    rw [hanswer] at hg
    by_cases howner : S.live w.now w.state L.key = some (L.token o)
    · have hdropped : (Op.plan (.lockRelease L.key (L.token o)) (S.live w.now w.state L.key)).2 =
          .flag true := by rw [Op.plan, if_pos howner]
      rw [if_pos hdropped] at hg
      -- the token in the store is that of the owner who releases, and of nobody else
      have hp : p ≠ o := by
        rintro rfl
        rw [update_self] at hg
        cases hg
      rw [update_of_ne hp] at hg
      have hother := hw.live_eq hP hg hle halive
      rw [howner] at hother
      exact absurd (L.injective (Option.some.inj hother)).symm hp
    · rw [Op.plan, if_neg howner] at hg ⊢
      exact hw.token p g hg later hlater hle halive

/-- Nobody else holds the owner's lock, nobody is granted it, and nobody else can release it. -/
structure Excludes (P : Setting) (S : Store σ) (L : Owners τ) (w : LockWorld σ τ) (o : τ) :
    Prop where
  holder : ∀ p, Holds P w p → p = o
  refused : ∀ p ttl, LockGuard P S L w (.acquire p ttl) →
    (S.exec w.now w.state (.lockAcquire L.key (L.token p) ttl)).2 = .flag false
  kept : ∀ p, LockGuard P S L w (.release p) → p ≠ o →
    (S.exec w.now w.state (.lockRelease L.key (L.token p))).2 = .flag false

/-- While the lock of an owner lives, it excludes the others. -/
theorem Backed.excludes (hS : Lawful P S) (hw : Backed P S L w) {o : τ} (ho : Holds P w o) :
    Excludes P S L w o := by
  have hlive : ∀ {p}, Holds P w p → S.live w.now w.state L.key = some (L.token p) := by
    rintro p ⟨g, hg, halive⟩
    exact hw.token p g hg w.now hw.now le_rfl halive
  refine ⟨?_, ?_, ?_⟩
  · intro p hp
    exact L.injective (Option.some.inj ((hlive hp).symm.trans (hlive ho)))
  · intro p ttl hG
    rw [(hS.follows _ _ _ hw.now hw.valid hG).answer L.key (Or.inl rfl), hlive ho]
    rfl
  · intro p hG hp
    rw [(hS.follows _ _ _ hw.now hw.valid hG).answer L.key (Or.inl rfl), hlive ho, Op.plan,
      if_neg fun heq => hp (L.injective (Option.some.inj heq)).symm]

end Observation
end GoforjCache
