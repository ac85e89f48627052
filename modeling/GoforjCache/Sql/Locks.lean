import GoforjCache.Foundation.Transition
import GoforjCache.Sql.Store

/-!
# SQL - Lock acquisition and release by statements

`LockAcquire` of the SQL store is an insert and, when the key exists, an update of an expired
row; both use one reading of the clock, made when the call starts.  `LockRelease` is one
conditional deletion.  Any number of owners with distinct tokens send these statements in any
order, and the clock moves forward between any two of them.  A statement may fail without effect,
with any text of its error, and the number of changed rows may be unknown after it had its effect.
The table starts with any content.

Main results:

- Theorem `Inv.effect`: what a statement must find so that unexpired acquisitions keep their
  row.
- Theorem `sql_lock_single_winner`: at most one owner has an unexpired acquisition, and a
  release removes only the row of its own owner.
-/

namespace GoforjCache
namespace Sql
namespace Locks

open Function Foundation Foundation.Transition
open Nats (unixMilli)

/-! ## Calls in flight -/

/-- What a finished call returned. -/
inductive Result where
  | acquired (result : Except CacheError Bool)
  | released (result : Except CacheError Bool)

/-- Program counter of the call of one owner.  An acquisition carries the reading of the clock
from its start. -/
inductive Phase where
  | idle
  /-- The insert is next. -/
  | inserting (nowMs : Int64) (ttl : Duration)
  /-- The key exists; the update of an expired row is next. -/
  | reusing (nowMs : Int64) (ttl : Duration)
  /-- The deletion is next. -/
  | releasing
  | done (result : Result)

/-- An owner can start a call when none of its calls is in flight. -/
def Phase.ready : Phase → Bool
  | idle => true
  | done _ => true
  | _ => false

/-- What is fixed: the store, the key of the lock, and the tokens of the owners. -/
structure Setup (τ : Type) where
  store : Config
  key : Key
  token : τ → Bytes
  token_injective : Injective token

/-- The table, the clock in milliseconds, the call of each owner, and the expiration of the
acquisition that each owner has made and not released. -/
structure World (τ : Type) where
  table : Table
  now : Int64
  phases : τ → Phase
  held : τ → Option Int64

/-- The steps.  `unknown` is the error of `RowsAffected`, if it fails; `fail` is a
statement that fails without effect. -/
inductive Event (τ : Type) where
  | acquire (o : τ) (ttl : Duration)
  | release (o : τ)
  | insert (o : τ)
  | reuse (o : τ) (unknown : Option CacheError)
  | delete (o : τ) (unknown : Option CacheError)
  | fail (o : τ) (err : DriverError)
  | tick (later : Int64)

variable {τ : Type} [DecidableEq τ]

/-- The key of the lock in the table. -/
def Setup.fullKey (S : Setup τ) : Key := cacheKey S.store S.key

/-- The row that an acquisition writes. -/
def Setup.row (S : Setup τ) (o : τ) (nowMs : Int64) (ttl : Duration) : Row :=
  ⟨S.token o, addExpiry S.store nowMs ttl⟩

/-- What `RowsAffected` makes of the number of changed rows. -/
def rowsResult (rows : Nat) : Option CacheError → Except CacheError Bool
  | some err => .error err
  | none => .ok (decide (0 < rows))

/-- Where an acquisition goes after an error of its insert. -/
def Setup.afterInsert (S : Setup τ) (err : DriverError) (nowMs : Int64) (ttl : Duration) : Phase :=
  if isDuplicateErr err.message S.store.driverName then .reusing nowMs ttl
  else .done (.acquired (.error err.passed))

/-- Move one owner to a new program counter. -/
def World.put (w : World τ) (o : τ) (p : Phase) : World τ :=
  { w with phases := update w.phases o p }

/-- The last statement of a call had its effect. -/
def World.effect (w : World τ) (o : τ) (table : Table) (grant : Option Int64) (result : Result) :
    World τ :=
  { w with
    table := table
    phases := update w.phases o (.done result)
    held := update w.held o grant }

@[simp]
theorem World.effect_held (w : World τ) (o : τ) (t : Table) (grant : Option Int64)
    (result : Result) : (w.effect o t grant result).held o = grant := by
  simp only [World.effect, update_self]

/-- One step. -/
def step (S : Setup τ) (w : World τ) : Event τ → Option (World τ)
  | .acquire o ttl =>
    if (w.phases o).ready then some (w.put o (.inserting w.now ttl)) else none
  | .release o => if (w.phases o).ready then some (w.put o .releasing) else none
  | .insert o =>
    match w.phases o with
    | .inserting nowMs ttl =>
      match insertRow S.store w.table S.fullKey (S.row o nowMs ttl) with
      | .ok t => some (w.effect o t (some (S.row o nowMs ttl).ea) (.acquired (.ok true)))
      | .error err => some (w.put o (S.afterInsert err nowMs ttl))
    | _ => none
  | .reuse o unknown =>
    match w.phases o with
    | .reusing nowMs ttl =>
      match reuseExpiredRow S.store w.table S.fullKey (S.row o nowMs ttl) nowMs with
      | .ok (t, rows) =>
        let grant :=
          if 0 < rows ∧ unknown = none then some (S.row o nowMs ttl).ea else w.held o
        some (w.effect o t grant (.acquired (rowsResult rows unknown)))
      | .error err => some (w.put o (.done (.acquired (.error err.passed))))
    | _ => none
  | .delete o unknown =>
    match w.phases o with
    | .releasing =>
      match deleteOwnedRow S.store w.table S.fullKey (S.token o) with
      | .ok (t, rows) =>
        let grant := if 0 < rows then none else w.held o
        some (w.effect o t grant (.released (rowsResult rows unknown)))
      | .error err => some (w.put o (.done (.released (.error err.passed))))
    | _ => none
  | .fail o err =>
    match w.phases o with
    | .inserting nowMs ttl => some (w.put o (S.afterInsert err nowMs ttl))
    | .reusing _ _ => some (w.put o (.done (.acquired (.error err.passed))))
    | .releasing => some (w.put o (.done (.released (.error err.passed))))
    | _ => none
  | .tick later => if w.now ≤ later then some { w with now := later } else none

/-- No call is in flight and nothing was acquired; the table may hold anything. -/
structure World.Initial (w : World τ) : Prop where
  idle : ∀ o, w.phases o = .idle
  free : ∀ o, w.held o = none

/-- The owner has an acquisition that was not released and whose expiration is not below the
clock. -/
def Holding (w : World τ) (o : τ) : Prop := ∃ ea, w.held o = some ea ∧ w.now ≤ ea

/-! ## The invariant -/

/-- What holds of a call at its program counter: its reading of the clock is not ahead, and an
acquisition that returned true is recorded. -/
def PhaseOk (w : World τ) (o : τ) : Phase → Prop
  | .inserting nowMs _ => nowMs ≤ w.now
  | .reusing nowMs _ => nowMs ≤ w.now
  | .done (.acquired (.ok true)) => ∃ ea, w.held o = some ea
  | _ => True

/-- The invariant: the row of the key is that of any acquisition that has not expired. -/
structure Inv (S : Setup τ) (w : World τ) : Prop where
  current : ∀ o ea, w.held o = some ea → w.now ≤ ea → w.table S.fullKey = some ⟨S.token o, ea⟩
  phases : ∀ o, PhaseOk w o (w.phases o)

omit [DecidableEq τ] in
/-- The invariant holds initially. -/
theorem World.Initial.inv {w : World τ} (h : w.Initial) (S : Setup τ) : Inv S w where
  current := by
    intro o ea hheld
    rw [h.free o] at hheld
    cases hheld
  phases := by
    intro o
    rw [h.idle o]
    trivial

section Steps

variable {S : Setup τ} {w : World τ} {o : τ}

/-- A step that only moves one call keeps the invariant. -/
theorem Inv.put (hw : Inv S w) {p : Phase} (hp : PhaseOk w o p) : Inv S (w.put o p) where
  current := hw.current
  phases := (forall_update_iff w.phases (PhaseOk w)).mpr ⟨hp, fun q _ => hw.phases q⟩

omit [DecidableEq τ] in
/-- The unexpired acquisition of an owner has a row that no other owner's statement can take: there
is none to insert over, and none that has expired. -/
theorem Inv.no_holder (hw : Inv S w) (hfree : ∀ row, w.table S.fullKey = some row → row.ea < w.now)
    {p : τ} {ea : Int64} (hheld : w.held p = some ea) : ea < w.now := by
  rw [← Int64.not_le]
  intro hlive
  exact absurd (hfree _ (hw.current p ea hheld hlive)) (Int64.not_lt.mpr hlive)

/-- The last statement of a call keeps the invariant when the other owners have no unexpired
acquisition or the row stays, and the owner's own acquisition is the row of the key. -/
theorem Inv.effect (hw : Inv S w) {t : Table} {grant : Option Int64} {result : Result}
    (hothers : ∀ p ea, p ≠ o → w.held p = some ea → w.now ≤ ea → t S.fullKey = some ⟨S.token p, ea⟩)
    (hgrant : ∀ ea, grant = some ea → w.now ≤ ea → t S.fullKey = some ⟨S.token o, ea⟩)
    (hresult : result = .acquired (.ok true) → ∃ ea, grant = some ea) :
    Inv S (w.effect o t grant result) := by
  constructor
  · refine (forall_update_iff w.held fun p g => ∀ ea, g = some ea → w.now ≤ ea →
      t S.fullKey = some ⟨S.token p, ea⟩).mpr ⟨hgrant, ?_⟩
    intro p hp ea hheld hlive
    exact hothers p ea hp hheld hlive
  · refine (forall_update_iff w.phases (PhaseOk (w.effect o t grant result))).mpr ⟨?_, ?_⟩
    · unfold PhaseOk
      split
      · trivial
      · trivial
      · rename_i hdone
        rcases hresult (Phase.done.inj hdone) with ⟨ea, hea⟩
        exact ⟨ea, (World.effect_held w o t grant result).trans hea⟩
      · trivial
    · intro p hp
      have hok := hw.phases p
      unfold PhaseOk at hok ⊢
      split at hok
      · exact hok
      · exact hok
      · rw [World.effect]
        dsimp only
        rwa [update_of_ne hp]
      · trivial

omit [DecidableEq τ] in
/-- An acquisition whose insert failed still has its reading of the clock. -/
theorem phaseOk_afterInsert {err : DriverError} {nowMs : Int64} {ttl : Duration}
    (hnow : nowMs ≤ w.now) : PhaseOk w o (S.afterInsert err nowMs ttl) := by
  unfold Setup.afterInsert
  split
  · exact hnow
  · trivial

variable {w' : World τ} {e : Event τ}

/-- An insert keeps the invariant. -/
theorem Inv.insert (hw : Inv S w) (h : step S w (.insert o) = some w') : Inv S w' := by
  have hok := hw.phases o
  simp only [step] at h
  split at h
  · rename_i nowMs ttl hphase
    rw [hphase] at hok
    split at h
    · rename_i t hinsert
      rcases insertRow_eq_ok hinsert with ⟨hnone, rfl⟩
      cases h
      apply hw.effect
      · -- an unexpired acquisition would have a row
        intro p ea _ hheld hlive
        have hrow := hw.current p ea hheld hlive
        rw [hnone] at hrow
        cases hrow
      · rintro ea ⟨⟩ _
        exact update_self _ _ _
      · exact fun _ => ⟨_, rfl⟩
    · cases h
      exact hw.put (phaseOk_afterInsert hok)
  · cases h

/-- The update of an expired row keeps the invariant. -/
theorem Inv.reuse {unknown : Option CacheError} (hw : Inv S w)
    (h : step S w (.reuse o unknown) = some w') : Inv S w' := by
  have hok := hw.phases o
  simp only [step] at h
  split at h
  · rename_i nowMs ttl hphase
    rw [hphase] at hok
    split at h
    · rename_i t rows hreuse
      cases h
      rcases reuseExpiredRow_eq_ok hreuse with ⟨rfl, rfl⟩ | ⟨rfl, rfl, old, hold, hexpired⟩
      · apply hw.effect
        · exact fun p ea _ => hw.current p ea
        · exact hw.current o
        · cases unknown <;> intro hresult <;> cases hresult
      · -- the row had expired when the call read the clock, so it has expired now
        have hfree : ∀ row, w.table S.fullKey = some row → row.ea < w.now := by
          intro row hrow
          rw [hold] at hrow
          rcases Option.some.inj hrow with rfl
          exact Int64.lt_of_lt_of_le hexpired hok
        apply hw.effect
        · intro p ea _ hheld hlive
          exact absurd (hw.no_holder hfree hheld) (Int64.not_lt.mpr hlive)
        · intro ea hgrant hlive
          split at hgrant
          · rcases Option.some.inj hgrant with rfl
            exact update_self _ _ _
          · exact absurd (hw.no_holder hfree hgrant) (Int64.not_lt.mpr hlive)
        · intro hresult
          cases unknown with
          | none => exact ⟨_, rfl⟩
          | some err => cases hresult
    · cases h
      exact hw.put trivial
  · cases h

/-- The deletion of a release keeps the invariant: the row of another owner carries another
token. -/
theorem Inv.delete {unknown : Option CacheError} (hw : Inv S w)
    (h : step S w (.delete o unknown) = some w') : Inv S w' := by
  simp only [step] at h
  split at h
  · split at h
    · rename_i t rows hdelete
      cases h
      rcases deleteOwnedRow_eq_ok hdelete with ⟨rfl, rfl⟩ | ⟨rfl, rfl, row, hrow, howner⟩
      · apply hw.effect
        · exact fun p ea _ => hw.current p ea
        · exact hw.current o
        · exact fun hresult => Result.noConfusion hresult
      · apply hw.effect
        · intro p ea hp hheld hlive
          have hcurrent := hw.current p ea hheld hlive
          rw [hrow] at hcurrent
          rw [Option.some.inj hcurrent] at howner
          exact absurd (S.token_injective howner) hp
        · exact fun ea hgrant => by cases hgrant
        · exact fun hresult => Result.noConfusion hresult
    · cases h
      exact hw.put trivial
  · cases h

/-- Every step keeps the invariant. -/
theorem inv_step (hw : Inv S w) (h : step S w e = some w') : Inv S w' := by
  cases e with
  | acquire o ttl =>
    simp only [step, Option.ite_none_right_eq_some, Option.some.injEq] at h
    rcases h with ⟨-, rfl⟩
    exact hw.put (p := .inserting w.now ttl) (Int64.le_refl w.now)
  | release o =>
    simp only [step, Option.ite_none_right_eq_some, Option.some.injEq] at h
    rcases h with ⟨-, rfl⟩
    exact hw.put trivial
  | insert o => exact hw.insert h
  | reuse o unknown => exact hw.reuse h
  | delete o unknown => exact hw.delete h
  | fail o err =>
    have hok := hw.phases o
    simp only [step] at h
    split at h
    · rename_i hphase
      rw [hphase] at hok
      cases h
      exact hw.put (phaseOk_afterInsert hok)
    · cases h
      exact hw.put trivial
    · cases h
      exact hw.put trivial
    · cases h
  | tick later =>
    simp only [step, Option.ite_none_right_eq_some, Option.some.injEq] at h
    rcases h with ⟨hlater, rfl⟩
    constructor
    · intro o ea hheld hlive
      exact hw.current o ea hheld (Int64.le_trans hlater hlive)
    · intro o
      have hok := hw.phases o
      unfold PhaseOk at hok ⊢
      dsimp only
      split at hok
      · exact Int64.le_trans hok hlater
      · exact Int64.le_trans hok hlater
      · exact hok
      · trivial

omit [DecidableEq τ] in
/-- Two owners with unexpired acquisitions are one: both are the row of the key. -/
theorem Inv.holding_unique (hw : Inv S w) {o p : τ} (ho : Holding w o) (hp : Holding w p) :
    o = p := by
  rcases ho with ⟨ea, hea, hlive⟩
  rcases hp with ⟨ea', hea', hlive'⟩
  have hrow := hw.current o ea hea hlive
  rw [hw.current p ea' hea' hlive'] at hrow
  exact (S.token_injective (Row.mk.inj (Option.some.inj hrow)).1).symm

/-- What a step does to the table: nothing, a write of the key, or a deletion of the owner's own
row. -/
theorem step_table (h : step S w e = some w') :
    w'.table = w.table ∨ (∃ row, w'.table = update w.table S.fullKey (some row)) ∨
      ∃ o unknown row, e = .delete o unknown ∧ w.table S.fullKey = some row ∧
        row.v = S.token o ∧ w'.table = update w.table S.fullKey none := by
  cases e with
  | acquire o ttl | release o =>
    simp only [step, Option.ite_none_right_eq_some, Option.some.injEq] at h
    rcases h with ⟨-, rfl⟩
    exact Or.inl rfl
  | insert o =>
    simp only [step] at h
    split at h
    · split at h <;> cases h
      · rename_i hinsert
        exact Or.inr (Or.inl ⟨_, (insertRow_eq_ok hinsert).2⟩)
      · exact Or.inl rfl
    · cases h
  | reuse o unknown =>
    simp only [step] at h
    split at h
    · split at h <;> cases h
      · rename_i hreuse
        rcases reuseExpiredRow_eq_ok hreuse with ⟨-, htable⟩ | ⟨-, htable, -⟩
        · exact Or.inl htable
        · exact Or.inr (Or.inl ⟨_, htable⟩)
      · exact Or.inl rfl
    · cases h
  | delete o unknown =>
    simp only [step] at h
    split at h
    · split at h <;> cases h
      · rename_i hdelete
        rcases deleteOwnedRow_eq_ok hdelete with ⟨-, htable⟩ | ⟨-, htable, row, hrow, howner⟩
        · exact Or.inl htable
        · exact Or.inr (Or.inr ⟨o, unknown, row, rfl, hrow, howner, htable⟩)
      · exact Or.inl rfl
    · cases h
  | fail o err =>
    simp only [step] at h
    split at h <;> cases h <;> exact Or.inl rfl
  | tick later =>
    simp only [step, Option.ite_none_right_eq_some, Option.some.injEq] at h
    rcases h with ⟨-, rfl⟩
    exact Or.inl rfl

/-- A step that removes a row is the deletion of a release by the owner that the row carries. -/
theorem step_removes (h : step S w e = some w') {k : Key} {row : Row}
    (hbefore : w.table k = some row) (hafter : w'.table k = none) :
    k = S.fullKey ∧ ∃ o unknown, e = .delete o unknown ∧ row.v = S.token o := by
  have hupdate : ∀ r, w'.table = update w.table S.fullKey r → k = S.fullKey ∧ r = none := by
    intro r htable
    rw [htable] at hafter
    by_cases hk : k = S.fullKey
    · subst hk
      rw [update_self] at hafter
      exact ⟨rfl, hafter⟩
    · rw [update_of_ne hk, hbefore] at hafter
      cases hafter
  rcases step_table h with htable | ⟨new, htable⟩ | ⟨o, unknown, old, he, hold, howner, htable⟩
  · rw [htable, hbefore] at hafter
    cases hafter
  · cases (hupdate (some new) htable).2
  · have hk := (hupdate none htable).1
    rw [hk, hold] at hbefore
    rw [← Option.some.inj hbefore]
    exact ⟨hk, o, unknown, he, howner⟩

end Steps

/--
A single winner.  In every state that owners with distinct tokens reach by any interleaving of the
statements of `LockAcquire` and `LockRelease`, from any content of the table and on a
clock that moves forward:

- at most one owner has an acquisition that returned true, was not released, and whose recorded
  expiration is not below the clock;
- an owner whose last call was an acquisition that returned true has such a record;
- a step that removes any row of the table is the deletion of a `LockRelease` by the owner
  that the row carries, and by no other.
-/
theorem sql_lock_single_winner {S : Setup τ} {w : World τ}
    (h : Reachable World.Initial (step S) w) :
    (∀ o p, Holding w o → Holding w p → o = p) ∧
    (∀ o, w.phases o = .done (.acquired (.ok true)) → ∃ ea, w.held o = some ea) ∧
    (∀ e w' k row, step S w e = some w' → w.table k = some row → w'.table k = none →
      ∃ o unknown, e = .delete o unknown ∧ row.v = S.token o ∧ ∀ p, p ≠ o → row.v ≠ S.token p) := by
  have hw : Inv S w :=
    reachable_invariant (fun w hinit => hinit.inv S) (fun w e w' hw h => inv_step hw h) h
  refine ⟨fun o p ho hp => hw.holding_unique ho hp, ?_, ?_⟩
  · intro o hphase
    have hok := hw.phases o
    rw [hphase] at hok
    exact hok
  · intro e w' k row hstep hbefore hafter
    rcases step_removes hstep hbefore hafter with ⟨-, o, unknown, he, howner⟩
    refine ⟨o, unknown, he, howner, ?_⟩
    intro p hp hother
    exact hp (S.token_injective (hother.symm.trans howner))

/-! ## A run with a takeover -/

/-- The tokens of two owners. -/
def sampleToken (o : Bool) : Bytes := if o then ascii "b" else ascii "a"

theorem sampleToken_injective : Injective sampleToken := by decide

/-- Two owners on a SQLite table. -/
def sampleSetup : Setup Bool where
  store := .sqlite (ascii "app")
  key := ascii "job"
  token := sampleToken
  token_injective := sampleToken_injective

/-- An empty table. -/
def freshWorld : World Bool := ⟨fun _ => none, 0, fun _ => .idle, fun _ => none⟩

/-- The first owner acquires for 50 milliseconds.  The second one reads the clock 60 milliseconds
later, finds the key taken, and reuses the expired row; the first one tries to release. -/
def takeover : List (Event Bool) :=
  [.acquire false 50000000, .insert false, .tick 60, .acquire true 50000000, .insert true,
    .release false, .reuse true none, .delete false none]

/-- The table after that run. -/
def takenOver : World Bool := (run (step sampleSetup) freshWorld takeover).getD freshWorld

/-- After a takeover the second owner alone holds the lock, and its row is there. -/
theorem sql_lock_single_winner_takeover :
    run (step sampleSetup) freshWorld takeover = some takenOver ∧
    takenOver.table sampleSetup.fullKey = some ⟨ascii "b", 110⟩ ∧
    Holding takenOver true ∧
    (∀ o p, Holding takenOver o → Holding takenOver p → o = p) := by
  have hrun : run (step sampleSetup) freshWorld takeover = some takenOver := rfl
  have hreachable : Reachable World.Initial (step sampleSetup) takenOver :=
    ⟨freshWorld, takeover, ⟨fun _ => rfl, fun _ => rfl⟩, hrun⟩
  refine ⟨hrun, by decide +kernel, ?_, (sql_lock_single_winner hreachable).1⟩
  exact ⟨110, by decide +kernel, by decide⟩

end Locks
end Sql
end GoforjCache
