import GoforjCache.Drivers.CounterLog
import GoforjCache.Foundation.Transition
import GoforjCache.Sql.Store

/-!
# SQL - Counters in Postgres transactions

`Increment` and `Decrement` of the SQL store are transactions: a `SELECT` with
`FOR UPDATE`, a look at the clock, an upsert of the computed number, and the commit.  Under
`READ COMMITTED` the first statement sees the committed row and locks it, and locks nothing
when there is no row; the upsert waits for a transaction that has locked or written the key, and
then overwrites whatever is there.  Any number of calls on one key send these statements in any
order; the clock moves between any two of them, and a statement may fail, which rolls the
transaction back.

Main results:

- Theorem `Inv.upsert`: what a call that overwrites the key knows of its number.
- Theorem `postgres_counter_sums`: when a call that found no row still finds none at its
  upsert, the stored number is the start value plus all deltas.
- Theorem `first_increments_lose_update`: otherwise the first calls on a key can overwrite
  each other.
- Theorem `row_counter_sums`: on a key with a row no update is lost; there the row lock alone
  orders the calls.
-/

namespace GoforjCache
namespace Sql
namespace Counters

open Function Foundation Foundation.Transition Foundation.Decimal
open CounterLog Nats.Counters

/-! ## Transactions in flight -/

/-- Program counter of one call. -/
inductive Phase where
  | idle
  /-- The `SELECT` is next. -/
  | selecting
  /-- The row was read and locked, or there is none; the look at the clock is next. -/
  | inspecting (found : Option Row)
  /-- The current number is known, and whether a row was found. -/
  | counted (found : Bool) (current : Int64)
  /-- The upsert is next. -/
  | upserting (found : Bool) (next : Int64) (row : Row)
  /-- The commit is next. -/
  | committing (next : Int64)
  /-- The deferred rollback is next. -/
  | failing (err : CacheError)
  | done (result : Except CacheError Int64)

/-- What is fixed: the store, the key, and the operation of each call. -/
structure Setup (τ : Type) where
  store : Config
  key : Key
  op : τ → CounterOp

/-- The committed row of the key, the transaction that has locked or written it, what that
transaction has written, the clock, one call per slot, and the commits so far. -/
structure World (τ : Type) where
  committed : Option Row
  holder : Option τ
  pending : Option Row
  now : Instant
  phases : τ → Phase
  log : List (Applied τ)

/-- The steps. -/
inductive Event (τ : Type) where
  | call (o : τ)
  | select (o : τ)
  | inspect (o : τ)
  | encode (o : τ)
  | upsert (o : τ)
  | commit (o : τ)
  | fail (o : τ) (err : CacheError)
  | rollback (o : τ)
  | tick (d : Nat)

variable {τ : Type} [DecidableEq τ]

/-- No other transaction has locked or written the key. -/
def World.free (w : World τ) (o : τ) : Bool := decide (w.holder = none ∨ w.holder = some o)

/-- Move one call to a new program counter. -/
def World.put (w : World τ) (o : τ) (p : Phase) : World τ :=
  { w with phases := update w.phases o p }

/-- The transaction of a call ends with the given committed row. -/
def World.ended (w : World τ) (o : τ) (committed : Option Row)
    (result : Except CacheError Int64) (log : List (Applied τ)) : World τ :=
  { w with
    committed := committed
    holder := none
    pending := none
    phases := update w.phases o (.done result)
    log := log }

/-- One step.  A statement that has to wait is not enabled. -/
def step (S : Setup τ) (w : World τ) : Event τ → Option (World τ)
  | .call o =>
    match w.phases o with
    | .idle => some (w.put o .selecting)
    | _ => none
  | .select o =>
    match w.phases o with
    | .selecting =>
      match w.committed with
      -- there is no row to lock, and rows that are not committed are not seen
      | none => some (w.put o (.inspecting none))
      | some row =>
        if w.free o then
          some { w with
            holder := some o
            phases := update w.phases o (.inspecting (some row)) }
        else none
    | _ => none
  | .inspect o =>
    match w.phases o with
    | .inspecting found =>
      match currentNumber w.now S.key found with
      | .error err => some (w.put o (.failing err))
      | .ok current => some (w.put o (.counted found.isSome current))
    | _ => none
  | .encode o =>
    match w.phases o with
    | .counted found current =>
      let next := current + (S.op o).applied
      some (w.put o (.upserting found next
        ⟨formatInt next, setExpiry S.store w.now (S.op o).ttl⟩))
    | _ => none
  | .upsert o =>
    match w.phases o with
    | .upserting _ next row =>
      if w.free o then
        some { w with
          holder := some o
          pending := some row
          phases := update w.phases o (.committing next) }
      else none
    | _ => none
  | .commit o =>
    match w.phases o with
    | .committing next => some (w.ended o w.pending (.ok next) (w.log ++ [⟨o, S.op o, next⟩]))
    | _ => none
  | .fail o err =>
    match w.phases o with
    | .selecting | .upserting _ _ _ | .committing _ => some (w.put o (.failing err))
    | _ => none
  | .rollback o =>
    match w.phases o with
    | .failing err =>
      if w.holder = some o then some (w.ended o w.committed (.error err) w.log)
      else some (w.put o (.done (.error err)))
    | _ => none
  | .tick d => some { w with now := w.now + d }

/-- No call has been made and no transaction is open. -/
structure World.Initial (w : World τ) : Prop where
  idle : ∀ o, w.phases o = .idle
  holder : w.holder = none
  log : w.log = []

/-- The number the key starts with: zero without a row and for an expired one. -/
def startValue (S : Setup τ) (w : World τ) : Option Int64 :=
  (currentNumber w.now S.key w.committed).toOption

/-- The number in the committed row of the key, whether or not it has expired. -/
def storedNumber (w : World τ) : Option Int64 := w.committed.bind fun row => parseInt row.v

/-- The side condition of a step, for runs from `start`.  No lifetime ends during the run: a
row looks expired only if it is the one at the start and looked so then.  And a call that found no
row finds none at its upsert. -/
def Sound (start w : World τ) : Event τ → Prop
  | .inspect o =>
    match w.phases o with
    | .inspecting (some row) =>
      row.expired w.now = true ↔ w.log = [] ∧ row.expired start.now = true
    | _ => True
  | .upsert o =>
    match w.phases o with
    | .upserting false _ _ => w.committed = none
    | _ => True
  | _ => True

instance (start w : World τ) : DecidablePred (Sound start w) := by
  intro e
  cases e with
  | inspect o =>
    dsimp only [Sound]
    split <;> infer_instance
  | upsert o =>
    dsimp only [Sound]
    split <;> infer_instance
  | call | select | encode | commit | fail | rollback | tick => exact .isTrue trivial

/-! ## The invariant -/

/-- The number that a call has returned. -/
def Phase.returned : Phase → Option Int64
  | done (.ok n) => some n
  | _ => none

/-- What a call knows of its number: the total so far if it has locked a row, and zero if it found
none. -/
def Known (n : Int64) (w : World τ) (o : τ) (found : Bool) (current : Int64) : Prop :=
  if found then w.holder = some o ∧ current = total n w.log else current = 0

/-- What holds of a call at its program counter. -/
def PhaseOk (S : Setup τ) (n : Int64) (w : World τ) (o : τ) : Phase → Prop
  | .inspecting (some row) => w.holder = some o ∧ w.committed = some row
  | .counted found current => Known n w o found current
  | .upserting found next row =>
    ∃ current ea, Known n w o found current ∧ next = current + (S.op o).applied ∧
      row = ⟨formatInt next, ea⟩
  | .committing next =>
    w.holder = some o ∧ next = total n w.log + (S.op o).applied ∧
      ∃ ea, w.pending = some ⟨formatInt next, ea⟩
  | _ => True

/-- The invariant of runs from `start` with start value `n`: before the first commit the
row is as it was, and afterwards it carries the total so far. -/
structure Inv (S : Setup τ) (start : World τ) (n : Int64) (w : World τ) : Prop where
  original : w.log = [] → w.committed = start.committed
  written : w.log ≠ [] → ∃ ea, w.committed = some ⟨formatInt (total n w.log), ea⟩
  tally : Tally S.op n w.log fun o => (w.phases o).returned
  phases : ∀ o, PhaseOk S n w o (w.phases o)

omit [DecidableEq τ] in
/-- The invariant holds initially. -/
theorem World.Initial.inv {start : World τ} (h : start.Initial) (S : Setup τ) (n : Int64) :
    Inv S start n start where
  original := fun _ => rfl
  written := fun hne => absurd h.log hne
  tally := by
    rw [h.log]
    apply Tally.nil
    intro o
    rw [h.idle o]
    rfl
  phases := by
    intro o
    rw [h.idle o]
    trivial

section Steps

variable {S : Setup τ} {start w : World τ} {n : Int64} {o : τ} {p : Phase} {w' : World τ}

/-- A step that only moves one call, to no result, keeps the invariant. -/
theorem Inv.put (hw : Inv S start n w) (hbefore : (w.phases o).returned = none)
    (hafter : p.returned = none) (hp : PhaseOk S n w o p) : Inv S start n (w.put o p) where
  original := hw.original
  written := hw.written
  tally := hw.tally.put hbefore hafter
  phases := (forall_update_iff w.phases (PhaseOk S n w)).mpr
    ⟨hp, fun q _ => hw.phases q⟩

omit [DecidableEq τ] in
/-- A call that has locked nothing knows nothing that another call could change. -/
theorem PhaseOk.of_not_holder (h : PhaseOk S n w o p) (hholder : w.holder ≠ some o) :
    PhaseOk S n w' o p := by
  have hknown : ∀ {found current}, Known n w o found current → Known n w' o found current := by
    intro found current hk
    cases found with
    | false => exact hk
    | true => exact absurd hk.1 hholder
  unfold PhaseOk at h ⊢
  split at h
  · exact absurd h.1 hholder
  · exact hknown h
  · rcases h with ⟨current, ea, hk, hnext, hrow⟩
    exact ⟨current, ea, hknown hk, hnext, hrow⟩
  · exact absurd h.1 hholder
  · trivial

/-- While the key is free for one call, no other call holds it. -/
theorem holder_ne_of_free (hfree : w.free o = true) {q : τ} (hq : q ≠ o) : w.holder ≠ some q := by
  rcases of_decide_eq_true hfree with hnone | hself
  · rw [hnone]
    exact (Option.some_ne_none q).symm
  · rw [hself]
    exact fun h => hq (Option.some.inj h).symm

/-- A statement that takes the key, when it is free, keeps the invariant. -/
theorem Inv.take (hw : Inv S start n w) {pending : Option Row} (hfree : w.free o = true)
    (hbefore : (w.phases o).returned = none) (hafter : p.returned = none)
    (hp : PhaseOk S n { w with holder := some o, pending := pending } o p) :
    Inv S start n
      { w with holder := some o, pending := pending, phases := update w.phases o p } where
  original := hw.original
  written := hw.written
  tally := hw.tally.put hbefore hafter
  phases := (forall_update_iff w.phases (PhaseOk S n _)).mpr
    ⟨hp, fun q hq => (hw.phases q).of_not_holder (holder_ne_of_free hfree hq)⟩

omit [DecidableEq τ] in
/-- The number that a call reads from the row it has locked is the total so far. -/
theorem Inv.currentNumber_eq (hw : Inv S start n w) (hn : startValue S start = some n) {row : Row}
    (hrow : w.committed = some row)
    (hsound : row.expired w.now = true ↔ w.log = [] ∧ row.expired start.now = true)
    {current : Int64} (hcurrent : currentNumber w.now S.key (some row) = .ok current) :
    current = total n w.log := by
  by_cases hlog : w.log = []
  · -- the row at the start, which looked the same then
    have hstart : start.committed = some row := (hw.original hlog).symm.trans hrow
    have hlook : row.expired w.now = row.expired start.now := by
      rw [Bool.eq_iff_iff, hsound]
      exact ⟨And.right, fun h => ⟨hlog, h⟩⟩
    have hsame :
        currentNumber w.now S.key (some row) = currentNumber start.now S.key (some row) := by
      rw [currentNumber, currentNumber, hlook]
    rw [startValue, hstart, ← hsame, hcurrent] at hn
    rw [hlog, total_nil]
    exact Option.some.inj hn
  · rcases hw.written hlog with ⟨ea, hwritten⟩
    have hlive : row.expired w.now = false := by
      rw [Bool.eq_false_iff]
      exact fun hexpired => hlog (hsound.mp hexpired).1
    rw [hrow] at hwritten
    rw [currentNumber, hlive, Option.some.inj hwritten] at hcurrent
    simp only [parseInt_formatInt, Bool.false_eq_true, if_false] at hcurrent
    exact (Except.ok.inj hcurrent).symm

/-- A look at the clock keeps the invariant. -/
theorem Inv.inspect (hn : startValue S start = some n) (hw : Inv S start n w)
    (hsound : Sound start w (.inspect o)) (h : step S w (.inspect o) = some w') :
    Inv S start n w' := by
  have hok := hw.phases o
  simp only [step] at h
  split at h
  · rename_i found hphase
    have hbefore : (w.phases o).returned = none := by rw [hphase]; rfl
    rw [hphase] at hok
    split at h <;> cases h
    · exact hw.put hbefore rfl trivial
    · rename_i current hcurrent
      apply hw.put hbefore rfl
      cases found with
      | none => exact (Except.ok.inj hcurrent).symm
      | some row =>
        simp only [Sound, hphase] at hsound
        exact ⟨hok.1, hw.currentNumber_eq hn hok.2 hsound hcurrent⟩
  · cases h

/-- An upsert keeps the invariant when a call that found no row still finds none. -/
theorem Inv.upsert (hn : startValue S start = some n) (hw : Inv S start n w)
    (hsound : Sound start w (.upsert o)) (h : step S w (.upsert o) = some w') :
    Inv S start n w' := by
  have hok := hw.phases o
  simp only [step] at h
  split at h
  · rename_i found next row hphase
    have hbefore : (w.phases o).returned = none := by rw [hphase]; rfl
    rw [hphase] at hok
    rcases hok with ⟨current, ea, hknown, hnext, hrow⟩
    simp only [Option.ite_none_right_eq_some, Option.some.injEq] at h
    rcases h with ⟨hfree, rfl⟩
    have hcurrent : current = total n w.log := by
      cases found with
      | true => exact hknown.2
      | false =>
        -- without a row nothing has been committed, and the key started without one
        simp only [Sound, hphase] at hsound
        have hlog : w.log = [] := by
          by_contra hlog
          rcases hw.written hlog with ⟨ea', hwritten⟩
          rw [hsound] at hwritten
          cases hwritten
        rw [startValue, ← hw.original hlog, hsound] at hn
        rw [hlog, total_nil, hknown]
        exact Option.some.inj hn
    refine hw.take hfree hbefore rfl ⟨rfl, ?_, ea, ?_⟩
    · rw [hnext, hcurrent]
    · rw [hrow]
  · cases h

/-- A commit keeps the invariant. -/
theorem Inv.commit (hw : Inv S start n w) (h : step S w (.commit o) = some w') :
    Inv S start n w' := by
  have hok := hw.phases o
  simp only [step] at h
  split at h
  · rename_i next hphase
    have hbefore : (w.phases o).returned = none := by rw [hphase]; rfl
    rw [hphase] at hok
    rcases hok with ⟨hholder, hnext, ea, hpending⟩
    have htotal : next = total n (w.log ++ [⟨o, S.op o, next⟩]) := by rw [total_concat, hnext]
    cases h
    constructor
    · intro hnil
      exact absurd hnil (List.append_ne_nil_of_right_ne_nil _ (List.cons_ne_nil _ _))
    · intro _
      refine ⟨ea, ?_⟩
      rw [World.ended, ← htotal]
      exact hpending
    · exact hw.tally.wrote hbefore rfl hnext
    · refine (forall_update_iff w.phases (PhaseOk S n _)).mpr ⟨trivial, ?_⟩
      intro q hq
      apply (hw.phases q).of_not_holder
      rw [hholder]
      exact fun heq => hq (Option.some.inj heq).symm
  · cases h

/-- A rollback keeps the invariant. -/
theorem Inv.rollback (hw : Inv S start n w) (h : step S w (.rollback o) = some w') :
    Inv S start n w' := by
  simp only [step] at h
  split at h
  · rename_i err hphase
    have hbefore : (w.phases o).returned = none := by rw [hphase]; rfl
    split at h <;> cases h
    · rename_i hholder
      refine ⟨hw.original, hw.written, hw.tally.put hbefore rfl, ?_⟩
      refine (forall_update_iff w.phases (PhaseOk S n _)).mpr ⟨trivial, ?_⟩
      intro q hq
      apply (hw.phases q).of_not_holder
      rw [hholder]
      exact fun heq => hq (Option.some.inj heq).symm
    · exact hw.put hbefore rfl trivial
  · cases h

/-- Every step that meets the side condition keeps the invariant. -/
theorem inv_step {e : Event τ} (hn : startValue S start = some n) (hw : Inv S start n w)
    (hsound : Sound start w e) (h : step S w e = some w') : Inv S start n w' := by
  cases e with
  | call o =>
    simp only [step] at h
    split at h
    · rename_i hphase
      cases h
      exact hw.put (by rw [hphase]; rfl) rfl trivial
    · cases h
  | select o =>
    simp only [step] at h
    split at h
    · rename_i hphase
      have hbefore : (w.phases o).returned = none := by rw [hphase]; rfl
      split at h
      · cases h
        exact hw.put hbefore rfl trivial
      · rename_i row hrow
        simp only [Option.ite_none_right_eq_some, Option.some.injEq] at h
        rcases h with ⟨hfree, rfl⟩
        exact hw.take hfree hbefore rfl ⟨rfl, hrow⟩
    · cases h
  | inspect o => exact hw.inspect hn hsound h
  | encode o =>
    have hok := hw.phases o
    simp only [step] at h
    split at h
    · rename_i hphase
      rw [hphase] at hok
      cases h
      exact hw.put (by rw [hphase]; rfl) rfl ⟨_, _, hok, rfl, rfl⟩
    · cases h
  | upsert o => exact hw.upsert hn hsound h
  | commit o => exact hw.commit h
  | fail o err =>
    simp only [step] at h
    split at h
    · rename_i hphase
      cases h
      exact hw.put (by rw [hphase]; rfl) rfl trivial
    · rename_i hphase
      cases h
      exact hw.put (by rw [hphase]; rfl) rfl trivial
    · rename_i hphase
      cases h
      exact hw.put (by rw [hphase]; rfl) rfl trivial
    · cases h
  | rollback o => exact hw.rollback h
  | tick d =>
    cases h
    exact ⟨hw.original, hw.written, hw.tally, hw.phases⟩

end Steps

/-! ## No update is lost -/

/--
Postgres counters lose no update.  Take any row of the key at the start, absent, expired or
numeric, with start value `n`, and any run of the transactions of any number of
`Increment` and `Decrement` calls in which no lifetime ends and every call that found no
row still finds none at its upsert.  While the partial sums along the commits are 64-bit integers:

- the numbers returned along the commits are the partial sums from `n` on;
- after the first commit the stored number is `n` plus the deltas committed so far;
- when all calls have returned without error, it is `n` plus all their deltas.
-/
theorem postgres_counter_sums [Fintype τ] [Nonempty τ] {S : Setup τ} {start w : World τ}
    {n : Int64} {es : List (Event τ)} (hinit : start.Initial) (hn : startValue S start = some n)
    (hsound : Along (step S) (Sound start) start es) (hrun : run (step S) start es = some w)
    (hrange : InRange n.toInt w.log) :
    Sums n.toInt w.log ∧
    (w.log ≠ [] → ∃ m, storedNumber w = some m ∧ m.toInt = n.toInt + amounts w.log) ∧
    ((∀ o, ∃ m, w.phases o = .done (.ok m)) →
      ∃ m, storedNumber w = some m ∧ m.toInt = n.toInt + ∑ o, (S.op o).amount) := by
  have hw : Inv S start n w :=
    run_preserves_along (fun _ _ _ hs hG h => inv_step hn hs hG h) (hinit.inv S n) hsound hrun
  have hstored : w.log ≠ [] → ∃ m, storedNumber w = some m ∧ m.toInt = n.toInt + amounts w.log := by
    intro hlog
    rcases hw.written hlog with ⟨ea, hwritten⟩
    refine ⟨total n w.log, ?_, toInt_total hrange⟩
    rw [storedNumber, hwritten]
    exact parseInt_formatInt _
  refine ⟨hw.tally.sums.sums hrange, hstored, ?_⟩
  intro hall
  have hreturned : ∀ o, ((w.phases o).returned).isSome := by
    intro o
    rcases hall o with ⟨m, hm⟩
    rw [hm]
    rfl
  rw [← hw.tally.amounts_eq_sum hreturned]
  exact hstored (hw.tally.log_ne_nil (hreturned (Classical.arbitrary τ)))

/-! ## A key with a row -/

/-- The call found no row. -/
def Phase.foundNone : Phase → Bool
  | inspecting none => true
  | counted false _ => true
  | upserting false _ _ => true
  | _ => false

/-- The key has a row, and every call in flight has found one. -/
structure Present (w : World τ) : Prop where
  committed : w.committed ≠ none
  phases : ∀ o, (w.phases o).foundNone = false

/-- A key with a row keeps it. -/
theorem Present.step {S : Setup τ} {start w w' : World τ} {n : Int64} {e : Event τ}
    (hp : Present w) (hw : Inv S start n w) (h : step S w e = some w') : Present w' := by
  have hput : ∀ {o : τ} {p : Phase}, p.foundNone = false → Present (w.put o p) := by
    intro o p hfound
    exact ⟨hp.committed, (forall_update_iff w.phases fun _ q => q.foundNone = false).mpr
      ⟨hfound, fun q _ => hp.phases q⟩⟩
  cases e with
  | call o | fail o err =>
    simp only [Counters.step] at h
    split at h <;> cases h <;> exact hput rfl
  | select o =>
    simp only [Counters.step] at h
    split at h
    · split at h
      · rename_i hnone
        exact absurd hnone hp.committed
      · simp only [Option.ite_none_right_eq_some, Option.some.injEq] at h
        rcases h with ⟨-, rfl⟩
        exact ⟨hp.committed, (hput rfl).phases⟩
    · cases h
  | inspect o =>
    have hfound := hp.phases o
    simp only [Counters.step] at h
    split at h
    · rename_i found hphase
      rw [hphase] at hfound
      split at h <;> cases h
      · exact hput rfl
      · cases found with
        | none => cases hfound
        | some row => exact hput rfl
    · cases h
  | encode o =>
    have hfound := hp.phases o
    simp only [Counters.step] at h
    split at h
    · rename_i found current hphase
      rw [hphase] at hfound
      cases h
      cases found with
      | false => cases hfound
      | true => exact hput rfl
    · cases h
  | upsert o =>
    simp only [Counters.step] at h
    split at h
    · simp only [Option.ite_none_right_eq_some, Option.some.injEq] at h
      rcases h with ⟨-, rfl⟩
      exact ⟨hp.committed, (hput rfl).phases⟩
    · cases h
  | commit o =>
    have hok := hw.phases o
    simp only [Counters.step] at h
    split at h
    · rename_i next hphase
      rw [hphase] at hok
      rcases hok with ⟨-, -, ea, hpending⟩
      cases h
      refine ⟨?_, (hput rfl).phases⟩
      rw [World.ended, hpending]
      exact Option.some_ne_none _
    · cases h
  | rollback o =>
    simp only [Counters.step] at h
    split at h
    · split at h <;> cases h
      · exact ⟨hp.committed, (hput rfl).phases⟩
      · exact hput rfl
    · cases h
  | tick d =>
    cases h
    exact ⟨hp.committed, hp.phases⟩

/-- When the key has a row at the start, live or expired, the row lock alone orders the calls: the
side condition holds in every run in which no lifetime ends. -/
theorem sound_of_row {S : Setup τ} {start : World τ} {n : Int64} {es : List (Event τ)}
    (hinit : start.Initial) (hn : startValue S start = some n) (hrow : start.committed ≠ none)
    (hlive : Along (step S) (fun w e => ∀ o, e = .inspect o → Sound start w e) start es) :
    Along (step S) (Sound start) start es := by
  have himp : ∀ w e, Inv S start n w ∧ Present w → (∀ o, e = .inspect o → Sound start w e) →
      Sound start w e := by
    rintro w e ⟨-, hp⟩ hinspect
    cases e with
    | inspect o => exact hinspect o rfl
    | upsert o =>
      have hfound := hp.phases o
      simp only [Sound]
      split
      · rename_i hphase
        rw [hphase] at hfound
        cases hfound
      · trivial
    | call o | select o | encode o | commit o | fail o err | rollback o | tick d => trivial
  refine along_of_invariant (P := fun w => Inv S start n w ∧ Present w) ?_ himp ?_ hlive
  · rintro w e w' ⟨hw, hp⟩ hinspect h
    exact ⟨inv_step hn hw (himp w e ⟨hw, hp⟩ hinspect) h, hp.step hw h⟩
  · refine ⟨hinit.inv S n, hrow, ?_⟩
    intro o
    rw [hinit.idle o]
    rfl

/-- On a key with a row Postgres counters lose no update, in any order of the statements, as long as
no lifetime ends during the run. -/
theorem row_counter_sums [Fintype τ] [Nonempty τ] {S : Setup τ} {start w : World τ} {n : Int64}
    {es : List (Event τ)} (hinit : start.Initial) (hn : startValue S start = some n)
    (hrow : start.committed ≠ none)
    (hlive : Along (step S) (fun w e => ∀ o, e = .inspect o → Sound start w e) start es)
    (hrun : run (step S) start es = some w) (hrange : InRange n.toInt w.log)
    (hall : ∀ o, ∃ m, w.phases o = .done (.ok m)) :
    ∃ m, storedNumber w = some m ∧ m.toInt = n.toInt + ∑ o, (S.op o).amount := by
  have hw : Inv S start n w :=
    run_preserves_along (fun _ _ _ hs hG h => inv_step hn hs hG h) (hinit.inv S n)
      (sound_of_row hinit hn hrow hlive) hrun
  have hreturned : ∀ o, ((w.phases o).returned).isSome := by
    intro o
    obtain ⟨m, hm⟩ := hall o
    rw [hm]
    rfl
  obtain ⟨ea, hwritten⟩ := hw.written (hw.tally.log_ne_nil (hreturned (Classical.arbitrary τ)))
  refine ⟨total n w.log, ?_, ?_⟩
  · rw [storedNumber, hwritten]
    exact parseInt_formatInt _
  · rw [← hw.tally.amounts_eq_sum hreturned]
    exact toInt_total hrange

/-! ## Two calls on one key -/

/-- A Postgres store, and two calls on one of its keys. -/
def sampleSetup : Setup Bool where
  store :=
    { driverName := .pgx
      keyPrefix := ascii "app"
      defaultTTL := DefaultTTL.normalize 0
      refuses := fun _ _ => none
      duplicate := ⟨1, ascii "duplicate key value"⟩
      duplicate_recognised := by decide }
  key := ascii "hits"
  op := fun o => if o then .increment 1 60000000000 else .increment 2 60000000000

/-- The key with a committed row, or none, five seconds after the epoch. -/
def startWorld (row : Option Row) : World Bool where
  committed := row
  holder := none
  pending := none
  now := 5000000000
  phases := fun _ => .idle
  log := []

/-- Both calls reach their select; the second one waits until the first one has committed. -/
def serialized : List (Event Bool) :=
  [.call false, .call true, .select false, .inspect false, .encode false, .upsert false,
    .commit false, .select true, .inspect true, .encode true, .upsert true, .commit true]

/-- The key after that run, when the row at the start has expired. -/
def serializedWorld : World Bool :=
  (run (step sampleSetup) (startWorld (some ⟨ascii "40", 1000⟩)) serialized).getD (startWorld none)

/-- An expired row is locked like any other: both updates count, from zero on. -/
theorem postgres_counter_sums_expired :
    run (step sampleSetup) (startWorld (some ⟨ascii "40", 1000⟩)) serialized =
      some serializedWorld ∧
    ∃ m, storedNumber serializedWorld = some m ∧
      m.toInt = (0 : Int64).toInt + ∑ o, (sampleSetup.op o).amount := by
  have hrun : run (step sampleSetup) (startWorld (some ⟨ascii "40", 1000⟩)) serialized =
      some serializedWorld := rfl
  have hsound : Along (step sampleSetup) (Sound (startWorld (some ⟨ascii "40", 1000⟩)))
      (startWorld (some ⟨ascii "40", 1000⟩)) serialized := by
    decide +kernel
  have hrange : InRange (0 : Int64).toInt serializedWorld.log := by
    refine ⟨?_, ?_, trivial⟩ <;> decide
  refine ⟨hrun, (postgres_counter_sums ⟨fun _ => rfl, rfl, rfl⟩ rfl hsound hrun hrange).2.2 ?_⟩
  intro o
  cases o
  · exact ⟨2, rfl⟩
  · exact ⟨3, rfl⟩

/-- A row with forty, which is live. -/
def fortyRow : Row := ⟨ascii "40", 9000⟩

/-- The key after the two calls on that row. -/
def fortyWorld : World Bool :=
  (run (step sampleSetup) (startWorld (some fortyRow)) serialized).getD (startWorld none)

/-- Three are added to the forty. -/
theorem row_counter_sums_forty : ∃ m, storedNumber fortyWorld = some m ∧ m.toInt = 43 := by
  have hsound : Along (step sampleSetup) (Sound (startWorld (some fortyRow)))
      (startWorld (some fortyRow)) serialized := by
    decide +kernel
  have hlive : Along (step sampleSetup)
      (fun w e => ∀ o, e = .inspect o → Sound (startWorld (some fortyRow)) w e)
      (startWorld (some fortyRow)) serialized :=
    along_of_invariant (P := fun _ => True) (fun _ _ _ _ _ _ => trivial) (fun _ _ _ h _ _ => h)
      trivial hsound
  have hrange : InRange (40 : Int64).toInt fortyWorld.log := by
    refine ⟨?_, ?_, trivial⟩ <;> decide
  refine row_counter_sums ⟨fun _ => rfl, rfl, rfl⟩ rfl (by decide) hlive rfl hrange ?_
  intro o
  cases o
  · exact ⟨42, rfl⟩
  · exact ⟨43, rfl⟩

/-- Both calls find no row, and the second one overwrites what the first one has committed. -/
def overlapping : List (Event Bool) :=
  [.call false, .call true, .select false, .select true, .inspect false, .inspect true,
    .encode false, .encode true, .upsert false, .commit false, .upsert true, .commit true]

/-- The first calls on a key lose an update: one adds two and one adds one, both return without
error, and the stored number is one. -/
theorem first_increments_lose_update :
    ∃ w, (startWorld none).Initial ∧ startValue sampleSetup (startWorld none) = some 0 ∧
      run (step sampleSetup) (startWorld none) overlapping = some w ∧
      w.phases false = .done (.ok 2) ∧ w.phases true = .done (.ok 1) ∧
      storedNumber w = some 1 ∧ ∑ o, (sampleSetup.op o).amount = 3 :=
  ⟨_, ⟨fun _ => rfl, rfl, rfl⟩, rfl, rfl, rfl, rfl, rfl, rfl⟩

end Counters
end Sql
end GoforjCache
