import GoforjCache.Drivers.CounterLog
import GoforjCache.Dynamo.Store
import GoforjCache.Foundation.Transition

/-!
# DynamoDB - Counters by reading and writing

`Increment` and `Decrement` of the DynamoDB store are a `Get` and a `Set`: a
`GetItem`, a look at the clock, a `DeleteItem` of an expired item, and a `PutItem`
of the computed number, none of them conditional.  Any number of calls on one key send these
requests in any order; the clock moves between any two of them, and a request may fail.

Main results:

- Theorem `Inv.look_ok`: what a call knows of the number after its look.
- Theorem `dynamo_counter_sums`: when no other call writes between the read of a call and its
  deletion or write, the stored number is the start value plus all deltas.
- Theorem `overlapping_increments_lose_update`: otherwise calls overwrite each other.
-/

namespace GoforjCache
namespace Dynamo
namespace Counters

open Function Foundation Foundation.Transition Foundation.Decimal
open CounterLog Nats.Counters

/-! ## Calls in flight -/

/-- Program counter of one call.  `writes` is the number of writes on the key when the call
read it. -/
inductive Phase where
  | idle
  /-- `GetItem` is next. -/
  | reading
  /-- An item was read; the look at the clock is next. -/
  | inspecting (writes : Nat) (item : Attributes)
  /-- The item has expired; `DeleteItem` is next. -/
  | deleting (writes : Nat)
  /-- The current number is known. -/
  | counted (writes : Nat) (current : Int64)
  /-- `PutItem` is next. -/
  | writing (writes : Nat) (next : Int64) (item : Attributes)
  | done (result : Except CacheError Int64)

/-- What is fixed: the store, the key, and the operation of each call. -/
structure Setup (τ : Type) where
  store : Config
  key : Key
  op : τ → CounterOp

/-- The item of the key, the clock, one call per slot, and the writes so far. -/
structure World (τ : Type) where
  item : Option Attributes
  now : Instant
  phases : τ → Phase
  log : List (Applied τ)

/-- The steps.  `delete` may fail, which the code ignores. -/
inductive Event (τ : Type) where
  | call (o : τ)
  | read (o : τ)
  | inspect (o : τ)
  | delete (o : τ) (ok : Bool)
  | encode (o : τ)
  | put (o : τ)
  | fail (o : τ) (err : CacheError)
  | tick (d : Nat)

variable {τ : Type} [DecidableEq τ]

/-- What the look at an item tells: its number, or none if it has expired. -/
def look (S : Setup τ) (now : Instant) (item : Attributes) : Except CacheError (Option Int64) :=
  if item.expired now then .ok none
  else
    match item.v with
    | none => .error missingValue
    | some body => (currentNumber S.key (some body)).map some

/-- Move one call to a new program counter. -/
def World.move (w : World τ) (o : τ) (p : Phase) : World τ :=
  { w with phases := update w.phases o p }

/-- One step. -/
def step (S : Setup τ) (w : World τ) : Event τ → Option (World τ)
  | .call o =>
    match w.phases o with
    | .idle => some (w.move o .reading)
    | _ => none
  | .read o =>
    match w.phases o with
    | .reading =>
      match w.item with
      | none => some (w.move o (.counted w.log.length 0))
      | some item => some (w.move o (.inspecting w.log.length item))
    | _ => none
  | .inspect o =>
    match w.phases o with
    | .inspecting writes item =>
      match look S w.now item with
      | .error err => some (w.move o (.done (.error err)))
      | .ok none => some (w.move o (.deleting writes))
      | .ok (some current) => some (w.move o (.counted writes current))
    | _ => none
  | .delete o ok =>
    match w.phases o with
    | .deleting writes =>
      some { w with
        item := if ok then none else w.item
        phases := update w.phases o (.counted writes 0) }
    | _ => none
  | .encode o =>
    match w.phases o with
    | .counted writes current =>
      let next := current + (S.op o).applied
      some (w.move o (.writing writes next
        (setItem S.store w.now (formatInt next) (S.op o).ttl)))
    | _ => none
  | .put o =>
    match w.phases o with
    | .writing _ next item =>
      some { w with
        item := some item
        phases := update w.phases o (.done (.ok next))
        log := w.log ++ [⟨o, S.op o, next⟩] }
    | _ => none
  | .fail o err =>
    match w.phases o with
    | .reading | .writing _ _ _ => some (w.move o (.done (.error err)))
    | _ => none
  | .tick d => some { w with now := w.now + d }

/-- No call has been made. -/
structure World.Initial (w : World τ) : Prop where
  idle : ∀ o, w.phases o = .idle
  log : w.log = []

/-- The number the key starts with: zero without an item and for an expired one. -/
def startValue (S : Setup τ) (w : World τ) : Option Int64 :=
  match w.item with
  | none => some 0
  | some item =>
    match look S w.now item with
    | .error _ => none
    | .ok none => some 0
    | .ok (some n) => some n

/-- The number in the item of the key, whether or not it has expired. -/
def storedNumber (w : World τ) : Option Int64 := (w.item.bind Attributes.v).bind parseInt

/-- The side condition of a step, for runs from `start`.  No lifetime ends during the run: an
item looks expired only if it is the one at the start and looked so then.  And no other call has
written since a call that deletes or writes has read. -/
def Sound (start w : World τ) : Event τ → Prop
  | .inspect o =>
    match w.phases o with
    | .inspecting writes item =>
      item.expired w.now = true ↔ writes = 0 ∧ item.expired start.now = true
    | _ => True
  | .delete o ok =>
    match w.phases o with
    | .deleting writes => ok = true → w.log.length = writes
    | _ => True
  | .put o =>
    match w.phases o with
    | .writing writes _ _ => w.log.length = writes
    | _ => True
  | _ => True

instance (start w : World τ) : DecidablePred (Sound start w) := by
  intro e
  cases e with
  | inspect o | delete o ok | put o =>
    dsimp only [Sound]
    split <;> infer_instance
  | call | read | encode | fail | tick => exact .isTrue trivial

/-! ## The invariant -/

/-- The number that a call has returned. -/
def Phase.returned : Phase → Option Int64
  | done (.ok n) => some n
  | _ => none

/-- What a call knows of its number: it is the total so far unless another call has written since
the read. -/
structure Known (n : Int64) (log : List (Applied τ)) (writes : Nat) (current : Int64) : Prop where
  le : writes ≤ log.length
  current_eq : log.length = writes → current = total n log

/-- What holds of a call at its program counter. -/
def PhaseOk (S : Setup τ) (start : World τ) (n : Int64) (w : World τ) (o : τ) : Phase → Prop
  | .inspecting writes item =>
    writes ≤ w.log.length ∧ (writes = 0 → start.item = some item) ∧
      (w.log.length = writes → w.log ≠ [] → w.item = some item)
  | .deleting writes => writes = 0 ∧ n = 0
  | .counted writes current => Known n w.log writes current
  | .writing writes next item =>
    ∃ current made, Known n w.log writes current ∧ next = current + (S.op o).applied ∧
      item = setItem S.store made (formatInt next) (S.op o).ttl
  | _ => True

/-- The invariant of runs from `start` with start value `n`: before the first write the
item is as it was, or an expired one is gone, and afterwards it carries the total so far. -/
structure Inv (S : Setup τ) (start : World τ) (n : Int64) (w : World τ) : Prop where
  original : w.log = [] → w.item = start.item ∨ (w.item = none ∧ n = 0)
  written : w.log ≠ [] →
    ∃ made ttl, w.item = some (setItem S.store made (formatInt (total n w.log)) ttl)
  tally : Tally S.op n w.log fun o => (w.phases o).returned
  phases : ∀ o, PhaseOk S start n w o (w.phases o)

omit [DecidableEq τ] in
/-- The invariant holds initially. -/
theorem World.Initial.inv {start : World τ} (h : start.Initial) (S : Setup τ) (n : Int64) :
    Inv S start n start where
  original := fun _ => Or.inl rfl
  written := fun hne => absurd h.log hne
  tally := by
    rw [h.log]
    apply Tally.nil
    intro o
    rw [h.idle o]
    rfl
  phases := by
    intro o
    rw [h.idle o]
    trivial

section Steps

variable {S : Setup τ} {start w : World τ} {n : Int64} {o : τ} {p : Phase} {w' : World τ}

/-- A step that only moves one call, to no result, keeps the invariant. -/
theorem Inv.move (hw : Inv S start n w) (hbefore : (w.phases o).returned = none)
    (hafter : p.returned = none) (hp : PhaseOk S start n w o p) :
    Inv S start n (w.move o p) where
  original := hw.original
  written := hw.written
  tally := hw.tally.put hbefore hafter
  phases := (forall_update_iff w.phases (PhaseOk S start n w)).mpr
    ⟨hp, fun q _ => hw.phases q⟩

section

omit [DecidableEq τ]

/-- What holds of a call survives a write of another one. -/
theorem PhaseOk.append {e : Applied τ} (h : PhaseOk S start n w o p)
    (hlog : w'.log = w.log ++ [e]) : PhaseOk S start n w' o p := by
  have hlength : w'.log.length = w.log.length + 1 := by rw [hlog, List.length_append]; rfl
  have hknown : ∀ {writes current}, Known n w.log writes current →
      Known n w'.log writes current := by
    intro writes current hk
    have hle := hk.le
    exact ⟨by omega, fun heq => by omega⟩
  unfold PhaseOk at h ⊢
  split at h
  · rcases h with ⟨hle, hstart, -⟩
    exact ⟨by omega, hstart, fun heq => by omega⟩
  · exact h
  · exact hknown h
  · rcases h with ⟨current, made, hk, hnext, hitem⟩
    exact ⟨current, made, hknown hk, hnext, hitem⟩
  · trivial

/-- What holds of a call survives the deletion of an item that no call has written. -/
theorem PhaseOk.delete (h : PhaseOk S start n w o p) (hlog : w.log = []) :
    PhaseOk S start n { w with item := none } o p := by
  unfold PhaseOk at h ⊢
  split at h
  · exact ⟨h.1, h.2.1, fun _ hne => absurd hlog hne⟩
  · exact h
  · exact h
  · exact h
  · trivial

/-- A call that finds no item counts from zero, which is the total so far. -/
theorem Inv.known_zero (hn : startValue S start = some n) (hw : Inv S start n w)
    (hnone : w.item = none) : Known n w.log w.log.length 0 := by
  refine ⟨le_rfl, fun _ => ?_⟩
  have hlog : w.log = [] := by
    by_contra hlog
    rcases hw.written hlog with ⟨made, ttl, hitem⟩
    rw [hnone] at hitem
    cases hitem
  have hzero : n = 0 := by
    rcases hw.original hlog with hsame | ⟨-, hzero⟩
    · rw [startValue, ← hsame, hnone] at hn
      exact (Option.some.inj hn).symm
    · exact hzero
  rw [hlog, total_nil, hzero]

/-- Looks at an item that has expired at both times or at none agree. -/
theorem look_congr {now now' : Instant} {item : Attributes}
    (h : item.expired now = item.expired now') : look S now item = look S now' item := by
  rw [look, look, h]

/-- A look at a counter that has not expired finds its number. -/
theorem look_setItem {now made : Instant} {m : Int64} {ttl : Duration}
    (hlive : (setItem S.store made (formatInt m) ttl).expired now = false) :
    look S now (setItem S.store made (formatInt m) ttl) = .ok (some m) := by
  rw [look, hlive]
  simp only [setItem, currentNumber, parseInt_formatInt, Bool.false_eq_true, if_false]
  rfl

/-- After a look a call knows the total so far, or that the start value was zero. -/
theorem Inv.look_ok (hn : startValue S start = some n) (hw : Inv S start n w) {writes : Nat}
    {item : Attributes} (hok : PhaseOk S start n w o (.inspecting writes item))
    (hsound : item.expired w.now = true ↔ writes = 0 ∧ item.expired start.now = true) :
    (look S w.now item = .ok none → writes = 0 ∧ n = 0) ∧
    (∀ current, look S w.now item = .ok (some current) → Known n w.log writes current) := by
  rcases hok with ⟨hle, hstart, hitem⟩
  constructor
  · intro hlook
    have hexpired : item.expired w.now = true := by
      by_contra hlive
      rw [look, if_neg hlive] at hlook
      split at hlook
      · cases hlook
      · rename_i body hbody
        cases hnumber : currentNumber S.key (some body) <;> rw [hnumber] at hlook <;> cases hlook
    rcases hsound.mp hexpired with ⟨hzero, hthen⟩
    refine ⟨hzero, ?_⟩
    rw [startValue, hstart hzero] at hn
    simp only [look, hthen, if_true] at hn
    exact (Option.some.inj hn).symm
  · intro current hlook
    have hlive : item.expired w.now = false := by
      rw [Bool.eq_false_iff]
      intro hexpired
      rw [look, hexpired] at hlook
      cases hlook
    refine ⟨hle, ?_⟩
    intro hlength
    by_cases hlog : w.log = []
    · -- the item at the start, which looked the same then
      have hzero : writes = 0 := by rw [← hlength, hlog]; rfl
      have hthen : item.expired start.now = false := by
        rw [Bool.eq_false_iff]
        intro hexpired
        have hnow := hsound.mpr ⟨hzero, hexpired⟩
        rw [hlive] at hnow
        cases hnow
      rw [look_congr (hlive.trans hthen.symm)] at hlook
      rw [startValue, hstart hzero] at hn
      simp only [hlook] at hn
      rw [hlog, total_nil]
      exact Option.some.inj hn
    · rcases hw.written hlog with ⟨made, ttl, hwritten⟩
      rw [hitem hlength hlog] at hwritten
      rcases Option.some.inj hwritten with rfl
      rw [look_setItem hlive] at hlook
      exact (Option.some.inj (Except.ok.inj hlook)).symm

end

/-- A look at the clock keeps the invariant. -/
theorem Inv.inspect (hn : startValue S start = some n) (hw : Inv S start n w)
    (hsound : Sound start w (.inspect o)) (h : step S w (.inspect o) = some w') :
    Inv S start n w' := by
  have hok := hw.phases o
  simp only [step] at h
  split at h
  · rename_i writes item hphase
    have hbefore : (w.phases o).returned = none := by rw [hphase]; rfl
    simp only [Sound, hphase] at hsound
    rw [hphase] at hok
    rcases hw.look_ok hn hok hsound with ⟨hexpired, hnumber⟩
    split at h <;> cases h
    · exact hw.move hbefore rfl trivial
    · rename_i hlook
      exact hw.move hbefore rfl (hexpired hlook)
    · rename_i current hlook
      exact hw.move hbefore rfl (hnumber current hlook)
  · cases h

/-- A deletion keeps the invariant when no other call has written since the read. -/
theorem Inv.delete {ok : Bool} (hw : Inv S start n w) (hsound : Sound start w (.delete o ok))
    (h : step S w (.delete o ok) = some w') : Inv S start n w' := by
  have hok := hw.phases o
  simp only [step] at h
  split at h
  · rename_i writes hphase
    have hbefore : (w.phases o).returned = none := by rw [hphase]; rfl
    simp only [Sound, hphase] at hsound
    rw [hphase] at hok
    rcases hok with ⟨hzero, hn⟩
    have hknown : Known n w.log writes 0 := by
      refine ⟨by omega, fun hlength => ?_⟩
      have hlog := List.length_eq_zero_iff.mp (hlength.trans hzero)
      rw [hlog, total_nil, hn]
    cases h
    cases ok with
    | false => exact hw.move hbefore rfl hknown
    | true =>
      have hlog : w.log = [] := List.length_eq_zero_iff.mp ((hsound rfl).trans hzero)
      have hgone : Inv S start n { w with item := none } :=
        ⟨fun _ => Or.inr ⟨rfl, hn⟩, fun hne => absurd hlog hne, hw.tally,
          fun q => (hw.phases q).delete hlog⟩
      exact hgone.move hbefore rfl hknown
  · cases h

/-- A write keeps the invariant when no other call has written since the read. -/
theorem Inv.put (hw : Inv S start n w) (hsound : Sound start w (.put o))
    (h : step S w (.put o) = some w') : Inv S start n w' := by
  have hok := hw.phases o
  simp only [step] at h
  split at h
  · rename_i writes next item hphase
    have hbefore : (w.phases o).returned = none := by rw [hphase]; rfl
    simp only [Sound, hphase] at hsound
    rw [hphase] at hok
    rcases hok with ⟨current, made, hknown, hnext, hitem⟩
    have htotal : next = total n w.log + (S.op o).applied := by
      rw [hnext, hknown.current_eq hsound]
    cases h
    constructor
    · intro hnil
      exact absurd hnil (List.append_ne_nil_of_right_ne_nil _ (List.cons_ne_nil _ _))
    · intro _
      refine ⟨made, (S.op o).ttl, ?_⟩
      rw [total_concat, ← htotal, hitem]
    · exact hw.tally.wrote hbefore rfl htotal
    · exact (forall_update_iff w.phases (PhaseOk S start n _)).mpr
        ⟨trivial, fun q _ => (hw.phases q).append rfl⟩
  · cases h

/-- Every step that meets the side condition keeps the invariant. -/
theorem inv_step {e : Event τ} (hn : startValue S start = some n) (hw : Inv S start n w)
    (hsound : Sound start w e) (h : step S w e = some w') : Inv S start n w' := by
  cases e with
  | call o =>
    simp only [step] at h
    split at h
    · rename_i hphase
      cases h
      exact hw.move (by rw [hphase]; rfl) rfl trivial
    · cases h
  | read o =>
    simp only [step] at h
    split at h
    · rename_i hphase
      have hbefore : (w.phases o).returned = none := by rw [hphase]; rfl
      split at h <;> cases h
      · rename_i hnone
        exact hw.move hbefore rfl (hw.known_zero hn hnone)
      · rename_i item hitem
        refine hw.move hbefore rfl ⟨le_rfl, ?_, fun _ _ => hitem⟩
        intro hzero
        rcases hw.original (List.length_eq_zero_iff.mp hzero) with hsame | ⟨hnone, -⟩
        · rw [← hsame, hitem]
        · rw [hnone] at hitem
          cases hitem
    · cases h
  | inspect o => exact hw.inspect hn hsound h
  | delete o ok => exact hw.delete hsound h
  | encode o =>
    have hok := hw.phases o
    simp only [step] at h
    split at h
    · rename_i hphase
      rw [hphase] at hok
      cases h
      exact hw.move (by rw [hphase]; rfl) rfl ⟨_, _, hok, rfl, rfl⟩
    · cases h
  | put o => exact hw.put hsound h
  | fail o err =>
    simp only [step] at h
    split at h
    · rename_i hphase
      cases h
      exact hw.move (by rw [hphase]; rfl) rfl trivial
    · rename_i hphase
      cases h
      exact hw.move (by rw [hphase]; rfl) rfl trivial
    · cases h
  | tick d =>
    cases h
    exact ⟨hw.original, hw.written, hw.tally, hw.phases⟩

end Steps

/-! ## No update is lost -/

/--
DynamoDB counters lose no update.  Take any item of the key at the start, absent, expired or
numeric, with start value `n`, and any run of the service calls of any number of
`Increment` and `Decrement` calls in which no lifetime ends and no other call writes
between the read of a call and its deletion or write.  While the partial sums along the writes are
64-bit integers:

- after the first write the stored number is `n` plus the deltas written so far;
- when all calls have returned without error, it is `n` plus all their deltas;
- when all deltas are positive, no two calls return the same number.
-/
theorem dynamo_counter_sums [Fintype τ] [Nonempty τ] {S : Setup τ} {start w : World τ}
    {n : Int64} {es : List (Event τ)} (hinit : start.Initial) (hn : startValue S start = some n)
    (hsound : Along (step S) (Sound start) start es) (hrun : run (step S) start es = some w)
    (hrange : InRange n.toInt w.log) :
    (w.log ≠ [] → ∃ m, storedNumber w = some m ∧ m.toInt = n.toInt + amounts w.log) ∧
    ((∀ o, ∃ m, w.phases o = .done (.ok m)) →
      ∃ m, storedNumber w = some m ∧ m.toInt = n.toInt + ∑ o, (S.op o).amount) ∧
    ((∀ o, 0 < (S.op o).amount) → ∀ o p m, w.phases o = .done (.ok m) →
      w.phases p = .done (.ok m) → o = p) := by
  have hw : Inv S start n w :=
    run_preserves_along (fun _ _ _ hs hG h => inv_step hn hs hG h) (hinit.inv S n) hsound hrun
  have hstored : w.log ≠ [] → ∃ m, storedNumber w = some m ∧ m.toInt = n.toInt + amounts w.log := by
    intro hlog
    rcases hw.written hlog with ⟨made, ttl, hwritten⟩
    refine ⟨total n w.log, ?_, toInt_total hrange⟩
    rw [storedNumber, hwritten]
    exact parseInt_formatInt _
  have hreturned : ∀ {o m}, w.phases o = .done (.ok m) → (w.phases o).returned = some m := by
    intro o m hm
    rw [hm]
    rfl
  refine ⟨hstored, ?_, ?_⟩
  · intro hall
    have hsome : ∀ o, ((w.phases o).returned).isSome := by
      intro o
      rcases hall o with ⟨m, hm⟩
      rw [hreturned hm]
      rfl
    rw [← hw.tally.amounts_eq_sum hsome]
    exact hstored (hw.tally.log_ne_nil (hsome (Classical.arbitrary τ)))
  · intro hpos o p m ho hp
    exact hw.tally.result_injective hrange hpos (hreturned ho) (hreturned hp)

/-! ## Two calls on one key -/

/-- Two calls on one key. -/
def sampleSetup : Setup Bool where
  store := ⟨ascii "app", DefaultTTL.normalize 0⟩
  key := ascii "hits"
  op := fun o => if o then .increment 1 60000000000 else .increment 2 60000000000

/-- The key with an item, or none, five seconds after the epoch. -/
def startWorld (item : Option Attributes) : World Bool where
  item := item
  now := 5000000000
  phases := fun _ => .idle
  log := []

/-- An item that expired four seconds ago. -/
def expiredItem : Attributes := ⟨some (ascii "40"), some 1000⟩

/-- The first call deletes the expired item and writes before the second one reads. -/
def serialized : List (Event Bool) :=
  [.call false, .call true, .read false, .inspect false, .delete false true, .encode false,
    .put false, .read true, .inspect true, .encode true, .put true]

/-- The key after that run. -/
def serializedWorld : World Bool :=
  (run (step sampleSetup) (startWorld (some expiredItem)) serialized).getD (startWorld none)

/-- An expired item is deleted, and both updates count, from zero on. -/
theorem dynamo_counter_sums_expired :
    run (step sampleSetup) (startWorld (some expiredItem)) serialized = some serializedWorld ∧
    ∃ m, storedNumber serializedWorld = some m ∧
      m.toInt = (0 : Int64).toInt + ∑ o, (sampleSetup.op o).amount := by
  have hrun : run (step sampleSetup) (startWorld (some expiredItem)) serialized =
      some serializedWorld := rfl
  have hsound : Along (step sampleSetup) (Sound (startWorld (some expiredItem)))
      (startWorld (some expiredItem)) serialized := by
    decide +kernel
  have hrange : InRange (0 : Int64).toInt serializedWorld.log := by
    refine ⟨?_, ?_, trivial⟩ <;> decide
  refine ⟨hrun, (dynamo_counter_sums ⟨fun _ => rfl, rfl⟩ rfl hsound hrun hrange).2.1 ?_⟩
  intro o
  cases o
  · exact ⟨2, rfl⟩
  · exact ⟨3, rfl⟩

/-- Both calls read before either one writes. -/
def overlapping : List (Event Bool) :=
  [.call false, .call true, .read false, .read true, .inspect false, .inspect true,
    .encode false, .encode true, .put false, .put true]

/-- The item of a live counter. -/
def liveItem : Attributes := ⟨some (ascii "40"), some 65000⟩

/-- Overlapping calls lose an update: from forty, one adds two and one adds one, both return
without error, and the stored number is forty-one. -/
theorem overlapping_increments_lose_update :
    ∃ w, (startWorld (some liveItem)).Initial ∧
      startValue sampleSetup (startWorld (some liveItem)) = some 40 ∧
      run (step sampleSetup) (startWorld (some liveItem)) overlapping = some w ∧
      w.phases false = .done (.ok 42) ∧ w.phases true = .done (.ok 41) ∧
      storedNumber w = some 41 ∧ ∑ o, (sampleSetup.op o).amount = 3 :=
  ⟨_, ⟨fun _ => rfl, rfl⟩, rfl, rfl, rfl, rfl, rfl, rfl⟩

end Counters
end Dynamo
end GoforjCache
