import GoforjCache.Drivers.CounterLog
import GoforjCache.Memcached.CounterCalls

/-!
# Memcached - Counters on one server

`Increment` sends `incr`.  If the server answers `NOT_FOUND`, it stores a zero, with
an unconditional `set`, and starts again; otherwise it refreshes the expiration with
`touch` and returns the number.  Any number of calls on one key send these commands in any
order to one server, which executes each of them at once; time passes between any two of them, and a
connection may fail.

Main results:

- Theorem `Inv.count`: a successful `incr` adds its delta to the total so far.
- Theorem `memcached_counter_sums`: when every `set` finds the key absent or at zero, the
  stored number is the start value plus all deltas.
- Theorem `zeroing_loses_update`: otherwise a `set` wipes out what another call has
  counted.
-/

namespace GoforjCache
namespace Memcached
namespace Counters

open Foundation Foundation.Transition
open CounterLog Nats.Counters

/-! ## Calls in flight -/

/-- Program counter of one call. -/
inductive Phase where
  | idle
  /-- `incr` is next. -/
  | counting
  /-- The key was not found; `set` is next. -/
  | zeroing
  /-- The number is known; `touch` is next. -/
  | touching (n : Int64)
  | done (n : Int64)
  /-- The call has returned an error; `counted` is the number it has made, if any. -/
  | failed (err : MemcachedError) (counted : Option Int64)
deriving DecidableEq

/-- What is fixed: the store, the key, and the positive delta and the lifetime of each call. -/
structure Setup (τ : Type) where
  store : Config
  key : Key
  delta : τ → Int64
  ttl : τ → Duration
  pos : ∀ o, 0 < delta o

/-- The server, one call per slot, and the successful `incr` commands so far. -/
structure World (τ : Type) where
  server : Server
  phases : τ → Phase
  log : List (Applied τ)

/-- The steps.  `fail` is a command that is not sent because the connection is broken. -/
inductive Event (τ : Type) where
  | call (o : τ)
  | count (o : τ)
  | zero (o : τ)
  | touch (o : τ)
  | fail (o : τ)
  | tick (seconds : Nat)

variable {τ : Type}

/-- The full key. -/
def Setup.full (S : Setup τ) : Key := S.store.cacheKey S.key

/-- The lifetime that a call writes. -/
def Setup.lifetime (S : Setup τ) (o : τ) : Duration := S.store.defaultTTL.resolve (S.ttl o)

/-- The operation of a call. -/
def Setup.op (S : Setup τ) (o : τ) : CounterOp := .increment (S.delta o) (S.ttl o)

/-! ## The commands of a counter -/

/-- The trimmed reply to `incr`, and the server after it. -/
def countReply (S : Setup τ) (w : World τ) (o : τ) : Bytes × Server :=
  let r := answer memcached ⟨[ascii "incr", S.full, Decimal.formatInt (S.delta o)], none⟩ w.server
  (Words.trimSpace r.1, r.2)

section Commands

variable {S : Setup τ} {w : World τ} {o : τ}

/-- The counter command of the store's function. -/
theorem countReply_of_count {line : Bytes} {s' : Server}
    (h : (opened memcached).count (ascii "incr") S.full (S.delta o) w.server () =
      (.ok line, s', ())) : countReply S w o = (line, s') := by
  rcases Prod.mk.inj h with ⟨hline, hstate⟩
  exact Prod.ext (Outcome.ok.inj hline) (Prod.mk.inj hstate).1

/-- `incr` on a missing key. -/
theorem countReply_none (h : w.server.slot S.full = none) :
    (countReply S w o).1 = ascii "NOT_FOUND" ∧ (countReply S w o).2.slot S.full = none := by
  rcases count_missing 1 w.server S.full (.inl rfl) (Int64.le_of_lt (S.pos o)) h with
    ⟨s', hcount, -, hslot⟩
  rw [timed_one] at hcount
  rw [countReply_of_count hcount]
  exact ⟨rfl, by rw [hslot, h]⟩

/-- `incr` on a number that stays in the range. -/
theorem countReply_some {item : Item} {v : Nat} (h : w.server.slot S.full = some item)
    (hv : counterValue item.entry.data = some v) (hrange : v + (S.delta o).toInt.toNat < 2 ^ 63) :
    (countReply S w o).1 = Decimal.formatNat (v + (S.delta o).toInt.toNat) ∧
      ∃ item', (countReply S w o).2.slot S.full = some item' ∧
        counterValue item'.entry.data = some (v + (S.delta o).toInt.toNat) := by
  have hstep : counterStep (ascii "incr") v (S.delta o).toInt.toNat =
      v + (S.delta o).toInt.toNat := by
    rw [counterStep, if_pos rfl, Nat.mod_eq_of_lt (by omega)]
  rcases count_number 1 w.server S.full (.inl rfl) (Int64.le_of_lt (S.pos o)) h hv with
    ⟨s', item', hcount, -, hslot, hvalue, -, -⟩
  rw [timed_one] at hcount
  rw [countReply_of_count hcount, ← hstep]
  exact ⟨rfl, item', hslot, hvalue⟩

/-- `touch` succeeds and keeps the number. -/
theorem touch_spec (hlifetime : seconds (S.lifetime o) ≤ maxRelative) :
    touchReply (answer memcached ⟨[ascii "touch", S.full,
        Decimal.formatNat (seconds (S.lifetime o))], none⟩ w.server).1 = .ok () ∧
      ((answer memcached ⟨[ascii "touch", S.full,
          Decimal.formatNat (seconds (S.lifetime o))], none⟩ w.server).2.slot S.full).map
            (fun item => item.entry) =
        (w.server.slot S.full).map fun item => item.entry := by
  have htouch := touchChange_formatNat (seconds_lt (S.lifetime o)) w.server.clock
    (w.server.slot S.full)
  unfold answer
  change touchReply ((w.server.exec _).2.text ++ _) = _ ∧ ((w.server.exec _).1.slot _).map _ = _
  rw [Server.exec_touch, Server.slot_keyed_self]
  simp only [Server.keyed, htouch]
  cases w.server.slot S.full with
  | none => exact ⟨rfl, rfl⟩
  | some item =>
    have hlive : (Item.mk item.entry (deadline w.server.clock (seconds (S.lifetime o)))).live
        w.server.clock = true := live_deadline (seconds_pos _) hlifetime item.entry
    exact ⟨rfl, by simp [Option.filter, hlive]⟩

/-- `set` succeeds and leaves a zero. -/
theorem zero_spec (hlifetime : seconds (S.lifetime o) ≤ maxRelative) :
    ∃ s' item, (opened memcached).set S.full (S.lifetime o) (ascii "0") w.server () =
        (.ok (), s', ()) ∧ s'.slot S.full = some item ∧ counterValue item.entry.data = some 0 := by
  have hshort : (ascii "0").length ≤ maxAlloc := by decide
  rcases written_newItem w.server hshort hlifetime w.server.nextCas with
    ⟨item, hwritten, hlive, hdata⟩
  refine ⟨_, item, set_opened w.server S.full hshort hlifetime, ?_, ?_⟩
  · rw [Server.slot_keyed_self, storageChange_set, hwritten]
    simp [Option.filter, hlive]
  · rw [hdata]
    decide

/-- Time that does not end the lifetime of the key keeps its item. -/
theorem tick_spec {n : Nat}
    (h : ((w.server.tick n).slot S.full).isSome = (w.server.slot S.full).isSome) :
    (w.server.tick n).slot S.full = w.server.slot S.full := by
  rw [Server.slot_tick] at h ⊢
  cases hslot : w.server.slot S.full with
  | none => rfl
  | some item =>
    rw [hslot, Option.filter_some] at h
    rw [Option.filter_some]
    split at h
    · rename_i hlive
      exact if_pos hlive
    · cases h

end Commands

/-! ## Steps -/

variable [DecidableEq τ]

/-- Move one call to a new program counter. -/
def World.move (w : World τ) (o : τ) (p : Phase) : World τ :=
  { w with phases := Function.update w.phases o p }

/-- One step. -/
def step (S : Setup τ) (w : World τ) : Event τ → Option (World τ)
  | .call o =>
    match w.phases o with
    | .idle => some (w.move o .counting)
    | _ => none
  | .count o =>
    match w.phases o with
    | .counting =>
      let r := countReply S w o
      if r.1 = ascii "NOT_FOUND" then some { w.move o .zeroing with server := r.2 }
      else
        match counterReply r.1 with
        | .ok n =>
          some
            { server := r.2
              phases := Function.update w.phases o (.touching n)
              log := w.log ++ [⟨o, S.op o, n⟩] }
        | .err err _ => some { w.move o (.failed err none) with server := r.2 }
        | .blocked => none
    | _ => none
  | .zero o =>
    match w.phases o with
    | .zeroing =>
      match (opened memcached).set S.full (S.lifetime o) (ascii "0") w.server () with
      | (.ok _, s', _) => some { w.move o .counting with server := s' }
      | (.err err _, s', _) => some { w.move o (.failed err none) with server := s' }
      | (.blocked, _, _) => none
    | _ => none
  | .touch o =>
    match w.phases o with
    | .touching n =>
      let r := answer memcached
        ⟨[ascii "touch", S.full, Decimal.formatNat (seconds (S.lifetime o))], none⟩ w.server
      match touchReply r.1 with
      | .ok _ => some { w.move o (.done n) with server := r.2 }
      | .err err _ => some { w.move o (.failed err (some n)) with server := r.2 }
      | .blocked => none
    | _ => none
  | .fail o =>
    match w.phases o with
    | .counting | .zeroing => some (w.move o (.failed .io none))
    | .touching n => some (w.move o (.failed .io (some n)))
    | _ => none
  | .tick n => some { w with server := w.server.tick n }

/-- No call has been made. -/
structure World.Initial (w : World τ) : Prop where
  idle : ∀ o, w.phases o = .idle
  log : w.log = []

/-- The number of the key, if it has one. -/
def storedNumber (S : Setup τ) (w : World τ) : Option Nat :=
  (w.server.slot S.full).bind fun item => counterValue item.entry.data

/-- The number the key starts with: zero without an item. -/
def startValue (S : Setup τ) (w : World τ) : Option Nat :=
  match w.server.slot S.full with
  | none => some 0
  | some item => counterValue item.entry.data

/-- The side condition of a step.  Nothing expires: lifetimes are counted from now, and no time
passes that ends one.  And a `set` finds the key absent or at zero. -/
def Sound (S : Setup τ) (w : World τ) : Event τ → Prop
  | .zero o => seconds (S.lifetime o) ≤ maxRelative ∧ (storedNumber S w).getD 0 = 0
  | .touch o => seconds (S.lifetime o) ≤ maxRelative
  | .tick n => ((w.server.tick n).slot S.full).isSome = (w.server.slot S.full).isSome
  | _ => True

instance (S : Setup τ) (w : World τ) : DecidablePred (Sound S w) := by
  intro e
  cases e with
  | zero | touch | tick => dsimp only [Sound]; infer_instance
  | call | count | fail => exact .isTrue trivial

/-! ## The invariant -/

/-- The number that a call has made, whether or not it has returned. -/
def Phase.returned : Phase → Option Int64
  | touching n => some n
  | done n => some n
  | failed _ counted => counted
  | _ => none

/-- The key is absent and nothing was counted, or it holds the start value plus what was counted. -/
def Value (S : Setup τ) (n : Nat) (server : Server) (log : List (Applied τ)) : Prop :=
  (server.slot S.full = none ∧ log = [] ∧ n = 0) ∨
    ∃ item v, server.slot S.full = some item ∧ counterValue item.entry.data = some v ∧
      (v : Int) = n + amounts log

/-- The invariant of runs with start value `n`. -/
structure Inv (S : Setup τ) (n : Nat) (w : World τ) : Prop where
  value : Value S n w.server w.log
  tally : Tally S.op (Int64.ofInt n) w.log fun o => (w.phases o).returned

section Steps

variable {S : Setup τ} {n : Nat} {w : World τ} {o : τ}

omit [DecidableEq τ] in
/-- Every delta is positive. -/
theorem Setup.amount_pos (S : Setup τ) (o : τ) : 0 < (S.op o).amount := by
  have hpos := S.pos o
  rw [Int64.lt_iff_toInt_lt] at hpos
  simpa [Setup.op, CounterOp.amount] using hpos

omit [DecidableEq τ] in
/-- The key holds the number that the account says. -/
theorem Value.of_entry {server server' : Server} {log : List (Applied τ)} (h : Value S n server log)
    (hslot : (server'.slot S.full).map (fun item => item.entry) =
      (server.slot S.full).map fun item => item.entry) : Value S n server' log := by
  rcases h with ⟨hnone, hlog, hn⟩ | ⟨item, v, hitem, hv, hsum⟩
  · rw [hnone] at hslot
    exact Or.inl ⟨Option.map_eq_none_iff.mp hslot, hlog, hn⟩
  · rw [hitem] at hslot
    rcases Option.map_eq_some_iff.mp hslot with ⟨item', hitem', hentry⟩
    exact Or.inr ⟨item', v, hitem', by rw [hentry]; exact hv, hsum⟩

omit [DecidableEq τ] in
/-- The invariant holds initially. -/
theorem World.Initial.inv {start : World τ} (h : start.Initial)
    (hn : startValue S start = some n) : Inv S n start := by
  constructor
  · rw [h.log]
    unfold startValue at hn
    cases hslot : start.server.slot S.full with
    | none =>
      rw [hslot] at hn
      exact Or.inl ⟨hslot, rfl, (Option.some.inj hn).symm⟩
    | some item =>
      rw [hslot] at hn
      exact Or.inr ⟨item, n, hslot, hn, by simp [amounts]⟩
  · rw [h.log]
    apply Tally.nil
    intro o
    rw [h.idle o]
    rfl

variable {w' : World τ}

/-- `incr` reports a missing key, or adds its delta to the total so far. -/
theorem Inv.count [Fintype τ] (hw : Inv S n w)
    (hrange : (n : Int) + ∑ o, (S.delta o).toInt < 2 ^ 63) (h : step S w (.count o) = some w') :
    Inv S n w' := by
  simp only [step] at h
  split at h
  · rename_i hphase
    have hbefore : (w.phases o).returned = none := by rw [hphase]; rfl
    have hpos := S.amount_pos o
    have hbound := hw.tally.amounts_add_le (fun q => (S.amount_pos q).le) hbefore
    have hamount : (S.op o).amount = (S.delta o).toInt := rfl
    have hsum : ∑ q, (S.op q).amount = ∑ q, (S.delta q).toInt := rfl
    have hnonneg : 0 ≤ ∑ q, (S.op q).amount := Finset.sum_nonneg fun q _ => (S.amount_pos q).le
    rcases hw.value with ⟨hnone, hlog, hzero⟩ | ⟨item, v, hitem, hv, hvalue⟩
    · rcases countReply_none (o := o) hnone with ⟨hline, hslot⟩
      rw [if_pos hline] at h
      cases h
      exact ⟨Or.inl ⟨hslot, hlog, hzero⟩, hw.tally.put hbefore rfl⟩
    · have hsmall : v + (S.delta o).toInt.toNat < 2 ^ 63 := by omega
      rcases countReply_some hitem hv hsmall with ⟨hline, item', hslot, hv'⟩
      rcases counterReply_formatNat hsmall with ⟨hfound, hreply⟩
      rw [hline, if_neg hfound, hreply] at h
      cases h
      have hnext : ((v + (S.delta o).toInt.toNat : Nat) : Int) =
          n + amounts w.log + (S.op o).amount := by
        push_cast
        omega
      have hlog : amounts (w.log ++ [⟨o, S.op o,
          Int64.ofInt ((v + (S.delta o).toInt.toNat : Nat) : Int)⟩]) =
            amounts w.log + (S.op o).amount := by
        simp [amounts]
      refine ⟨Or.inr ⟨item', _, hslot, hv', ?_⟩, ?_⟩
      · rw [hlog, hnext, add_assoc]
      · refine hw.tally.wrote hbefore rfl ?_
        have hn : (Int64.ofInt n).toInt = n := by
          apply toInt_ofInt_of_range
          omega
        rw [hnext, Int64.ofInt_add, CounterOp.ofInt_amount, total, hn]
  · cases h

/-- `set` leaves a zero where nothing was counted. -/
theorem Inv.zero (hw : Inv S n w) (hsound : Sound S w (.zero o))
    (h : step S w (.zero o) = some w') : Inv S n w' := by
  simp only [step] at h
  split at h
  · rename_i hphase
    have hbefore : (w.phases o).returned = none := by rw [hphase]; rfl
    rcases zero_spec (S := S) (w := w) hsound.1 with ⟨s', item, hset, hslot, hvalue⟩
    rw [hset] at h
    cases h
    refine ⟨Or.inr ⟨item, 0, hslot, hvalue, ?_⟩, hw.tally.put hbefore rfl⟩
    rcases hw.value with ⟨hnone, hlog, hzero⟩ | ⟨item', v, hitem, hv, hsum⟩
    · change ((0 : Nat) : Int) = n + amounts w.log
      rw [hlog, hzero]
      rfl
    · have hv0 : v = 0 := by
        have hstored := hsound.2
        rw [storedNumber, hitem] at hstored
        simpa [hv] using hstored
      rw [← hv0]
      exact hsum
  · cases h

/-- `touch` changes no number. -/
theorem Inv.touch (hw : Inv S n w) (hsound : Sound S w (.touch o))
    (h : step S w (.touch o) = some w') : Inv S n w' := by
  simp only [step] at h
  split at h
  · rename_i m hphase
    rcases touch_spec (S := S) (w := w) (o := o) hsound with ⟨hreply, hentry⟩
    rw [hreply] at h
    cases h
    refine ⟨hw.value.of_entry hentry, hw.tally.keep ?_⟩
    rw [hphase]
    rfl
  · cases h

/-- Every step that meets the side condition keeps the invariant. -/
theorem inv_step [Fintype τ] {e : Event τ} (hrange : (n : Int) + ∑ o, (S.delta o).toInt < 2 ^ 63)
    (hw : Inv S n w) (hsound : Sound S w e) (h : step S w e = some w') : Inv S n w' := by
  cases e with
  | call o =>
    simp only [step] at h
    split at h
    · rename_i hphase
      cases h
      exact ⟨hw.value, hw.tally.put (by rw [hphase]; rfl) rfl⟩
    · cases h
  | count o => exact hw.count hrange h
  | zero o => exact hw.zero hsound h
  | touch o => exact hw.touch hsound h
  | fail o =>
    simp only [step] at h
    split at h
    · rename_i hphase
      cases h
      exact ⟨hw.value, hw.tally.put (by rw [hphase]; rfl) rfl⟩
    · rename_i hphase
      cases h
      exact ⟨hw.value, hw.tally.put (by rw [hphase]; rfl) rfl⟩
    · rename_i m hphase
      cases h
      exact ⟨hw.value, hw.tally.keep (by rw [hphase]; rfl)⟩
    · cases h
  | tick m =>
    cases h
    exact ⟨hw.value.of_entry (congrArg _ (tick_spec hsound)), hw.tally⟩

end Steps

/-! ## No update is lost -/

/--
Memcached counters lose no update.  Take a key that is absent or holds a number `n`, and any
interleaving of the commands of any number of `Increment` calls with positive deltas on one
server, in which nothing expires and every `set` finds the key absent or at zero.  When all
calls have returned without error, and `n` plus all deltas is a 64-bit integer, that sum is the
stored number.
-/
theorem memcached_counter_sums [Fintype τ] [Nonempty τ] {S : Setup τ} {start w : World τ} {n : Nat}
    {es : List (Event τ)} (hinit : start.Initial) (hn : startValue S start = some n)
    (hrange : (n : Int) + ∑ o, (S.delta o).toInt < 2 ^ 63)
    (hsound : Along (step S) (Sound S) start es) (hrun : run (step S) start es = some w)
    (hall : ∀ o, ∃ m, w.phases o = .done m) :
    ∃ v, storedNumber S w = some v ∧ (v : Int) = n + ∑ o, (S.delta o).toInt := by
  have hw : Inv S n w :=
    run_preserves_along (fun _ _ _ hs hG h => inv_step hrange hs hG h) (hinit.inv hn) hsound hrun
  have hsome : ∀ o, ((w.phases o).returned).isSome := by
    intro o
    rcases hall o with ⟨m, hm⟩
    rw [hm]
    rfl
  have hlog := hw.tally.log_ne_nil (hsome (Classical.arbitrary τ))
  rcases hw.value with ⟨-, hnil, -⟩ | ⟨item, v, hitem, hv, hvalue⟩
  · exact absurd hnil hlog
  · refine ⟨v, ?_, ?_⟩
    · rw [storedNumber, hitem]
      exact hv
    · rw [hvalue, hw.tally.amounts_eq_sum hsome]
      rfl

/-! ## Two first calls -/

/-- Two calls on one key. -/
def sampleSetup : Setup Bool where
  store := sampleConfig
  key := ascii "hits"
  delta := fun o => if o then 3 else 5
  ttl := fun _ => 60000000000
  pos := by decide

/-- No call has been made, and the server is empty. -/
def startWorld : World Bool where
  server := sampleServer
  phases := fun _ => .idle
  log := []

/-- The second call sends its first command after the first one has counted. -/
def serialized : List (Event Bool) :=
  [.call false, .count false, .zero false, .count false, .call true, .count true, .touch true,
    .touch false]

/-- The server after that run. -/
def serializedWorld : World Bool := (run (step sampleSetup) startWorld serialized).getD startWorld

/-- Both updates count. -/
theorem memcached_counter_sums_serialized :
    run (step sampleSetup) startWorld serialized = some serializedWorld ∧
    ∃ v, storedNumber sampleSetup serializedWorld = some v ∧
      (v : Int) = (0 : Nat) + ∑ o, (sampleSetup.delta o).toInt := by
  have hrun : run (step sampleSetup) startWorld serialized = some serializedWorld := rfl
  have hsound : Along (step sampleSetup) (Sound sampleSetup) startWorld serialized := by
    decide +kernel
  refine ⟨hrun, memcached_counter_sums ⟨fun _ => rfl, rfl⟩ rfl (by decide) hsound hrun ?_⟩
  intro o
  cases o
  · exact ⟨5, rfl⟩
  · exact ⟨8, rfl⟩

/-- Both calls find nothing; one stores its zero after the other one has counted. -/
def overlapping : List (Event Bool) :=
  [.call false, .call true, .count false, .count true, .zero false, .count false, .touch false,
    .zero true, .count true, .touch true]

/-- Two first calls lose an update: they add five and three to a missing key, both return without
error, and the stored number is three. -/
theorem zeroing_loses_update :
    ∃ w, startWorld.Initial ∧ startValue sampleSetup startWorld = some 0 ∧
      run (step sampleSetup) startWorld overlapping = some w ∧
      w.phases false = .done 5 ∧ w.phases true = .done 3 ∧
      storedNumber sampleSetup w = some 3 ∧ ∑ o, (sampleSetup.delta o).toInt = 8 :=
  ⟨_, ⟨fun _ => rfl, rfl⟩, rfl, rfl, rfl, rfl, rfl, rfl⟩

end Counters
end Memcached
end GoforjCache
