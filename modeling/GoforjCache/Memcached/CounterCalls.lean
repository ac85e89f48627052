import GoforjCache.Memcached.Timed
import GoforjCache.Nats.Counters

/-!
# Memcached - The rounds of a counter call

One round of `incr` sends the counter command to the server that the round-robin counter gives.
If the key is there, or the reply is an error, this is the last round.  If it is missing, `Set`
stores a zero at the server that the counter gives next, and another round begins.

Main results:

- Theorem `exec_counter`: the command that a call sends.
- Theorem `incr_last`: a round that does not find its key missing is the last one.
- Theorem `incr_again`: a round that finds its key missing continues two steps of the counter
  further, with a zero at the server in between.
- Theorems `incr_one`, `incr_expires`: a call with one address.
-/

namespace GoforjCache
namespace Memcached

open Function Foundation
open Nats.Counters (CounterOp)

/-! ## The command of a call -/

/-- The call of the store contract. -/
def toOp (key : Key) : CounterOp → Op
  | .increment delta ttl => .increment key delta ttl
  | .decrement delta ttl => .decrement key delta ttl

/-- The command that a call sends, and the delta that it sends with it. -/
def route : CounterOp → Bytes × Int64
  | .increment delta _ => if delta < 0 then (ascii "decr", -delta) else (ascii "incr", delta)
  | .decrement delta _ =>
    if delta < 0 then
      if -delta < 0 then (ascii "decr", - -delta) else (ascii "incr", -delta)
    else (ascii "decr", delta)

theorem route_verb (op : CounterOp) :
    (route op).1 = ascii "incr" ∨ (route op).1 = ascii "decr" := by
  cases op with
  | increment delta ttl =>
    dsimp only [route]
    split
    · exact Or.inr rfl
    · exact Or.inl rfl
  | decrement delta ttl =>
    dsimp only [route]
    split
    · split
      · exact Or.inr rfl
      · exact Or.inl rfl
    · exact Or.inr rfl

/-- A call is `incr` with the command and the delta of its route. -/
theorem exec_counter {σ γ : Type} (L : Link σ γ) (cfg : Config) (dials : UInt32 → Addr → Bool)
    (fuel : Nat) (key : Key) (op : CounterOp) :
    exec L cfg dials fuel (toOp key op) =
      (incr L cfg dials (route op).1 key (route op).2 fuel op.ttl).map .number := by
  cases op with
  | increment delta ttl =>
    simp only [toOp, exec, increment, decrement, route, CounterOp.ttl]
    split <;> rfl
  | decrement delta ttl =>
    simp only [toOp, exec, decrementCall, increment, decrement, route, CounterOp.ttl]
    split
    · split <;> rfl
    · rfl

/-! ## Rounds -/

/-- The address that a value of the round-robin counter gives. -/
def Config.address (cfg : Config) (rr : UInt32) : Option Addr :=
  (cfg.addrs.rotate (rr.toNat % cfg.addrs.length)).head?

section Rounds

variable {σ : Type} {B : Backend σ} {cfg : Config} {verb : Bytes} {key : Key} {delta : Int64}
  {ttl : Duration} {T : State σ Unit} {b : Addr}

/-- A call while its caller holds a connection has the same result. -/
theorem nested_reply {α : Type} (call : Call σ Unit α) (T : State σ Unit) :
    (call.nested T ()).1.reply = (call T).1 ∧ (call.nested T ()).2.1 = (call T).2 := by
  unfold Call.nested
  rcases call T with ⟨_ | _ | _, T'⟩
  · exact ⟨rfl, rfl⟩
  · exact ⟨rfl, rfl⟩
  · exact ⟨rfl, rfl⟩

theorem onServer_eq {α : Type} {f : Action σ Unit α} {r : Outcome α} {s : σ}
    (h : f (T.servers b) () = (r, s, ())) :
    onServer b f T () = (r, { T with servers := update T.servers b s }, ()) := by
  unfold onServer
  rw [h]

/-- A round whose reply is not `NOT_FOUND` is the last one. -/
theorem incr_last (hb : cfg.address T.rr = some b) {line : Bytes} {s : σ}
    (hcount : (opened B).count verb (cfg.cacheKey key) delta (T.servers b) () = (.ok line, s, ()))
    (hfound : line ≠ ascii "NOT_FOUND") (fuel : Nat) :
    let r := (opened B).counted (cfg.cacheKey key) (cfg.defaultTTL.resolve ttl) line s ()
    ∃ T', incr (opened B) cfg allDials verb key delta (fuel + 1) ttl T = (r.1.reply, T') ∧
      T'.servers = update T.servers b r.2.1 ∧ T'.rr = T.rr + 1 := by
  intro r
  unfold incr
  rcases withConn_at (B := B) hb with ⟨T₁, T', hsame, hrr, heq, hservers, hrr'⟩
  rw [← hsame] at hcount
  let T₂ : State σ Unit := { T₁ with servers := update T₁.servers b s }
  have hround : onServer b ((opened B).count verb (cfg.cacheKey key) delta) T₁ () =
      (.ok line, T₂, ()) := onServer_eq hcount
  have hserver : T₂.servers b = s := update_self _ _ _
  have hend := onServer_eq (T := T₂) (b := b) (f := (opened B).counted (cfg.cacheKey key)
    (cfg.defaultTTL.resolve ttl) line) (r := r.1) (s := r.2.1) (by rw [hserver])
  refine ⟨T', heq.trans ?_, hservers.trans ?_, hrr'.trans ?_⟩
  · rw [Action.andThen_ok hround, if_neg hfound, hend]
  · rw [Action.andThen_ok hround, if_neg hfound, hend]
    exact (update_idem _ _ _).trans (by rw [hsame])
  · rw [Action.andThen_ok hround, if_neg hfound, hend]
    exact hrr

/-- A round whose reply is `NOT_FOUND` stores a zero and goes on. -/
theorem incr_again (hb : cfg.address T.rr = some b) {b' : Addr}
    (hb' : cfg.address (T.rr + 1) = some b') {s s' : σ}
    (hcount : (opened B).count verb (cfg.cacheKey key) delta (T.servers b) () =
      (.ok (ascii "NOT_FOUND"), s, ()))
    (hset : (opened B).set (cfg.cacheKey key) (cfg.defaultTTL.resolve ttl) (ascii "0")
      (update T.servers b s b') () = (.ok (), s', ())) (fuel : Nat) :
    ∃ T₂ T' : State σ Unit,
      T₂.servers = update (update T.servers b s) b' s' ∧ T₂.rr = T.rr + 2 ∧
      incr (opened B) cfg allDials verb key delta (fuel + 1) ttl T =
        ((incr (opened B) cfg allDials verb key delta fuel (cfg.defaultTTL.resolve ttl) T₂).1, T') ∧
      T'.servers = (incr (opened B) cfg allDials verb key delta fuel
        (cfg.defaultTTL.resolve ttl) T₂).2.servers := by
  have hlifetime : cfg.defaultTTL.resolve (cfg.defaultTTL.resolve ttl) =
      cfg.defaultTTL.resolve ttl :=
    cfg.defaultTTL.resolve_of_pos (cfg.defaultTTL.resolve_pos _)
  rcases withConn_at (B := B) hb with ⟨T₁, T', hsame, hrr, heq, hservers, -⟩
  let T₃ : State σ Unit := { T₁ with servers := update T₁.servers b s }
  have hround : onServer b ((opened B).count verb (cfg.cacheKey key) delta) T₁ () =
      (.ok (ascii "NOT_FOUND"), T₃, ()) := onServer_eq (by rw [hsame, hcount])
  have hrr₃ : T₃.rr = T.rr + 1 := hrr
  have hservers₃ : T₃.servers = update T.servers b s := by
    rw [← hsame]
  rcases exchange_at (B := B) (f := (opened B).set (cfg.cacheKey key) (cfg.defaultTTL.resolve ttl)
    (ascii "0")) (hrr₃ ▸ hb' : cfg.address T₃.rr = some b') with ⟨T₂, hexchange, hservers₂, hrr₂⟩
  rw [hservers₃, hset] at hexchange hservers₂
  have hstore : (set (opened B) cfg allDials key (ascii "0") (cfg.defaultTTL.resolve ttl)).nested
      T₃ () = (.ok (), T₂, ()) := by
    unfold Call.nested set
    rw [hlifetime, hexchange]
    rfl
  rcases nested_reply (incr (opened B) cfg allDials verb key delta fuel
    (cfg.defaultTTL.resolve ttl)) T₂ with ⟨hreply, hstate⟩
  refine ⟨T₂, T', hservers₂, ?_, ?_, hservers.trans ?_⟩
  · rw [hrr₂, hrr₃, UInt32.add_assoc]
    rfl
  · refine heq.trans ?_
    rw [Action.andThen_ok hround, if_pos rfl, Action.andThen_ok hstore, hreply]
  · rw [Action.andThen_ok hround, if_pos rfl, Action.andThen_ok hstore, hstate]

end Rounds

/-- A store whose pooled connections are open and idle. -/
def State.connected {σ : Type} (T : State σ Unit) : State σ Conn :=
  (T.map fun _ => true).map Conn.idle

/-- A call on one-word keys does over the text of the protocol what it does over whole commands. -/
theorem exec_connected {σ : Type} (B : Backend σ) {cfg : Config} {op : Op}
    (hop : OneWordKeys cfg op) (dials : UInt32 → Addr → Bool) (fuel : Nat) (T : State σ Unit) :
    exec (wire B) cfg dials fuel op T.connected =
      ((exec (opened B) cfg dials fuel op T).1,
        (exec (opened B) cfg dials fuel op T).2.connected) := by
  have hopened : exec (commands B) cfg dials fuel op (T.map fun _ => true) = _ :=
    (linkSim_opened B).exec hop fuel T
  have hwire : exec (wire B) cfg dials fuel op T.connected = _ :=
    (linkSim_wire B).exec hop fuel (T.map fun _ => true)
  rw [hopened] at hwire
  exact hwire

/-! ## One address -/

/-- With one configured address, the counter always gives it. -/
theorem oneAddress_singleton {cfg : Config} {a : Addr} (h : cfg.addrs = [a]) :
    OneAddress cfg a := by
  intro rr
  rw [h]
  simp

/-- The number that a counter starts from: zero without an item. -/
def Server.startNumber (s : Server) (full : Key) : Option Nat :=
  match s.slot full with
  | none => some 0
  | some item => counterValue item.entry.data

variable {s : Server} {full : Key} {item : Item}

theorem Server.startNumber_of_slot (h : s.slot full = some item) :
    s.startNumber full = counterValue item.entry.data := by
  rw [Server.startNumber, h]

/-- A relative expiration time is in the future. -/
theorem live_deadlineAt {rate : Nat} (hrate : 0 < rate) {now exptime : Nat} (hpos : 0 < exptime)
    (hle : exptime ≤ maxRelative) (hexpires : item.expires = deadlineAt rate now exptime) :
    item.live now = true := by
  have hproduct : 0 < exptime * rate := Nat.mul_pos hpos hrate
  unfold deadlineAt at hexpires
  rw [if_neg (by omega), if_neg (by omega), if_pos (by exact_mod_cast hle)] at hexpires
  rw [Item.live, hexpires]
  simp only [Int.toNat_natCast, decide_eq_true_eq]
  omega

/-- An item that is live where it stands is found. -/
theorem Server.slot_of_items (hitem : s.items full = some item) (hlive : item.live s.clock = true) :
    s.slot full = some item := by
  rw [Server.slot, hitem, Option.filter_some]
  exact if_pos hlive

/-- What a counter call that returns the number `n` has done: the record of the key holds the
number and has the expiration time of the call. -/
structure Counted (rate : Nat) (full : Key) (ttl : Duration) (n : Nat) (s s' : Server) : Prop where
  clock : s'.clock = s.clock
  record : ∃ item, s'.items full = some item ∧ counterValue item.entry.data = some n ∧
    item.expires = deadlineAt rate s.clock (seconds ttl)
  other : ∀ other, other ≠ full → s'.slot other = s.slot other

/-- The record of a counter call that is found afterwards. -/
theorem Counted.slot {rate : Nat} (hrate : 0 < rate) {ttl : Duration} {n : Nat} {s' : Server}
    (h : Counted rate full ttl n s s') (httl : seconds ttl ≤ maxRelative) :
    ∃ item, s'.slot full = some item ∧ counterValue item.entry.data = some n ∧
      item.expires = deadlineAt rate s.clock (seconds ttl) := by
  rcases h.record with ⟨item, hitem, hvalue, hexpires⟩
  have hlive := live_deadlineAt hrate (seconds_pos ttl) httl hexpires
  rw [← h.clock] at hlive
  exact ⟨item, Server.slot_of_items hitem hlive, hvalue, hexpires⟩

section OneAddress

variable {cfg : Config} {a : Addr} {rate : Nat} {verb : Bytes} {key : Key} {delta : Int64}
  {T : State Server Unit}

/-- The key holds a number, and the sum is one that the store returns. -/
theorem incr_number (ha : OneAddress cfg a) (hverb : verb = ascii "incr" ∨ verb = ascii "decr")
    (hdelta : 0 ≤ delta) {item : Item} {v : Nat}
    (hitem : (T.servers a).slot (cfg.cacheKey key) = some item)
    (hv : counterValue item.entry.data = some v)
    (hn : counterStep verb v delta.toInt.toNat < 2 ^ 63) (ttl : Duration) (fuel : Nat) :
    ∃ T', incr (opened (timed rate)) cfg allDials verb key delta (fuel + 1) ttl T =
        (some (.ok (Int64.ofInt (counterStep verb v delta.toInt.toNat))), T') ∧
      Counted rate (cfg.cacheKey key) (cfg.defaultTTL.resolve ttl)
        (counterStep verb v delta.toInt.toNat) (T.servers a) (T'.servers a) := by
  rcases count_number rate (T.servers a) (cfg.cacheKey key) hverb hdelta hitem hv with
    ⟨s, item₁, hcount, hclock, hslot, hvalue, -, hother⟩
  rcases counted_number rate s (cfg.cacheKey key) hn (cfg.defaultTTL.resolve_pos ttl) hslot with
    ⟨s', hcounted, hclock', hitem', hother'⟩
  rcases incr_last (ha T.rr) hcount (formatNat_ne_notFound _).1 fuel with ⟨T', heq, hservers, -⟩
  rw [hcounted] at heq hservers
  have hserver : T'.servers a = s' := by
    rw [hservers, update_self]
  rw [hclock] at hitem'
  refine ⟨T', heq, ?_⟩
  rw [hserver]
  refine ⟨hclock'.trans hclock, ⟨_, hitem', hvalue, rfl⟩, ?_⟩
  intro other hne
  rw [hother' other hne, hother other hne]

variable {ttl : Duration}

/-- The key is missing: the call stores a zero and then counts. -/
theorem incr_missing (hrate : 0 < rate) (ha : OneAddress cfg a)
    (hverb : verb = ascii "incr" ∨ verb = ascii "decr") (hdelta : 0 ≤ delta)
    (hmissing : (T.servers a).slot (cfg.cacheKey key) = none)
    (httl : seconds (cfg.defaultTTL.resolve ttl) ≤ maxRelative) (fuel : Nat) :
    ∃ T', incr (opened (timed rate)) cfg allDials verb key delta (fuel + 2) ttl T =
        (some (.ok (Int64.ofInt (counterStep verb 0 delta.toInt.toNat))), T') ∧
      Counted rate (cfg.cacheKey key) (cfg.defaultTTL.resolve ttl)
        (counterStep verb 0 delta.toInt.toNat) (T.servers a) (T'.servers a) := by
  have hlifetime : cfg.defaultTTL.resolve (cfg.defaultTTL.resolve ttl) =
      cfg.defaultTTL.resolve ttl :=
    cfg.defaultTTL.resolve_of_pos (cfg.defaultTTL.resolve_pos _)
  have hsmall : counterStep verb 0 delta.toInt.toNat < 2 ^ 63 := by
    have hlt := delta.toInt_lt
    unfold counterStep
    split
    · rw [Nat.mod_eq_of_lt (by omega)]
      omega
    · omega
  rcases count_missing rate (T.servers a) (cfg.cacheKey key) hverb hdelta hmissing with
    ⟨s, hcount, hclock, hslot⟩
  rcases set_timed rate s (cfg.cacheKey key) (show (ascii "0").length ≤ maxAlloc by decide)
    (cfg.defaultTTL.resolve ttl) with ⟨s', item, hset, hclock', hitem, hdata, hexpires, hother⟩
  rcases incr_again (ha T.rr) (ha (T.rr + 1)) hcount (by rw [update_self]; exact hset)
    (fuel + 1) with ⟨T₂, T', hservers₂, -, heq, hservers⟩
  have hserver₂ : T₂.servers a = s' := by
    rw [hservers₂, update_self]
  have hlive : item.live s'.clock = true := by
    rw [hclock']
    exact live_deadlineAt hrate (seconds_pos _) httl hexpires
  have hslot' : (T₂.servers a).slot (cfg.cacheKey key) = some item := by
    rw [hserver₂]
    exact Server.slot_of_items hitem hlive
  have hzero : counterValue item.entry.data = some 0 := by
    rw [hdata]
    decide
  rcases incr_number ha hverb hdelta hslot' hzero hsmall (cfg.defaultTTL.resolve ttl) fuel with
    ⟨T₃, hincr, hcounted⟩
  rw [hincr] at heq hservers
  rw [hlifetime, hserver₂] at hcounted
  refine ⟨T', heq, ?_⟩
  rw [hservers]
  refine ⟨?_, ?_, ?_⟩
  · rw [hcounted.clock, hclock', hclock]
  · rcases hcounted.record with ⟨item', hrecord⟩
    rw [hclock', hclock] at hrecord
    exact ⟨item', hrecord⟩
  · intro other hne
    rw [hcounted.other other hne, hother other hne, hslot]

/-- A call whose sum is one that the store returns. -/
theorem incr_one (hrate : 0 < rate) (ha : OneAddress cfg a)
    (hverb : verb = ascii "incr" ∨ verb = ascii "decr") (hdelta : 0 ≤ delta) {v : Nat}
    (hv : (T.servers a).startNumber (cfg.cacheKey key) = some v)
    (hn : counterStep verb v delta.toInt.toNat < 2 ^ 63)
    (httl : seconds (cfg.defaultTTL.resolve ttl) ≤ maxRelative) (fuel : Nat) :
    ∃ T', incr (opened (timed rate)) cfg allDials verb key delta (fuel + 2) ttl T =
        (some (.ok (Int64.ofInt (counterStep verb v delta.toInt.toNat))), T') ∧
      Counted rate (cfg.cacheKey key) (cfg.defaultTTL.resolve ttl)
        (counterStep verb v delta.toInt.toNat) (T.servers a) (T'.servers a) := by
  unfold Server.startNumber at hv
  cases hslot : (T.servers a).slot (cfg.cacheKey key) with
  | none =>
    rw [hslot] at hv
    cases hv
    exact incr_missing hrate ha hverb hdelta hslot httl fuel
  | some item =>
    rw [hslot] at hv
    exact incr_number ha hverb hdelta hslot hv hn ttl (fuel + 1)

/-- A call whose reply is not a number. -/
theorem incr_refused (ha : OneAddress cfg a) {line : Bytes} {s : Server} {err : MemcachedError}
    {bad : Bool}
    (hcount : (opened (timed rate)).count verb (cfg.cacheKey key) delta (T.servers a) () =
      (.ok line, s, ())) (hfound : line ≠ ascii "NOT_FOUND")
    (hreply : counterReply line = .err err bad) (ttl : Duration) (fuel : Nat) :
    ∃ T', incr (opened (timed rate)) cfg allDials verb key delta (fuel + 1) ttl T =
        (some (.error err), T') ∧ T'.servers a = s := by
  have hcounted := counted_error rate s (cfg.cacheKey key) hreply (cfg.defaultTTL.resolve ttl)
  rcases incr_last (ha T.rr) hcount hfound fuel with ⟨T', heq, hservers, -⟩
  rw [hcounted] at heq hservers
  refine ⟨T', heq, ?_⟩
  rw [hservers, update_self]

/-- A call that returns a number has set the expiration time of its record. -/
theorem incr_expires (ha : OneAddress cfg a) (hverb : verb = ascii "incr" ∨ verb = ascii "decr")
    {fuel : Nat} {n : Int64} {T' : State Server Unit}
    (h : incr (opened (timed rate)) cfg allDials verb key delta fuel ttl T = (some (.ok n), T')) :
    (T'.servers a).clock = (T.servers a).clock ∧
      ∃ item, (T'.servers a).items (cfg.cacheKey key) = some item ∧
        item.expires = deadlineAt rate (T.servers a).clock
          (seconds (cfg.defaultTTL.resolve ttl)) := by
  -- a missing key is one more round, on the server with the zero
  induction fuel generalizing ttl T T' with
  | zero => cases h
  | succ fuel ih =>
    have hrefused : ∀ {line : Bytes} {s : Server},
        (opened (timed rate)).count verb (cfg.cacheKey key) delta (T.servers a) () =
          (.ok line, s, ()) → line ≠ ascii "NOT_FOUND" →
        counterReply line = .err .notNumber true → False := by
      intro line s hcount hfound hreply
      rcases incr_refused ha hcount hfound hreply ttl fuel with ⟨T₁, heq, -⟩
      rw [heq] at h
      cases h
    by_cases hdelta : 0 ≤ delta
    · cases hslot : (T.servers a).slot (cfg.cacheKey key) with
      | none =>
        rcases count_missing rate (T.servers a) (cfg.cacheKey key) hverb hdelta hslot with
          ⟨s, hcount, hclock, -⟩
        rcases set_timed rate s (cfg.cacheKey key)
          (show (ascii "0").length ≤ maxAlloc by decide) (cfg.defaultTTL.resolve ttl) with
          ⟨s', item, hset, hclock', -⟩
        rcases incr_again (ha T.rr) (ha (T.rr + 1)) hcount
          (by rw [update_self]; exact hset) fuel with
          ⟨T₂, T₃, hservers₂, -, heq, hservers⟩
        rw [heq] at h
        rcases Prod.mk.inj h with ⟨hreply, rfl⟩
        have hserver₂ : (T₂.servers a).clock = (T.servers a).clock := by
          rw [hservers₂, update_self, hclock', hclock]
        have hrest := ih (Prod.ext hreply rfl)
        rw [cfg.defaultTTL.resolve_of_pos (cfg.defaultTTL.resolve_pos _), hserver₂,
          ← hservers] at hrest
        exact hrest
      | some item =>
        cases hv : counterValue item.entry.data with
        | none =>
          rcases count_text rate (T.servers a) (cfg.cacheKey key) hverb hdelta hslot hv with
            ⟨s, line, hcount, hfound, hreply, -⟩
          exact (hrefused hcount hfound hreply).elim
        | some v =>
          rcases Nat.lt_or_ge (counterStep verb v delta.toInt.toNat) (2 ^ 63) with
            hsmall | hlarge
          · rcases incr_number ha hverb hdelta hslot hv hsmall ttl fuel with
              ⟨T₁, heq, hcounted⟩
            rw [heq] at h
            rcases Prod.mk.inj h with ⟨-, rfl⟩
            rcases hcounted.record with ⟨item', hitem, -, hexpires⟩
            exact ⟨hcounted.clock, item', hitem, hexpires⟩
          · rcases count_number rate (T.servers a) (cfg.cacheKey key) hverb hdelta hslot hv
              with ⟨s, -, hcount, -⟩
            exact (hrefused hcount (formatNat_ne_notFound _).1
              (counterReply_formatNat_of_le hlarge)).elim
    · rcases count_negative rate (T.servers a) (cfg.cacheKey key) hverb (Int64.not_le.mp hdelta)
        with ⟨s, line, hcount, hfound, hreply, -⟩
      exact (hrefused hcount hfound hreply).elim

end OneAddress

end Memcached
end GoforjCache
