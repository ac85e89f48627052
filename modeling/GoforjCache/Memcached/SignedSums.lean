import GoforjCache.Foundation.Transition
import GoforjCache.Memcached.CounterCalls
import GoforjCache.Memory.Store

/-!
# Memcached - Counters and signed sums

`Increment` and `Decrement` take signed deltas.  The store sends the size of a delta with
one of two commands of the server, whose counters are unsigned: `decr` stops at zero.  The
delta whose negation overflows is sent with its sign, which the server refuses.  Calls on one key
are made one after the other, on a Memcached server and on a memory store, and nothing expires.

Main results:

- Theorem `route_spec`: the command that a call sends, and the size of its delta.
- Theorem `Inv.exact`: while the sum is not negative, a call returns it, as the memory store
  does.
- Theorem `signed_sums_iff`: calls return signed sums if and only if no sum is negative.
- Theorem `decrement_below_zero`: otherwise the server stops at zero.
-/

namespace GoforjCache
namespace Memcached
namespace SignedSums

open Foundation Foundation.Transition
open Nats.Counters (CounterOp)

/-! ## Runs -/

/-- What is fixed: the two stores, the key, and a bound on the rounds of a call. -/
structure Setup where
  cfg : Config
  memory : DefaultTTL
  key : Key
  fuel : Nat

/-- The full key. -/
def Setup.full (S : Setup) : Key := S.cfg.cacheKey S.key

/-- The two stores, the clock of the memory store, and the sum of the deltas so far. -/
structure World where
  store : State Server Conn
  items : Memory.Items
  now : Instant
  sum : Int

/-- A counter call on both stores, or time passes. -/
inductive Event where
  | call (op : CounterOp)
  | tick (seconds : Nat)

/-- The Memcached store's reply to a call, and the state after it. -/
def memcachedReply (S : Setup) (w : World) (op : CounterOp) : Reply Res × State Server Conn :=
  exec (wire memcached) S.cfg allDials S.fuel (toOp S.key op) w.store

/-- The memory store's reply to a call, and the state after it. -/
def memoryReply (S : Setup) (w : World) (op : CounterOp) : Memory.Items × Res :=
  Memory.exec S.memory w.now w.items (toOp S.key op)

/-- One step. -/
def step (S : Setup) (w : World) : Event → Option World
  | .call op =>
    some
      { w with
        store := (memcachedReply S w op).2
        items := (memoryReply S w op).1
        sum := w.sum + op.amount }
  | .tick n =>
    some
      { w with
        store := { w.store with servers := fun addr => (w.store.servers addr).tick n }
        now := w.now + n * 1000000000 }

/-- No call has been made on the key, and the pooled connections are open. -/
structure World.Initial (S : Setup) (a : Addr) (w : World) : Prop where
  sum : w.sum = 0
  connected : ∃ T : State Server Unit, w.store = T.connected ∧ (T.servers a).slot S.full = none
  absent : w.items.get w.now S.key = none

/-- The side condition of a step.  Nothing expires: lifetimes are counted from now, and no time
passes that ends one.  And every sum is a 64-bit integer. -/
def Fits (S : Setup) (a : Addr) (w : World) : Event → Prop
  | .call op =>
    seconds (S.cfg.defaultTTL.resolve op.ttl) ≤ maxRelative ∧
      -2 ^ 63 ≤ w.sum + op.amount ∧ w.sum + op.amount < 2 ^ 63
  | .tick n =>
    ((w.store.servers a).tick n).slot S.full = (w.store.servers a).slot S.full ∧
      w.items.get (w.now + n * 1000000000) S.key = w.items.get w.now S.key

/-- The sum after the step is not negative. -/
def Nonneg (w : World) : Event → Prop
  | .call op => 0 ≤ w.sum + op.amount
  | .tick _ => True

instance (w : World) : DecidablePred (Nonneg w)
  | .call op => inferInstanceAs (Decidable (0 ≤ w.sum + op.amount))
  | .tick _ => .isTrue trivial

/-- A call returns the sum, as the memory store does. -/
def Exact (S : Setup) (w : World) : Event → Prop
  | .call op => ∃ n : Int64, n.toInt = w.sum + op.amount ∧
      (memcachedReply S w op).1 = some (.ok (.number n)) ∧ (memoryReply S w op).2 = .number n
  | .tick _ => True

/-- A call returns an error, or the sum. -/
def ErrorOrExact (S : Setup) (w : World) : Event → Prop
  | .call op => (∃ err, (memcachedReply S w op).1 = some (.error err)) ∨ Exact S w (.call op)
  | .tick _ => True

/-- The delta of a call can be negated. -/
def Negatable : Event → Prop
  | .call op => op.amount ≠ -2 ^ 63
  | .tick _ => True

/-! ## The sizes of deltas -/

/-- Negation is exact, except for the smallest number. -/
theorem toInt_neg_of_lt {d : Int64} (h : -2 ^ 63 < d.toInt) : (-d).toInt = -d.toInt := by
  have hlt := d.toInt_lt
  rw [Int64.toInt_neg]
  apply Int.bmod_eq_of_le <;> omega

theorem lt_zero_iff {d : Int64} : d < 0 ↔ d.toInt < 0 := by
  rw [Int64.lt_iff_toInt_lt]
  rfl

theorem zero_le_iff {d : Int64} : 0 ≤ d ↔ 0 ≤ d.toInt := by
  rw [Int64.le_iff_toInt_le]
  rfl

theorem le_amount (op : CounterOp) : -2 ^ 63 ≤ op.amount := by
  cases op with
  | increment delta ttl => exact delta.le_toInt
  | decrement delta ttl =>
    have hlt := delta.toInt_lt
    change -2 ^ 63 ≤ -delta.toInt
    omega

/-- The route of a call whose delta can be negated: the size of the delta, with the command for its
sign. -/
theorem route_spec {op : CounterOp} (hlo : -2 ^ 63 < op.amount) (hhi : op.amount < 2 ^ 63) :
    0 ≤ (route op).2 ∧
      (((route op).1 = ascii "incr" ∧ (route op).2.toInt = op.amount) ∨
        ((route op).1 = ascii "decr" ∧ (route op).2.toInt = -op.amount)) := by
  cases op with
  | increment delta ttl =>
    change -2 ^ 63 < delta.toInt at hlo
    have hneg := toInt_neg_of_lt hlo
    dsimp only [route, CounterOp.amount]
    split
    · rename_i hsign
      rw [lt_zero_iff] at hsign
      have hsize : 0 ≤ -delta := zero_le_iff.mpr (by omega)
      exact ⟨hsize, Or.inr ⟨rfl, hneg⟩⟩
    · rename_i hsign
      rw [lt_zero_iff] at hsign
      have hsize : 0 ≤ delta := zero_le_iff.mpr (by omega)
      exact ⟨hsize, Or.inl ⟨rfl, rfl⟩⟩
  | decrement delta ttl =>
    change -delta.toInt < 2 ^ 63 at hhi
    have hneg := toInt_neg_of_lt (d := delta) (by omega)
    dsimp only [route, CounterOp.amount]
    split
    · rename_i hsign
      rw [lt_zero_iff] at hsign
      have hsize : 0 ≤ -delta := zero_le_iff.mpr (by omega)
      rw [if_neg (Int64.not_lt.mpr hsize)]
      exact ⟨hsize, Or.inl ⟨rfl, hneg⟩⟩
    · rename_i hsign
      rw [lt_zero_iff] at hsign
      have hsize : 0 ≤ delta := zero_le_iff.mpr (by omega)
      exact ⟨hsize, Or.inr ⟨rfl, (Int.neg_neg _).symm⟩⟩

/-! ## The invariant -/

/-- While no sum has been negative, both stores hold it. -/
structure Inv (S : Setup) (a : Addr) (w : World) : Prop where
  nonneg : 0 ≤ w.sum
  lt : w.sum < 2 ^ 63
  store : ∃ T : State Server Unit,
    w.store = T.connected ∧ (T.servers a).startNumber S.full = some w.sum.toNat
  memory : Memory.readInt64 w.items w.now S.key = .ok (Int64.ofInt w.sum)

theorem World.Initial.inv {S : Setup} {a : Addr} {w : World} (h : w.Initial S a) : Inv S a w := by
  rcases h.connected with ⟨T, hT, hslot⟩
  refine ⟨h.sum.ge, by rw [h.sum]; norm_num, ⟨T, hT, ?_⟩, ?_⟩
  · rw [Server.startNumber, hslot, h.sum]
    rfl
  · rw [Memory.readInt64, h.absent, h.sum]
    rfl

section Calls

variable {S : Setup} {a : Addr} {w : World} {op : CounterOp}

/-- The key of a call. -/
theorem oneWordKeys (hkey : OneWord S.full) (op : CounterOp) :
    OneWordKeys S.cfg (toOp S.key op) := by
  intro key hmem
  have heq : key = S.key := by
    cases op <;> exact List.mem_singleton.mp hmem
  rw [heq]
  exact hkey

theorem memoryReply_eq (op : CounterOp)
    (h : Memory.readInt64 w.items w.now S.key = .ok (Int64.ofInt w.sum)) :
    (memoryReply S w op).2 = .number (Int64.ofInt (w.sum + op.amount)) ∧
      Memory.readInt64 (memoryReply S w op).1 w.now S.key =
        .ok (Int64.ofInt (w.sum + op.amount)) := by
  have hsum : Int64.ofInt w.sum + op.applied = Int64.ofInt (w.sum + op.amount) := by
    rw [Int64.ofInt_add, CounterOp.ofInt_amount]
  have hexec : memoryReply S w op = (w.items.set w.now S.key
      (Decimal.formatInt (Int64.ofInt (w.sum + op.amount))) (S.memory.resolve op.ttl),
        .number (Int64.ofInt (w.sum + op.amount))) := by
    rw [← hsum]
    cases op with
    | increment delta ttl => simp only [memoryReply, toOp, Memory.exec, Memory.increment, h]; rfl
    | decrement delta ttl =>
      simp only [memoryReply, toOp, Memory.exec, Memory.decrement, Memory.increment, h]; rfl
  rw [hexec]
  refine ⟨rfl, ?_⟩
  have hget : (w.items.set w.now S.key (Decimal.formatInt (Int64.ofInt (w.sum + op.amount)))
      (S.memory.resolve op.ttl)).get w.now S.key =
        some (Decimal.formatInt (Int64.ofInt (w.sum + op.amount))) :=
    Memory.get_of_written (S.memory.resolve_pos op.ttl) S.key _
  rw [Memory.readInt64, hget]
  simp only [Decimal.parseInt_formatInt]

/-- A call of the Memcached store is `incr` over whole commands. -/
theorem memcachedReply_eq (hkey : OneWord S.full) {T : State Server Unit}
    (hT : w.store = T.connected) {r : Except MemcachedError Int64} {T' : State Server Unit}
    (hincr : incr (opened (timed 1)) S.cfg allDials (route op).1 S.key (route op).2 S.fuel op.ttl
      T = (some r, T')) : memcachedReply S w op = (some (r.map .number), T'.connected) := by
  rw [timed_one] at hincr
  rw [memcachedReply, hT, exec_connected memcached (oneWordKeys hkey op), exec_counter]
  unfold Call.map Call.andThen
  rw [hincr]
  cases r with
  | error err => rfl
  | ok n => rfl

variable (ha : OneAddress S.cfg a) (hkey : OneWord S.full) (hfuel : 2 ≤ S.fuel)

include ha hkey hfuel

/-- What the Memcached store does with a sum that it holds: the server moves to the new sum, or
stops at zero. -/
theorem Inv.reply (h : Inv S a w) (hfits : Fits S a w (.call op)) (hmin : op.amount ≠ -2 ^ 63) :
    ∃ T : State Server Unit, (memcachedReply S w op).2 = T.connected ∧
      (memcachedReply S w op).1 = some (.ok (.number (Int64.ofInt (max 0 (w.sum + op.amount))))) ∧
      (T.servers a).startNumber S.full = some (max 0 (w.sum + op.amount)).toNat := by
  rcases h.store with ⟨T, hT, hstart⟩
  have hnonneg := h.nonneg
  have hlt := h.lt
  rcases hfits with ⟨httl, hlo, hhi⟩
  have hamount := le_amount op
  rcases route_spec (show -2 ^ 63 < op.amount by omega) (by omega) with ⟨hdelta, hroute⟩
  have hsize := zero_le_iff.mp hdelta
  -- the sizes that the server computes with
  have hstep : counterStep (route op).1 w.sum.toNat (route op).2.toInt.toNat =
      (max 0 (w.sum + op.amount)).toNat := by
    rcases hroute with ⟨hverb, hdelta'⟩ | ⟨hverb, hdelta'⟩
    · rw [hverb, counterStep, if_pos rfl, Nat.mod_eq_of_lt (by omega)]
      omega
    · rw [hverb, counterStep, if_neg (by decide)]
      omega
  have hsmall : counterStep (route op).1 w.sum.toNat (route op).2.toInt.toNat < 2 ^ 63 := by
    rw [hstep]
    omega
  rcases incr_one Nat.one_pos ha (route_verb op) hdelta hstart hsmall httl (S.fuel - 2) with
    ⟨T', hincr, hcounted⟩
  rw [Nat.sub_add_cancel hfuel, hstep] at hincr
  rw [hstep] at hcounted
  rcases hcounted.slot Nat.one_pos httl with ⟨item, hslot, hvalue, -⟩
  refine ⟨T', ?_, ?_, ?_⟩
  · rw [memcachedReply_eq hkey hT hincr]
  · rw [memcachedReply_eq hkey hT hincr, Int.toNat_of_nonneg (le_max_left _ _)]
    rfl
  · exact (Server.startNumber_of_slot hslot).trans hvalue

/-- While the sum is not negative, a call returns it, as the memory store does. -/
theorem Inv.exact (h : Inv S a w) (hfits : Fits S a w (.call op)) (hsum : 0 ≤ w.sum + op.amount) :
    Exact S w (.call op) ∧ Inv S a
      { w with
        store := (memcachedReply S w op).2
        items := (memoryReply S w op).1
        sum := w.sum + op.amount } := by
  have hlt := h.lt
  have hhi := hfits.2.2
  have hmin : op.amount ≠ -2 ^ 63 := by omega
  rcases h.reply ha hkey hfuel hfits hmin with ⟨T, hstore, hreply, hstart⟩
  rcases memoryReply_eq op h.memory with ⟨hmemory, hread⟩
  rw [max_eq_right hsum] at hreply hstart
  refine ⟨⟨_, ?_, hreply, hmemory⟩, hsum, hhi, ⟨T, hstore, hstart⟩, hread⟩
  exact Int64.toInt_ofInt_of_le (by omega) (by omega)

/-- A sum that becomes negative is neither returned nor reported as an error, unless the delta
cannot be negated. -/
theorem Inv.not_errorOrExact (h : Inv S a w) (hfits : Fits S a w (.call op))
    (hmin : op.amount ≠ -2 ^ 63) (hsum : w.sum + op.amount < 0) : ¬ErrorOrExact S w (.call op) := by
  rcases h.reply ha hkey hfuel hfits hmin with ⟨T, -, hreply, -⟩
  rw [max_eq_left hsum.le] at hreply
  rintro (⟨err, herr⟩ | ⟨n, hn, hexact, -⟩)
  · rw [hreply] at herr
    cases herr
  · rw [hreply] at hexact
    have hzero : Int64.ofInt 0 = n := by
      injection hexact with hexact
      injection hexact with hexact
      injection hexact
    rw [← hzero] at hn
    have hval : (Int64.ofInt 0).toInt = 0 := by decide
    omega

omit hkey hfuel ha in
/-- Time that ends no lifetime keeps the invariant. -/
theorem Inv.tick (h : Inv S a w) {n : Nat} (hfits : Fits S a w (.tick n)) {w' : World}
    (hstep : step S w (.tick n) = some w') : Inv S a w' := by
  cases hstep
  rcases h.store with ⟨T, hT, hstart⟩
  rcases hfits with ⟨hslot, hget⟩
  refine ⟨h.nonneg, h.lt,
    ⟨{ T with servers := fun addr => (T.servers addr).tick n }, by rw [hT]; rfl, ?_⟩, ?_⟩
  · rw [hT] at hslot
    have hsame : ((T.servers a).tick n).slot S.full = (T.servers a).slot S.full := hslot
    rw [← hstart, Server.startNumber, Server.startNumber, hsame]
  · have hread := h.memory
    unfold Memory.readInt64 at hread ⊢
    rw [hget]
    exact hread

/-- A step keeps the invariant, as long as the sum is not negative. -/
theorem inv_step {e : Event} (h : Inv S a w) (hfits : Fits S a w e) (hsum : Nonneg w e)
    {w' : World} (hstep : step S w e = some w') : Inv S a w' := by
  cases e with
  | call op =>
    cases hstep
    exact (h.exact ha hkey hfuel hfits hsum).2
  | tick n => exact h.tick hfits hstep

end Calls

/-! ## Signed sums -/

/--
Memcached counters are signed sums as long as no sum is negative, and only then.  Take any calls of
`Increment` and `Decrement` on one absent key of one server, with any deltas, in which
nothing expires and every sum is a 64-bit integer.  If no sum is negative, every call returns the
sum of the deltas so far, as the memory store does.  And calls whose deltas can be negated return an
error or that sum if and only if no sum is negative.
-/
theorem signed_sums_iff {S : Setup} {a : Addr} (ha : OneAddress S.cfg a) (hkey : OneWord S.full)
    (hfuel : 2 ≤ S.fuel) {start : World} (hstart : start.Initial S a) {es : List Event}
    (hfits : Along (step S) (Fits S a) start es) :
    (Along (step S) Nonneg start es → Along (step S) (Exact S) start es) ∧
    ((∀ e ∈ es, Negatable e) →
      (Along (step S) (ErrorOrExact S) start es ↔ Along (step S) Nonneg start es)) := by
  have hexact : Along (step S) Nonneg start es → Along (step S) (Exact S) start es := by
    intro hnonneg
    refine along_of_invariant (G := fun w e => Fits S a w e ∧ Nonneg w e)
      (fun w e w' hw hG hstep => inv_step ha hkey hfuel hw hG.1 hG.2 hstep) ?_ hstart.inv
      (hfits.and hnonneg)
    intro w e hw hG
    cases e with
    | call op => exact (hw.exact ha hkey hfuel hG.1 hG.2).1
    | tick n => trivial
  refine ⟨hexact, ?_⟩
  intro hmin
  have hnegatable : Along (step S) (fun _ => Negatable) start es :=
    along_of_forall (fun e he _ => hmin e he) start
  have hsum : ∀ w e, Inv S a w → Fits S a w e ∧ ErrorOrExact S w e ∧ Negatable e → Nonneg w e := by
    intro w e hw hG
    cases e with
    | call op =>
      by_contra hneg
      exact hw.not_errorOrExact ha hkey hfuel hG.1 hG.2.2 (not_le.mp hneg) hG.2.1
    | tick n => trivial
  constructor
  · intro herror
    exact along_of_invariant
      (fun w e w' hw hG hstep => inv_step ha hkey hfuel hw hG.1 (hsum w e hw hG) hstep) hsum
      hstart.inv (hfits.and (herror.and hnegatable))
  · intro hnonneg
    refine along_of_invariant (P := fun _ => True) (fun _ _ _ _ _ _ => trivial) ?_ trivial
      (hexact hnonneg)
    intro w e _ hw
    cases e with
    | call op => exact Or.inr hw
    | tick n => trivial

/-- A store with one address, and a memory store with the same default lifetime. -/
def sampleSetup : Setup where
  cfg := sampleConfig
  memory := sampleConfig.defaultTTL
  key := ascii "hits"
  fuel := 2

/-- Both stores are empty. -/
def freshWorld : World where
  store := State.connected ⟨fun _ => sampleServer, fun _ => [], 0⟩
  items := fun _ => none
  now := 0
  sum := 0

theorem freshWorld_initial : freshWorld.Initial sampleSetup (ascii "127.0.0.1:11211") :=
  ⟨rfl, ⟨_, rfl, rfl⟩, rfl⟩

/-- Five, minus three, and minus two. -/
def downToZero : List Event :=
  [.call (.increment 5 60000000000), .call (.decrement 3 60000000000),
    .call (.increment (-2) 60000000000)]

/-- Sums that do not become negative. -/
theorem signed_sums_downToZero :
    Along (step sampleSetup) (Exact sampleSetup) freshWorld downToZero := by
  have hkey : OneWord sampleSetup.full := by decide +kernel
  have hfits : Along (step sampleSetup) (Fits sampleSetup (ascii "127.0.0.1:11211")) freshWorld
      downToZero := by
    refine ⟨⟨by decide, by decide, by decide⟩, fun _ h => ?_⟩
    cases h
    refine ⟨⟨by decide, by decide, by decide⟩, fun _ h => ?_⟩
    cases h
    exact ⟨⟨by decide, by decide, by decide⟩, fun _ _ => trivial⟩
  exact (signed_sums_iff (oneAddress_singleton rfl) hkey (by decide) freshWorld_initial hfits).1
    (by decide +kernel)

/-- One is taken from an absent counter: Memcached returns zero, and the memory store returns minus
one. -/
theorem decrement_below_zero :
    freshWorld.Initial sampleSetup (ascii "127.0.0.1:11211") ∧
      freshWorld.sum + (CounterOp.decrement 1 60000000000).amount = -1 ∧
      (memcachedReply sampleSetup freshWorld (.decrement 1 60000000000)).1 =
        some (.ok (.number 0)) ∧
      (memoryReply sampleSetup freshWorld (.decrement 1 60000000000)).2 = .number (-1) :=
  ⟨freshWorld_initial, rfl, rfl, rfl⟩

end SignedSums
end Memcached
end GoforjCache
