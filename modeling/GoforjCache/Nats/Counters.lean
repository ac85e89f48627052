import GoforjCache.Foundation.Decimal
import GoforjCache.Foundation.RevisionedRegister
import GoforjCache.Foundation.Transition
import GoforjCache.Nats.Envelope

/-!
# NATS - Counters by revision

`Increment` and `Decrement` of the NATS store in envelope mode: a loop of at most
sixteen attempts, each a read, a look at the envelope and the clock, and a conditional write.
An expired envelope is purged first, and the purge is not conditional.  Any number of calls on
one bucket key take these steps in any order; the clock moves between any two of them, and a
KeyValue call may also fail for another reason.

Main results:

- Theorem `nats_counter_sums`: when every purge that takes effect finds the revision that was read,
  or nothing, the stored number is the start value plus all deltas, and the returned numbers are
  the partial sums in the order of the writes.
- Theorem `purge_loses_update`: otherwise a purge can remove the counter that another call
  has just written.
-/

namespace GoforjCache
namespace Nats
namespace Counters

open Function Foundation Foundation.Transition Foundation.Decimal

/-! ## Calls in flight -/

/-- A counter call. -/
inductive CounterOp where
  | increment (delta : Int64) (ttl : Duration)
  | decrement (delta : Int64) (ttl : Duration)
deriving DecidableEq

/-- The delta that `Increment` is called with; `Decrement` negates its own. -/
def CounterOp.applied : CounterOp → Int64
  | increment delta _ => delta
  | decrement delta _ => -delta

/-- The lifetime of the written envelope. -/
def CounterOp.ttl : CounterOp → Duration
  | increment _ ttl => ttl
  | decrement _ ttl => ttl

/-- The change a caller asks for. -/
def CounterOp.amount : CounterOp → Int
  | increment delta _ => delta.toInt
  | decrement delta _ => -delta.toInt

/-- Program counter of one call.  A revision of zero stands for a key without a record. -/
inductive Phase where
  | idle
  /-- `Get` is next, in the given attempt. -/
  | reading (op : CounterOp) (attempt : Nat)
  /-- `Get` has returned an entry. -/
  | inspecting (op : CounterOp) (attempt : Nat) (revision : Nat) (value : Bytes)
  /-- The entry has expired; `Purge` is next. -/
  | purging (op : CounterOp) (attempt : Nat) (revision : Nat)
  /-- The current number is known. -/
  | counted (op : CounterOp) (attempt : Nat) (revision : Nat) (current : Int64)
  /-- The envelope is made; `Create` or `Update` is next. -/
  | writing (op : CounterOp) (attempt : Nat) (revision : Nat) (next : Int64) (body : Bytes)
  | done (result : Except CacheError Int64)

/-- What is fixed: JSON decoding, the default lifetime, and the key for the error text. -/
structure Config where
  unmarshal : Bytes → Option Envelope
  defaultTTL : DefaultTTL
  key : Key

/-- A call that has written, with the number it returns. -/
structure Applied (τ : Type) where
  slot : τ
  op : CounterOp
  result : Int64

/-- The bucket key, the clock, one call per slot, and the writes so far. -/
structure World (τ : Type) where
  register : Register Bytes
  now : Instant
  phases : τ → Phase
  log : List (Applied τ)

/-- The steps.  `purge` may fail, which the code ignores; `fail` is another KeyValue
call that fails without effect for a reason of its own. -/
inductive Event (τ : Type) where
  | call (o : τ) (op : CounterOp)
  | get (o : τ)
  | inspect (o : τ)
  | purge (o : τ) (skip : Nat) (ok : Bool)
  | encode (o : τ)
  | write (o : τ) (skip : Nat)
  | fail (o : τ) (err : CacheError)
  | tick (d : Nat)

/-- What a look at an entry tells. -/
inductive Look where
  | failed (err : CacheError)
  | expired
  | number (current : Int64)
deriving DecidableEq

/-- The number in the bytes of an entry; no bytes count as zero. -/
def parseRaw (cfg : Config) (raw : Bytes) : Look :=
  if 0 < raw.length then
    match parseInt raw with
    | some n => .number n
    | none => .failed (.notNumeric cfg.key)
  else .number 0

/-- The look at an entry. -/
def look (cfg : Config) (now : Instant) (value : Bytes) : Look :=
  match decodeEnvelope cfg.unmarshal value with
  | .error err => .failed err
  | .ok none => parseRaw cfg value
  | .ok (some env) => if env.expired now then .expired else parseRaw cfg env.value

/-- Where a call goes after a look. -/
def Look.next (op : CounterOp) (attempt revision : Nat) : Look → Phase
  | failed err => .done (.error err)
  | expired => .purging op attempt revision
  | number current => .counted op attempt revision current

/-- The next attempt after a conflict; the loop makes sixteen. -/
def retry (op : CounterOp) (attempt : Nat) : Phase :=
  if attempt + 1 < 16 then .reading op (attempt + 1) else .done (.error .natsRetryLimit)

variable {τ : Type} [DecidableEq τ]

/-- Move one slot to a new program counter. -/
def World.put (w : World τ) (o : τ) (p : Phase) : World τ :=
  { w with phases := update w.phases o p }

/-- A write that succeeded. -/
def World.wrote (w : World τ) (o : τ) (op : CounterOp) (next : Int64)
    (register : Register Bytes) : World τ :=
  { w with
    register := register
    phases := update w.phases o (.done (.ok next))
    log := w.log ++ [⟨o, op, next⟩] }

/-- One step. -/
def step (cfg : Config) (w : World τ) : Event τ → Option (World τ)
  | .call o op =>
    match w.phases o with
    | .idle => some (w.put o (.reading op 0))
    | _ => none
  | .get o =>
    match w.phases o with
    | .reading op attempt =>
      match w.register.value with
      | none => some (w.put o (.counted op attempt 0 0))
      | some value => some (w.put o (.inspecting op attempt w.register.revision value))
    | _ => none
  | .inspect o =>
    match w.phases o with
    | .inspecting op attempt revision value =>
      some (w.put o ((look cfg w.now value).next op attempt revision))
    | _ => none
  | .purge o skip ok =>
    match w.phases o with
    | .purging op attempt _ =>
      -- the purge names no revision
      some { w with
        register := if ok then w.register.purge skip else w.register
        phases := update w.phases o (.counted op attempt 0 0) }
    | _ => none
  | .encode o =>
    match w.phases o with
    | .counted op attempt revision current =>
      let next := current + op.applied
      some (w.put o (.writing op attempt revision next
        (encodeEnvelope cfg.defaultTTL w.now (formatInt next) op.ttl)))
    | _ => none
  | .write o skip =>
    match w.phases o with
    | .writing op attempt revision next body =>
      let written :=
        if revision = 0 then w.register.create skip body
        else w.register.update skip body revision
      match written with
      | some r => some (w.wrote o op next r)
      | none => some (w.put o (retry op attempt))
    | _ => none
  | .fail o err =>
    match w.phases o with
    | .reading _ _ | .writing _ _ _ _ _ => some (w.put o (.done (.error err)))
    | _ => none
  | .tick d => some { w with now := w.now + d }

/-- No call has been made; revisions of records are positive. -/
structure World.Initial (w : World τ) : Prop where
  idle : ∀ o, w.phases o = .idle
  log : w.log = []
  positive : w.register.value ≠ none → 0 < w.register.revision

/-- The number the key starts with: zero without a record and for an expired one. -/
def startValue (cfg : Config) (w : World τ) : Option Int64 :=
  match w.register.value with
  | none => some 0
  | some value =>
    match look cfg w.now value with
    | .failed _ => none
    | .expired => some 0
    | .number n => some n

/-- The number in the record of the key, whether or not it has expired. -/
def storedNumber (cfg : Config) (w : World τ) : Option Int64 :=
  match w.register.value with
  | none => none
  | some value =>
    match decodeEnvelope cfg.unmarshal value with
    | .ok (some env) => parseInt env.value
    | _ => none

/-- The sum of the changes that the calls of a list asked for. -/
def amounts (log : List (Applied τ)) : Int := (log.map fun e => e.op.amount).sum

/-- The results along a list of writes are the partial sums from `n` on. -/
def Sums (n : Int) : List (Applied τ) → Prop
  | [] => True
  | e :: log => e.result.toInt = n + e.op.amount ∧ Sums (n + e.op.amount) log

/-- All partial sums from `n` on are 64-bit integers. -/
def InRange (n : Int) : List (Applied τ) → Prop
  | [] => True
  | e :: log =>
    (-2 ^ 63 ≤ n + e.op.amount ∧ n + e.op.amount < 2 ^ 63) ∧ InRange (n + e.op.amount) log

/-- The side condition of a step, for runs from `start`.  No lifetime ends during the run:
a record looks expired only if it is the one at the start and looked so then.  And a purge that
takes effect finds the revision that was read, or no record. -/
def Sound (cfg : Config) (start w : World τ) : Event τ → Prop
  | .inspect o =>
    match w.phases o with
    | .inspecting _ _ revision value =>
      look cfg w.now value = .expired ↔
        revision = start.register.revision ∧ look cfg start.now value = .expired
    | _ => True
  | .purge o _ ok =>
    match w.phases o with
    | .purging _ _ revision =>
      ok = true → w.register.revision = revision ∨ w.register.value = none
    | _ => True
  | _ => True

instance (cfg : Config) (start w : World τ) : DecidablePred (Sound cfg start w) := by
  intro e
  cases e with
  | inspect o =>
    dsimp only [Sound]
    split <;> infer_instance
  | purge o skip ok =>
    dsimp only [Sound]
    split <;> infer_instance
  | call | get | encode | write | fail | tick => exact .isTrue trivial

/-! ## Numbers -/

/-- The number after the calls of a list, in 64-bit arithmetic. -/
def total (n : Int64) (log : List (Applied τ)) : Int64 := Int64.ofInt (n.toInt + amounts log)

/-- What `Increment` adds is what the caller asked for, up to wrapping. -/
theorem CounterOp.ofInt_amount (op : CounterOp) : Int64.ofInt op.amount = op.applied := by
  cases op with
  | increment delta ttl => exact Int64.ofInt_toInt delta
  | decrement delta ttl => rw [amount, Int64.ofInt_neg, Int64.ofInt_toInt, applied]

omit [DecidableEq τ] in
@[simp]
theorem total_nil (n : Int64) : total n ([] : List (Applied τ)) = n := by
  simp [total, amounts]

omit [DecidableEq τ] in
/-- One more call. -/
theorem total_concat (n : Int64) (log : List (Applied τ)) (e : Applied τ) :
    total n (log ++ [e]) = total n log + e.op.applied := by
  have hsum : n.toInt + amounts (log ++ [e]) = n.toInt + amounts log + e.op.amount := by
    simp [amounts, add_assoc]
  rw [total, hsum, Int64.ofInt_add, e.op.ofInt_amount]
  rfl

/-- The results along a list of writes are the partial sums, up to wrapping. -/
def WrappedSums (n : Int) : List (Applied τ) → Prop
  | [] => True
  | e :: log => e.result = Int64.ofInt (n + e.op.amount) ∧ WrappedSums (n + e.op.amount) log

variable {n : Int} {log : List (Applied τ)} {cfg : Config}

omit [DecidableEq τ] in
/-- One more write with the total as its result. -/
theorem WrappedSums.concat (h : WrappedSums n log) {e : Applied τ}
    (he : e.result = Int64.ofInt (n + amounts (log ++ [e]))) : WrappedSums n (log ++ [e]) := by
  induction log generalizing n with
  | nil =>
    refine ⟨?_, trivial⟩
    simpa [amounts] using he
  | cons e' log ih =>
    refine ⟨h.1, ih h.2 ?_⟩
    rw [he]
    simp [amounts, add_assoc]

/-- A number in range is not changed by wrapping. -/
theorem toInt_ofInt_of_range (h : -2 ^ 63 ≤ n ∧ n < 2 ^ 63) : (Int64.ofInt n).toInt = n :=
  Int64.toInt_ofInt_of_le h.1 h.2

omit [DecidableEq τ] in
/-- While all partial sums are in range, nothing wraps. -/
theorem WrappedSums.sums (h : WrappedSums n log) (hrange : InRange n log) : Sums n log := by
  induction log generalizing n with
  | nil => trivial
  | cons e log ih =>
    refine ⟨?_, ih h.2 hrange.2⟩
    rw [h.1, toInt_ofInt_of_range hrange.1]

omit [DecidableEq τ] in
/-- The last partial sum is in range too. -/
theorem InRange.total (hrange : InRange n log) (hn : -2 ^ 63 ≤ n ∧ n < 2 ^ 63) :
    -2 ^ 63 ≤ n + amounts log ∧ n + amounts log < 2 ^ 63 := by
  induction log generalizing n with
  | nil => simpa [amounts] using hn
  | cons e log ih =>
    have hrest := ih hrange.2 hrange.1
    simpa [amounts, add_assoc] using hrest

/-! ## Looks at a record -/

/-- Looks that do not find a record expired agree. -/
theorem look_eq {now now' : Instant} {value : Bytes} (h : look cfg now value ≠ .expired)
    (h' : look cfg now' value ≠ .expired) : look cfg now value = look cfg now' value := by
  unfold look at h h' ⊢
  cases hdecode : decodeEnvelope cfg.unmarshal value with
  | error err => rfl
  | ok wrapped =>
    cases wrapped with
    | none => rfl
    | some env =>
      rw [hdecode] at h h'
      dsimp only at h h' ⊢
      split at h
      · exact absurd rfl h
      · split at h'
        · exact absurd rfl h'
        · rename_i hnow hnow'
          rw [if_neg hnow, if_neg hnow']

/-- The text of a number is not empty. -/
theorem formatInt_length_pos (n : Int64) : 0 < (formatInt n).length := by
  rcases Nat.eq_zero_or_pos (formatInt n).length with hzero | hpos
  · have hnil := List.length_eq_zero_iff.mp hzero
    have hparse := parseInt_formatInt n
    rw [hnil] at hparse
    cases hparse
  · exact hpos

/-- The number in the text of a number. -/
theorem parseRaw_formatInt (cfg : Config) (n : Int64) : parseRaw cfg (formatInt n) = .number n := by
  rw [parseRaw, if_pos (formatInt_length_pos n), parseInt_formatInt]

/-- A look at a counter that has not expired finds its number. -/
theorem look_encode {now made : Instant} {n : Int64} {ttl : Duration}
    (h : look cfg now (encodeEnvelope cfg.defaultTTL made (formatInt n) ttl) ≠ .expired) :
    look cfg now (encodeEnvelope cfg.defaultTTL made (formatInt n) ttl) = .number n := by
  unfold look at h ⊢
  rw [decodeEnvelope_encode] at h ⊢
  dsimp only at h ⊢
  split at h
  · exact absurd rfl h
  · rename_i hlive
    rw [if_neg hlive, parseRaw_formatInt]

/-! ## The invariant -/

/-- The number that a call has returned. -/
def Phase.returned : Phase → Option Int64
  | done (.ok n) => some n
  | _ => none

theorem Phase.returned_eq_some {p : Phase} {n : Int64} :
    p.returned = some n ↔ p = .done (.ok n) := by
  constructor
  · intro h
    unfold returned at h
    split at h
    · rw [Option.some.inj h]
    · cases h
  · intro h
    rw [h]
    rfl

/-- What a call knows when it has counted: without a revision the number is zero, and while the
key is at its revision the number is the total so far. -/
structure Counted (n : Int64) (register : Register Bytes) (log : List (Applied τ))
    (revision : Nat) (current : Int64) : Prop where
  zero : revision = 0 → current = 0
  le : revision ≤ register.revision
  current_eq : revision ≠ 0 → register.revision = revision → current = total n log

/-- What holds of a call at its program counter. -/
def PhaseOk (cfg : Config) (start : World τ) (n : Int64) (w : World τ) : Phase → Prop
  | .inspecting _ _ revision value =>
    w.register.Remembers revision value ∧ 0 < revision ∧
      (revision = start.register.revision → start.register.value = some value)
  | .purging _ _ revision => revision = start.register.revision ∧ n = 0
  | .counted _ _ revision current => Counted n w.register w.log revision current
  | .writing op _ revision next body =>
    ∃ current made, Counted n w.register w.log revision current ∧
      next = current + op.applied ∧
      body = encodeEnvelope cfg.defaultTTL made (formatInt next) op.ttl
  | _ => True

/-- The invariant of runs from `start` with start value `n`: a key without a record
has not been counted yet, a key at the start revision is as it was, and any other record is an
envelope with the total so far. -/
structure Inv (cfg : Config) (start : World τ) (n : Int64) (w : World τ) : Prop where
  le : start.register.revision ≤ w.register.revision
  positive : w.register.value ≠ none → 0 < w.register.revision
  empty : w.register.value = none → w.log = [] ∧ n = 0
  original : w.register.revision = start.register.revision →
    w.register = start.register ∧ w.log = []
  written : ∀ value, w.register.value = some value →
    w.register.revision ≠ start.register.revision →
    ∃ made ttl, value = encodeEnvelope cfg.defaultTTL made (formatInt (total n w.log)) ttl
  sums : WrappedSums n.toInt w.log
  nodup : (w.log.map Applied.slot).Nodup
  returned : ∀ o m, (w.phases o).returned = some m ↔ ∃ e ∈ w.log, e.slot = o ∧ e.result = m
  phases : ∀ o, PhaseOk cfg start n w (w.phases o)

omit [DecidableEq τ] in
/-- The invariant holds initially. -/
theorem World.Initial.inv {start : World τ} (h : start.Initial) {n : Int64}
    (hn : startValue cfg start = some n) : Inv cfg start n start where
  le := le_rfl
  positive := h.positive
  empty := by
    intro hnone
    rw [startValue, hnone] at hn
    exact ⟨h.log, (Option.some.inj hn).symm⟩
  original := fun _ => ⟨rfl, h.log⟩
  written := fun _ _ hne => absurd rfl hne
  sums := by
    rw [h.log]
    trivial
  nodup := by
    rw [h.log]
    exact List.nodup_nil
  returned := by
    intro o m
    rw [h.idle o, h.log]
    simp [Phase.returned]
  phases := by
    intro o
    rw [h.idle o]
    trivial

section Steps

variable {cfg : Config} {start w : World τ} {n : Int64} {o : τ} {p : Phase} {w' : World τ}
  {skip attempt revision : Nat}

/-- A step that only moves one call, to no result, keeps the invariant. -/
theorem Inv.put (hw : Inv cfg start n w) (hbefore : (w.phases o).returned = none)
    (hafter : p.returned = none) (hp : PhaseOk cfg start n w p) :
    Inv cfg start n (w.put o p) where
  le := hw.le
  positive := hw.positive
  empty := hw.empty
  original := hw.original
  written := hw.written
  sums := hw.sums
  nodup := hw.nodup
  returned := by
    refine (forall_update_iff w.phases fun q p => ∀ m, p.returned = some m ↔
      ∃ e ∈ w.log, e.slot = q ∧ e.result = m).mpr ⟨?_, fun q _ => hw.returned q⟩
    rw [hafter, ← hbefore]
    exact hw.returned o
  phases := (forall_update_iff w.phases fun _ => PhaseOk cfg start n w).mpr
    ⟨hp, fun q _ => hw.phases q⟩

section

omit [DecidableEq τ]

/-- What holds of a call survives a change of the key. -/
theorem PhaseOk.change (h : PhaseOk cfg start n w p) {value : Option Bytes}
    (hregister : w'.register = w.register.change skip value) : PhaseOk cfg start n w' p := by
  have hcounted : ∀ {revision current}, Counted n w.register w.log revision current →
      Counted n w'.register w'.log revision current := by
    intro revision current hc
    have hle := hc.le
    have hlt : revision < w'.register.revision := by
      rw [hregister, Register.change]
      dsimp only
      omega
    exact ⟨hc.zero, hlt.le, fun _ heq => absurd heq hlt.ne'⟩
  cases p with
  | inspecting op attempt revision v =>
    refine ⟨?_, h.2⟩
    rw [hregister]
    exact h.1.change skip value
  | purging op attempt revision => exact h
  | counted op attempt revision current => exact hcounted h
  | writing op attempt revision next body =>
    obtain ⟨current, made, hc, hnext, hbody⟩ := h
    exact ⟨current, made, hcounted hc, hnext, hbody⟩
  | idle | reading op attempt | done result => trivial

/-- After a look a call knows the total so far, or that the start value was zero. -/
theorem Inv.look_ok (hw : Inv cfg start n w) (hn : startValue cfg start = some n) {op : CounterOp}
    {value : Bytes} (hok : PhaseOk cfg start n w (.inspecting op attempt revision value))
    (hsound : look cfg w.now value = .expired ↔
      revision = start.register.revision ∧ look cfg start.now value = .expired) :
    PhaseOk cfg start n w ((look cfg w.now value).next op attempt revision) := by
  obtain ⟨hread, hpos, horiginal⟩ := hok
  cases hlook : look cfg w.now value with
  | failed err => trivial
  | expired =>
    obtain ⟨hrevision, hexpired⟩ := hsound.mp hlook
    refine ⟨hrevision, ?_⟩
    rw [startValue, horiginal hrevision] at hn
    dsimp only at hn
    rw [hexpired] at hn
    exact (Option.some.inj hn).symm
  | number current =>
    have hlive : look cfg w.now value ≠ .expired := by
      rw [hlook]
      exact Look.noConfusion
    refine ⟨fun hzero => absurd hzero hpos.ne', hread.le, ?_⟩
    intro _ hcurrent
    have hvalue := hread.value_eq hcurrent
    by_cases hrevision : revision = start.register.revision
    · -- the record is the one at the start, and looked the same then
      have hstart : look cfg start.now value ≠ .expired :=
        fun hexpired => hlive (hsound.mpr ⟨hrevision, hexpired⟩)
      have hsame := look_eq hlive hstart
      rw [startValue, horiginal hrevision] at hn
      dsimp only at hn
      rw [← hsame, hlook] at hn
      rw [(hw.original (hcurrent.trans hrevision)).2, total_nil]
      exact Option.some.inj hn
    · obtain ⟨made, ttl, rfl⟩ := hw.written value hvalue (by rwa [hcurrent])
      have hnumber := look_encode hlive
      rw [hlook] at hnumber
      exact Look.number.inj hnumber

/-- A purge keeps the invariant while nothing has been counted. -/
theorem Inv.purged (hw : Inv cfg start n w) (skip : Nat) (hlog : w.log = []) (hn : n = 0) :
    Inv cfg start n { w with register := w.register.purge skip } := by
  have hle := hw.le
  have hlt : start.register.revision < (w.register.purge skip).revision := by
    dsimp only [Register.purge, Register.change]
    omega
  refine ⟨hlt.le, ?_, ?_, ?_, ?_, hw.sums, hw.nodup, hw.returned, ?_⟩
  · intro hne
    exact absurd rfl hne
  · intro _
    exact ⟨hlog, hn⟩
  · intro heq
    exact absurd heq hlt.ne'
  · intro value hvalue
    cases hvalue
  · intro q
    exact (hw.phases q).change rfl

/-- A call that has not returned has not written. -/
theorem Inv.slot_ne (hw : Inv cfg start n w) (hbefore : (w.phases o).returned = none) :
    ∀ e ∈ w.log, e.slot ≠ o := by
  intro e he hslot
  have hreturned := (hw.returned o e.result).mpr ⟨e, he, hslot, rfl⟩
  rw [hbefore] at hreturned
  cases hreturned

/-- The results after one more write. -/
theorem result_concat {log : List (Applied τ)} {e : Applied τ} {q : τ} {m : Int64} :
    (∃ e' ∈ log ++ [e], e'.slot = q ∧ e'.result = m) ↔
      (∃ e' ∈ log, e'.slot = q ∧ e'.result = m) ∨ (e.slot = q ∧ e.result = m) := by
  simp only [List.mem_append, List.mem_singleton, or_and_right, exists_or, exists_eq_left]

end

/-- A write of the total after one more call keeps the invariant. -/
theorem Inv.wrote (hw : Inv cfg start n w) {op : CounterOp} {next : Int64} (skip : Nat)
    (made : Instant) (hbefore : (w.phases o).returned = none)
    (hnext : next = total n w.log + op.applied) :
    Inv cfg start n (w.wrote o op next (w.register.change skip
      (some (encodeEnvelope cfg.defaultTTL made (formatInt next) op.ttl)))) := by
  have hle := hw.le
  have hlt : start.register.revision < w.register.revision + skip + 1 := by omega
  have htotal : next = total n (w.log ++ [⟨o, op, next⟩]) := by rw [total_concat, hnext]
  have hnew := hw.slot_ne hbefore
  refine ⟨hlt.le, ?_, ?_, ?_, ?_, ?_, ?_, ?_, ?_⟩
  · intro _
    exact Nat.zero_lt_of_lt hlt
  · intro hnone
    cases hnone
  · intro heq
    exact absurd heq hlt.ne'
  · rintro _ ⟨⟩ _
    exact ⟨made, op.ttl, by rw [World.wrote, ← htotal]⟩
  · exact hw.sums.concat htotal
  · dsimp only [World.wrote]
    rw [List.map_append, List.nodup_append]
    refine ⟨hw.nodup, List.nodup_singleton o, ?_⟩
    intro slot hslot slot' hslot'
    obtain ⟨e, he, rfl⟩ := List.mem_map.mp hslot
    rw [List.mem_singleton.mp hslot']
    exact hnew e he
  · refine (forall_update_iff w.phases fun q p => ∀ m, p.returned = some m ↔
      ∃ e ∈ w.log ++ [⟨o, op, next⟩], e.slot = q ∧ e.result = m).mpr ⟨?_, ?_⟩
    · intro m
      rw [result_concat]
      constructor
      · intro hm
        exact Or.inr ⟨rfl, Option.some.inj hm⟩
      · rintro (⟨e, he, hslot, -⟩ | ⟨-, hm⟩)
        · exact absurd hslot (hnew e he)
        · exact congrArg some hm
    · intro q hq m
      rw [result_concat, hw.returned q m]
      constructor
      · exact Or.inl
      · rintro (hold | ⟨hslot, -⟩)
        · exact hold
        · exact absurd hslot.symm hq
  · exact (forall_update_iff w.phases fun _ => PhaseOk cfg start n _).mpr
      ⟨trivial, fun q _ => (hw.phases q).change rfl⟩

omit [DecidableEq τ] in
/-- A call that may write has the total so far, when its write succeeds. -/
theorem Inv.counted_eq (hw : Inv cfg start n w) {current : Int64}
    (hcounted : Counted n w.register w.log revision current) {body : Bytes} {r : Register Bytes}
    (h : (if revision = 0 then w.register.create skip body
      else w.register.update skip body revision) = some r) :
    current = total n w.log ∧ r = w.register.change skip (some body) := by
  split at h
  · rename_i hzero
    obtain ⟨hnone, hr⟩ := Register.create_eq_some h
    obtain ⟨hlog, hn⟩ := hw.empty hnone
    refine ⟨?_, hr⟩
    rw [hcounted.zero hzero, hlog, total_nil, hn]
  · rename_i hpos
    obtain ⟨hrevision, hr⟩ := Register.update_eq_some h
    exact ⟨hcounted.current_eq hpos hrevision, hr⟩

@[simp]
theorem Look.returned_next (l : Look) (op : CounterOp) (attempt revision : Nat) :
    (l.next op attempt revision).returned = none := by
  cases l <;> rfl

/-- A conflict returns nothing. -/
@[simp]
theorem returned_retry (op : CounterOp) (attempt : Nat) : (retry op attempt).returned = none := by
  unfold retry
  split <;> rfl

omit [DecidableEq τ] in
/-- Nothing needs to hold at the start of an attempt or at its failure. -/
theorem phaseOk_retry (op : CounterOp) (attempt : Nat) :
    PhaseOk cfg start n w (retry op attempt) := by
  unfold retry
  split <;> trivial

omit [DecidableEq τ] in
/-- A call that found no record, or purged one, counts from zero. -/
theorem phaseOk_counted_zero (op : CounterOp) (attempt : Nat) :
    PhaseOk cfg start n w (.counted op attempt 0 0) :=
  ⟨fun _ => rfl, Nat.zero_le _, fun hne => absurd rfl hne⟩

/-- A write, or its conflict, keeps the invariant. -/
theorem Inv.write (hw : Inv cfg start n w) (h : step cfg w (.write o skip) = some w') :
    Inv cfg start n w' := by
  have hok := hw.phases o
  simp only [step] at h
  split at h
  · rename_i op attempt revision next body hphase
    have hbefore : (w.phases o).returned = none := by
      rw [hphase]
      rfl
    rw [hphase] at hok
    obtain ⟨current, made, hcounted, hnext, rfl⟩ := hok
    split at h
    · rename_i r hwritten
      obtain ⟨htotal, rfl⟩ := hw.counted_eq hcounted hwritten
      cases h
      refine hw.wrote skip made hbefore ?_
      rw [hnext, htotal]
    · cases h
      exact hw.put hbefore (returned_retry op attempt) (phaseOk_retry op attempt)
  · cases h

/-- A purge that finds the revision that was read, or no record, keeps the invariant. -/
theorem Inv.purge {ok : Bool} (hw : Inv cfg start n w)
    (hsound : Sound cfg start w (.purge o skip ok)) (h : step cfg w (.purge o skip ok) = some w') :
    Inv cfg start n w' := by
  have hok := hw.phases o
  simp only [step] at h
  split at h
  · rename_i op attempt revision hphase
    have hbefore : (w.phases o).returned = none := by
      rw [hphase]
      rfl
    simp only [Sound, hphase] at hsound
    rw [hphase] at hok
    obtain ⟨hrevision, hn⟩ := hok
    cases ok with
    | false =>
      cases h
      exact hw.put hbefore rfl (phaseOk_counted_zero op attempt)
    | true =>
      cases h
      have hlog : w.log = [] := by
        rcases hsound rfl with hsame | hnone
        · exact (hw.original (hsame.trans hrevision)).2
        · exact (hw.empty hnone).1
      exact (hw.purged skip hlog hn).put hbefore rfl (phaseOk_counted_zero op attempt)
  · cases h

/-- Every step that meets the side condition keeps the invariant. -/
theorem inv_step {e : Event τ} (hn : startValue cfg start = some n) (hw : Inv cfg start n w)
    (hsound : Sound cfg start w e) (h : step cfg w e = some w') : Inv cfg start n w' := by
  cases e with
  | call o op =>
    simp only [step] at h
    split at h
    · rename_i hphase
      cases h
      exact hw.put (by rw [hphase]; rfl) rfl trivial
    · cases h
  | get o =>
    simp only [step] at h
    split at h
    · rename_i op attempt hphase
      split at h <;> cases h
      · exact hw.put (by rw [hphase]; rfl) rfl (phaseOk_counted_zero op attempt)
      · rename_i value hvalue
        refine hw.put (by rw [hphase]; rfl) rfl ⟨Register.remembers_read hvalue, ?_, ?_⟩
        · apply hw.positive
          rw [hvalue]
          exact Option.some_ne_none value
        · intro hrevision
          rw [← (hw.original hrevision).1, hvalue]
    · cases h
  | inspect o =>
    have hok := hw.phases o
    simp only [step] at h
    split at h
    · rename_i op attempt revision value hphase
      simp only [Sound, hphase] at hsound
      rw [hphase] at hok
      cases h
      exact hw.put (by rw [hphase]; rfl) (Look.returned_next _ op attempt revision)
        (hw.look_ok hn hok hsound)
    · cases h
  | purge o skip ok => exact hw.purge hsound h
  | encode o =>
    have hok := hw.phases o
    simp only [step] at h
    split at h
    · rename_i op attempt revision current hphase
      rw [hphase] at hok
      cases h
      exact hw.put (by rw [hphase]; rfl) rfl ⟨current, w.now, hok, rfl, rfl⟩
    · cases h
  | write o skip => exact hw.write h
  | fail o err =>
    simp only [step] at h
    split at h
    · rename_i hphase
      cases h
      exact hw.put (by rw [hphase]; rfl) rfl trivial
    · rename_i hphase
      cases h
      exact hw.put (by rw [hphase]; rfl) rfl trivial
    · cases h
  | tick d =>
    cases h
    exact ⟨hw.le, hw.positive, hw.empty, hw.original, hw.written, hw.sums, hw.nodup,
      hw.returned, hw.phases⟩

omit [DecidableEq τ] in
/-- Once a call has written, the record of the key is an envelope with the total. -/
theorem Inv.stored (hw : Inv cfg start n w) (hlog : w.log ≠ []) :
    storedNumber cfg w = some (total n w.log) := by
  cases hvalue : w.register.value with
  | none => exact absurd (hw.empty hvalue).1 hlog
  | some value =>
    have hrevision : w.register.revision ≠ start.register.revision :=
      fun heq => hlog (hw.original heq).2
    obtain ⟨made, ttl, rfl⟩ := hw.written value hvalue hrevision
    rw [storedNumber, hvalue]
    dsimp only
    rw [decodeEnvelope_encode]
    exact parseInt_formatInt _

/-! ## Calls and writes -/

/-- The operation that a call in flight carries out. -/
def Phase.op : Phase → Option CounterOp
  | idle => none
  | reading op _ => some op
  | inspecting op _ _ _ => some op
  | purging op _ _ => some op
  | counted op _ _ _ => some op
  | writing op _ _ _ _ => some op
  | done _ => none

/-- What is carried out was called for in the run `es`. -/
structure Requested (es : List (Event τ)) (w : World τ) : Prop where
  phases : ∀ o op, (w.phases o).op = some op → Event.call o op ∈ es
  log : ∀ e ∈ w.log, Event.call e.slot e.op ∈ es

/-- A step that only moves one call, within its operation. -/
theorem Requested.put {es : List (Event τ)} (hw : Requested es w)
    (hp : ∀ op, p.op = some op → Event.call o op ∈ es) : Requested es (w.put o p) where
  phases := (forall_update_iff w.phases fun q p => ∀ op, p.op = some op →
    Event.call q op ∈ es).mpr ⟨hp, fun q _ => hw.phases q⟩
  log := hw.log

/-- A look stays within its operation. -/
theorem Look.op_next {l : Look} {op op' : CounterOp}
    (h : (l.next op attempt revision).op = some op') : op' = op := by
  cases l with
  | failed err => cases h
  | expired | number current => exact (Option.some.inj h).symm

/-- A retry stays within its operation. -/
theorem op_retry {op op' : CounterOp} (h : (retry op attempt).op = some op') : op' = op := by
  unfold retry at h
  split at h
  · exact (Option.some.inj h).symm
  · cases h

/-- Every step of the run carries out what was called for. -/
theorem requested_step {es : List (Event τ)} {e : Event τ} (hw : Requested es w) (he : e ∈ es)
    (h : step cfg w e = some w') : Requested es w' := by
  cases e with
  | call o op =>
    simp only [step] at h
    split at h <;> cases h
    refine hw.put ?_
    rintro _ ⟨⟩
    exact he
  | get o =>
    have hop := hw.phases o
    simp only [step] at h
    split at h
    · rename_i hphase
      rw [hphase] at hop
      split at h <;> cases h <;> exact hw.put hop
    · cases h
  | inspect o =>
    have hop := hw.phases o
    simp only [step] at h
    split at h
    · rename_i op _ _ _ hphase
      rw [hphase] at hop
      cases h
      refine hw.put ?_
      intro op' hop'
      rw [Look.op_next hop']
      exact hop op rfl
    · cases h
  | purge o skip ok =>
    have hop := hw.phases o
    simp only [step] at h
    split at h
    · rename_i op attempt _ hphase
      rw [hphase] at hop
      cases h
      have hput := hw.put (p := .counted op attempt 0 0) hop
      exact ⟨hput.phases, hput.log⟩
    · cases h
  | encode o =>
    have hop := hw.phases o
    simp only [step] at h
    split at h
    · rename_i hphase
      rw [hphase] at hop
      cases h
      exact hw.put hop
    · cases h
  | write o skip =>
    have hop := hw.phases o
    simp only [step] at h
    split at h
    · rename_i op attempt revision next body hphase
      rw [hphase] at hop
      split at h <;> cases h
      · have hput := hw.put (o := o) (p := .done (.ok next)) fun _ hnone => by cases hnone
        refine ⟨hput.phases, ?_⟩
        intro e hmem
        rcases List.mem_append.mp hmem with hold | hlast
        · exact hw.log e hold
        · rw [List.mem_singleton.mp hlast]
          exact hop op rfl
      · refine hw.put ?_
        intro op' hop'
        rw [op_retry hop']
        exact hop op rfl
    · cases h
  | fail o err =>
    simp only [step] at h
    split at h <;> cases h <;> exact hw.put fun _ hnone => by cases hnone
  | tick d =>
    cases h
    exact ⟨hw.phases, hw.log⟩

end Steps

/-! ## No update is lost -/

/--
Counters lose no update.  Take any key whose record is absent, deleted, expired or numeric,
with start value `n`, and any run of any number of `Increment` and `Decrement`
calls in which no lifetime ends and every purge that takes effect finds the revision that was read,
or no record.  While the partial sums along the writes are 64-bit integers:

- the results along the writes are the partial sums from `n` on;
- after the first write the stored number is `n` plus all the deltas;
- every write carries out a call of the run, no call writes twice, and the calls that have
  returned a number are those that have written, with that number as the result.
-/
theorem nats_counter_sums {cfg : Config} {start w : World τ} {n : Int64}
    {es : List (Event τ)} (hinit : start.Initial) (hn : startValue cfg start = some n)
    (hsound : Along (step cfg) (Sound cfg start) start es)
    (hrun : run (step cfg) start es = some w) (hrange : InRange n.toInt w.log) :
    Sums n.toInt w.log ∧
    (w.log ≠ [] → ∃ m, storedNumber cfg w = some m ∧ m.toInt = n.toInt + amounts w.log) ∧
    (∀ e ∈ w.log, Event.call e.slot e.op ∈ es) ∧
    (w.log.map Applied.slot).Nodup ∧
    (∀ o m, w.phases o = .done (.ok m) ↔ ∃ e ∈ w.log, e.slot = o ∧ e.result = m) := by
  have hw : Inv cfg start n w :=
    run_preserves_along (fun _ _ _ hs hG h => inv_step hn hs hG h) (hinit.inv hn) hsound hrun
  have hrequested : Requested es w := by
    have hstart : Requested es start := by
      refine ⟨?_, ?_⟩
      · intro o op hop
        rw [hinit.idle o] at hop
        cases hop
      · intro e he
        rw [hinit.log] at he
        cases he
    have hmem : Along (step cfg) (fun _ e => e ∈ es) start es :=
      along_of_forall (fun _ he _ => he) start
    exact run_preserves_along (fun _ _ _ hs he h => requested_step hs he h) hstart hmem hrun
  refine ⟨hw.sums.sums hrange, ?_, hrequested.log, hw.nodup, ?_⟩
  · intro hlog
    refine ⟨total n w.log, hw.stored hlog, ?_⟩
    have hbounds : -2 ^ 63 ≤ n.toInt ∧ n.toInt < 2 ^ 63 := ⟨n.le_toInt, n.toInt_lt⟩
    exact toInt_ofInt_of_range (hrange.total hbounds)
  · intro o m
    rw [← hw.returned o m, Phase.returned_eq_some]

/-! ## An expired counter -/

/-- A bucket without JSON envelopes. -/
def sampleConfig : Config where
  unmarshal := fun _ => none
  defaultTTL := DefaultTTL.normalize 0
  key := ascii "k"

/-- A counter that expired a second ago. -/
def expiredWorld : World Bool where
  register := ⟨3, some (encodeEnvelope sampleConfig.defaultTTL 0 (ascii "7") 1000000000)⟩
  now := 2000000000
  phases := fun _ => .idle
  log := []

/-- Two calls find the counter expired and both purge it; the second create is a conflict and
the call starts over. -/
def sharedPurge : List (Event Bool) :=
  [.call false (.increment 5 60000000000), .call true (.decrement 2 60000000000),
    .get false, .get true, .inspect false, .inspect true, .purge false 0 true,
    .purge true 4 true, .encode false, .encode true, .write false 0, .write true 0,
    .get true, .inspect true, .encode true, .write true 0]

/-- The bucket key after that run. -/
def sharedWorld : World Bool := (run (step sampleConfig) expiredWorld sharedPurge).getD expiredWorld

theorem expiredWorld_initial : expiredWorld.Initial := ⟨fun _ => rfl, rfl, fun _ => by decide⟩

/-- From an expired counter the two calls return 5 and 3, and 3 is stored. -/
theorem nats_counter_sums_shared_purge :
    run (step sampleConfig) expiredWorld sharedPurge = some sharedWorld ∧
    sharedWorld.phases false = .done (.ok 5) ∧ sharedWorld.phases true = .done (.ok 3) ∧
    Sums 0 sharedWorld.log ∧
    ∃ m, storedNumber sampleConfig sharedWorld = some m ∧ m.toInt = 3 := by
  have hrun : run (step sampleConfig) expiredWorld sharedPurge = some sharedWorld := rfl
  have hsound : Along (step sampleConfig) (Sound sampleConfig expiredWorld) expiredWorld
      sharedPurge := by
    decide +kernel
  have hlog : sharedWorld.log = [⟨false, .increment 5 60000000000, 5⟩,
      ⟨true, .decrement 2 60000000000, 3⟩] := rfl
  have hrange : InRange (0 : Int64).toInt sharedWorld.log := by
    rw [hlog]
    exact ⟨by decide, by decide, trivial⟩
  obtain ⟨hsums, hstored, -⟩ :=
    nats_counter_sums expiredWorld_initial (n := 0) rfl hsound hrun hrange
  refine ⟨hrun, rfl, rfl, hsums, ?_⟩
  obtain ⟨m, hm, htotal⟩ := hstored (by rw [hlog]; exact List.cons_ne_nil _ _)
  refine ⟨m, hm, ?_⟩
  rw [htotal, hlog]
  rfl

/-- Two increments find the counter expired; the first one purges it only after the second one
has written. -/
def latePurge : List (Event Bool) :=
  [.call false (.increment 1 60000000000), .call true (.increment 1 60000000000),
    .get false, .get true, .inspect false, .inspect true,
    .purge true 0 true, .encode true, .write true 0,
    .purge false 0 true, .encode false, .write false 0]

/-- The bucket key after that run. -/
def lostWorld : World Bool := (run (step sampleConfig) expiredWorld latePurge).getD expiredWorld

/-- An unconditional purge loses an update.  On a clock that stands still, both increments of
an expired counter return 1 and the stored number is 1, although the deltas sum to 2; in no
order of the calls are the returned numbers the partial sums. -/
theorem purge_loses_update :
    expiredWorld.Initial ∧ startValue sampleConfig expiredWorld = some 0 ∧
    run (step sampleConfig) expiredWorld latePurge = some lostWorld ∧
    (∀ o, lostWorld.phases o = .done (.ok 1)) ∧
    storedNumber sampleConfig lostWorld = some 1 ∧ amounts lostWorld.log = 2 ∧
    ∀ order, order.Perm lostWorld.log → ¬Sums 0 order := by
  have hlog : lostWorld.log = [⟨true, .increment 1 60000000000, 1⟩,
      ⟨false, .increment 1 60000000000, 1⟩] := rfl
  have hentries : ∀ e ∈ lostWorld.log, e.op.amount = 1 ∧ e.result = 1 := by
    intro e he
    rw [hlog] at he
    rcases List.mem_cons.mp he with rfl | hlast
    · exact ⟨rfl, rfl⟩
    · rw [List.mem_singleton.mp hlast]
      exact ⟨rfl, rfl⟩
  refine ⟨expiredWorld_initial, rfl, rfl, ?_, rfl, rfl, ?_⟩
  · intro o
    cases o <;> rfl
  · intro order hperm hsums
    have hlength : order.length = 2 := by rw [hperm.length_eq, hlog]; rfl
    obtain ⟨a, b, rfl⟩ := List.length_eq_two.mp hlength
    obtain ⟨hamount, -⟩ := hentries a (hperm.subset List.mem_cons_self)
    obtain ⟨hamount', hresult⟩ :=
      hentries b (hperm.subset (List.mem_cons_of_mem a List.mem_cons_self))
    obtain ⟨-, hsecond, -⟩ := hsums
    rw [hamount, hamount', hresult] at hsecond
    exact absurd hsecond (by decide)

end Counters
end Nats
end GoforjCache
