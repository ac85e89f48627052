import GoforjCache.Core.Observation
import GoforjCache.Memory.Store
import GoforjCache.Nats.Store

/-!
# NATS - Agreement with the memory store

The NATS store in envelope mode and the memory store, called alike by one client on a clock in whole
milliseconds.  Both are stores of records with an expiration, and both take an expiration that is
not positive for one that never passes.  They differ on one call: `Increment` of the NATS store
counts an empty value as zero, and that of the memory store refuses it.

Main results:

- Theorem `nats_recordwise`, `memory_recordwise`: a call works record by record.
- Theorem `nats_matches_memory_iff`: after every run without a counter call on an empty value,
  the next call is answered alike exactly when it is not such a counter call.
- Theorem `empty_value_counts`: a counter call on an empty value.
-/

namespace GoforjCache
namespace Nats
namespace Equivalence

open Function Foundation Foundation.Transition Observation

/-! ## The setting -/

/-- An instant in whole milliseconds for which `UnixNano` is defined. -/
structure Whole (t : Int) : Prop where
  dvd : 1000000 ∣ t
  lower : -2 ^ 63 ≤ t
  upper : t < 2 ^ 63

/-- The call is not `Flush`. -/
def keyed : Op → Bool
  | .flush => false
  | _ => true

/-- A counter call on a key that holds an empty value. -/
def CountsEmpty (held : Key → Option Bytes) : Op → Prop
  | .increment key _ _ | .decrement key _ _ => held key = some []
  | _ => False

/-- What was written lives up to its expiration, and forever if that is not positive. -/
def aliveAt (d : DefaultTTL) (now : Int) (ttl : Duration) (later : Int) : Bool :=
  decide (now + (d.resolve ttl).toInt ≤ 0) || decide (later ≤ now + (d.resolve ttl).toInt)

/-- Clock and lifetimes in whole milliseconds. -/
def wholeMillis (d : DefaultTTL) (calls : (Key → Option Bytes) → Op → Prop) : Setting where
  times := Whole
  lifetimes := fun ttl => 1000000 ∣ (d.resolve ttl).toInt
  alive := aliveAt d
  calls := calls

/-- Every call but `Flush`. -/
def anyCall (_ : Key → Option Bytes) (op : Op) : Prop := keyed op = true

/-- Every call but `Flush` and the counter calls on empty values. -/
def sparing (held : Key → Option Bytes) (op : Op) : Prop := keyed op = true ∧ ¬CountsEmpty held op

variable {d : DefaultTTL} {now later : Int} {ttl : Duration}

/-- What has not expired is alive. -/
theorem look_eq {expired : Bool} {value : Bytes}
    (h : expired = true ↔ aliveAt d now ttl later = false) :
    (if expired then none else some value) =
      if aliveAt d now ttl later then some value else none := by
  cases expired <;> cases halive : aliveAt d now ttl later <;> simp_all

/-! ## The memory store -/

/-- The items of the memory store. -/
def memoryLayout (d : DefaultTTL) : Layout (Option (Item Bytes)) (Item Bytes) where
  name := id
  name_injective := injective_id
  record := id
  look := fun now item => if ExpiringMap.expired now item.expiration then none else some item.value
  entry := fun now value ttl => ⟨value, ExpiringMap.deadline now (d.resolve ttl)⟩
  proper := fun _ => True
  proper_entry := fun _ _ _ => trivial

/-- The memory store, seen through what its keys hold; its janitor collects expired items. -/
def memoryStore (d : DefaultTTL) : Store Memory.Items :=
  (memoryLayout d).store (Memory.exec d) fun now m => ExpiringMap.deleteExpired m now

/-- The clock of the memory store does not wrap. -/
theorem Whole.toInt_unixNano (h : Whole now) : (unixNano now).toInt = now :=
  Int64.toInt_ofInt_of_le h.lower h.upper

/-- When the item of a write has expired. -/
theorem expired_deadline_iff (hnow : Whole now) (hlater : Whole later) :
    ExpiringMap.expired later (ExpiringMap.deadline now (d.resolve ttl)) = true ↔
      aliveAt d now ttl later = false := by
  have hpos : 0 < (d.resolve ttl).toInt := Int64.lt_iff_toInt_lt.mp (d.resolve_pos ttl)
  have hmax : (d.resolve ttl).toInt < 2 ^ 63 := (d.resolve ttl).toInt_lt
  have hlow := hnow.lower
  have hhigh := hnow.upper
  have hupper := hlater.upper
  have hdeadline : ExpiringMap.deadline now (d.resolve ttl) =
      unixNano (now + (d.resolve ttl).toInt) := if_pos (d.resolve_pos ttl)
  simp only [ExpiringMap.expired, aliveAt, hdeadline, Bool.and_eq_true, Bool.or_eq_false_iff,
    decide_eq_true_eq, decide_eq_false_iff_not, Int64.lt_iff_toInt_lt, Int64.toInt_zero,
    hlater.toInt_unixNano, not_le]
  -- an expiration beyond the range of the clock wraps to a negative one
  by_cases hwrap : now + (d.resolve ttl).toInt < 2 ^ 63
  · have hstamp : (unixNano (now + (d.resolve ttl).toInt)).toInt = now + (d.resolve ttl).toInt :=
      Int64.toInt_ofInt_of_le (by omega) hwrap
    rw [hstamp]
  · have hstamp : (unixNano (now + (d.resolve ttl).toInt)).toInt ≤ 0 := by
      rw [unixNano, Int64.toInt_ofInt]
      simp only [Int.bmod, Int64.size]
      omega
    constructor
    · rintro ⟨hpositive, _⟩
      omega
    · rintro ⟨_, hpassed⟩
      omega

/-- Items die at the end of their lifetime. -/
theorem memoryLayout_sound (d : DefaultTTL) (calls : (Key → Option Bytes) → Op → Prop) :
    (memoryLayout d).Sound (wholeMillis d calls) where
  dead := by
    intro now later item hnow hlater hle hdead
    have hclock : unixNano now ≤ unixNano later := by
      rw [Int64.le_iff_toInt_le, Whole.toInt_unixNano hnow, Whole.toInt_unixNano hlater]
      exact hle
    dsimp only [memoryLayout] at hdead ⊢
    split at hdead
    · rename_i hexpired
      rw [if_pos (ExpiringMap.expired_mono hclock hexpired)]
    · cases hdead
  lives := by
    intro now later value ttl hnow hlater _ _
    dsimp only [memoryLayout, wholeMillis]
    exact look_eq (expired_deadline_iff hnow hlater)

section Memory

variable {m : Memory.Items} {key : Key}

theorem memory_live : (memoryLayout d).live now m key = m.get now key := by
  unfold Layout.live Layout.at_ ExpiringMap.get
  cases hitem : m key with
  | none => simp [memoryLayout, hitem]
  | some item => simp [memoryLayout, hitem]

/-- What a change makes of an item. -/
theorem memory_becomes (change : Change) :
    (memoryLayout d).Becomes now (m key) change (change.apply d now (m key)) := by
  cases change with
  | keep => exact Or.inl rfl
  | put value ttl => rfl
  | drop => rfl

/-- The calls of the memory store work item by item. -/
theorem memory_recordwise {op : Op} (hop : keyed op = true) :
    (memoryLayout d).Recordwise (Memory.exec d) now m op := by
  cases hsingle : op.single with
  | some key =>
    apply Layout.recordwise_of_update hsingle rfl
    · rw [Memory.exec_plan d now m hsingle, memory_live]
      rfl
    · rw [memory_live]
      exact memory_becomes _
  | none =>
    rcases Op.of_single_eq_none hsingle with ⟨keys, rfl⟩ | rfl
    · refine ⟨fun _ _ => rfl, ?_, ?_⟩
      · intro key htouches
        rw [Op.touches_deleteMany, decide_eq_true_eq] at htouches
        exact Memory.deleteMany_of_mem htouches m
      · intro key hother
        rw [Op.touches_deleteMany, decide_eq_false_iff_not] at hother
        exact Memory.deleteMany_of_notMem hother m
    · cases hop

/-- The janitor removes dead items only. -/
theorem memory_tidy : (memoryLayout d).Becomes now (m key) .keep
    (ExpiringMap.deleteExpired m now key) := by
  unfold ExpiringMap.deleteExpired
  cases hitem : m key with
  | none => exact Or.inl rfl
  | some item =>
    cases hdead : ExpiringMap.expired now item.expiration with
    | true => exact Or.inr ⟨by simp [hdead], if_pos hdead⟩
    | false => exact Or.inl (by simp [hdead])

/-- The memory store follows the contract. -/
theorem memoryStore_lawful {calls : (Key → Option Bytes) → Op → Prop}
    (hcalls : ∀ held op, calls held op → keyed op = true) :
    Lawful (wholeMillis d calls) (memoryStore d) := by
  apply Layout.lawful (memoryLayout_sound d calls)
  · intro now m op _ _ hop
    exact memory_recordwise (hcalls _ op hop.call)
  · intro now m key
    exact memory_tidy

end Memory

/-! ## The NATS store -/

/-- What the store reads from a record. -/
def lookBody (cfg : Config) (now : Int) (body : Bytes) : Option Bytes :=
  match decodeEnvelope cfg.unmarshal body with
  | .error _ => none
  | .ok none => some body
  | .ok (some env) => if env.expired now then none else some env.value

/-- The records of the NATS store.  Those it writes itself can be decoded. -/
def natsLayout (cfg : Config) : Layout Cell Bytes where
  name := cfg.cacheKey
  name_injective := cacheKey_injective cfg.keyPrefix
  record := fun c => c.register.value
  look := lookBody cfg
  entry := encodeEnvelope cfg.defaultTTL
  proper := fun body => ∃ e, decodeEnvelope cfg.unmarshal body = .ok e
  proper_entry := fun _ _ _ => ⟨_, decodeEnvelope_encode _ _ _ _ _⟩

/-- The NATS store, seen through what its keys hold. -/
def natsStore (cfg : Config) : Store Bucket :=
  (natsLayout cfg).store (exec cfg .noKeys) fun _ b => b

/-- The milliseconds of the clock are 64-bit numbers. -/
theorem Whole.toInt_unixMilli (h : Whole now) : (unixMilli now).toInt = millis now := by
  have hlow := h.lower
  have hhigh := h.upper
  apply Nats.toInt_unixMilli <;> unfold millis Instant at * <;> omega

/-- When the envelope of a write has expired. -/
theorem expired_envelope_iff (hnow : Whole now) (hlater : Whole later)
    (httl : 1000000 ∣ (d.resolve ttl).toInt) (marker value : Bytes) :
    (Envelope.mk marker value (unixMilli (now + (d.resolve ttl).toInt))).expired later = true ↔
      aliveAt d now ttl later = false := by
  have hpos : 0 < (d.resolve ttl).toInt := Int64.lt_iff_toInt_lt.mp (d.resolve_pos ttl)
  have hmax : (d.resolve ttl).toInt < 2 ^ 63 := (d.resolve ttl).toInt_lt
  have hlow := hnow.lower
  have hhigh := hnow.upper
  have hstamp : (unixMilli (now + (d.resolve ttl).toInt)).toInt =
      millis (now + (d.resolve ttl).toInt) := by
    apply Nats.toInt_unixMilli <;> unfold millis Instant at * <;> omega
  have hdvd := hnow.dvd
  have hdvd' := hlater.dvd
  simp only [Envelope.expired, aliveAt, Bool.and_eq_true, Bool.or_eq_false_iff, decide_eq_true_eq,
    decide_eq_false_iff_not, Int64.lt_iff_toInt_lt, Int64.toInt_zero, hstamp,
    hlater.toInt_unixMilli, not_le]
  unfold millis Instant at *
  omega

theorem expired_envelope_mono (hnow : Whole now) (hlater : Whole later) (hle : now ≤ later)
    {env : Envelope} (h : env.expired now = true) : env.expired later = true := by
  simp only [Envelope.expired, Bool.and_eq_true, decide_eq_true_eq] at h ⊢
  refine ⟨h.1, ?_⟩
  have hpassed := h.2
  rw [Int64.lt_iff_toInt_lt, hnow.toInt_unixMilli] at hpassed
  rw [Int64.lt_iff_toInt_lt, hlater.toInt_unixMilli]
  unfold millis Instant at *
  omega

/-- Records die at the end of their lifetime. -/
theorem natsLayout_sound (cfg : Config) (calls : (Key → Option Bytes) → Op → Prop) :
    (natsLayout cfg).Sound (wholeMillis cfg.defaultTTL calls) where
  dead := by
    intro now later body hnow hlater hle hdead
    dsimp only [natsLayout, lookBody] at hdead ⊢
    split at hdead
    · rfl
    · cases hdead
    · split at hdead
      · rename_i hexpired
        exact if_pos (expired_envelope_mono hnow hlater hle hexpired)
      · cases hdead
  lives := by
    intro now later value ttl hnow hlater _ httl
    dsimp only [natsLayout, lookBody]
    rw [decodeEnvelope_encode]
    exact look_eq (expired_envelope_iff hnow hlater httl _ _)

section Nats

variable {cfg : Config} {b : Bucket} {key : Key}

/-- What a call finds under its key. -/
inductive Found (cfg : Config) (now : Int) (b : Bucket) (key : Key) : Prop where
  | absent (hvalue : (b (cfg.cacheKey key)).register.value = none)
      (hlive : (natsLayout cfg).live now b key = none)
  | raw (body : Bytes) (hvalue : (b (cfg.cacheKey key)).register.value = some body)
      (hdecode : decodeEnvelope cfg.unmarshal body = .ok none)
      (hlive : (natsLayout cfg).live now b key = some body)
  | wrapped (body : Bytes) (env : Envelope)
      (hvalue : (b (cfg.cacheKey key)).register.value = some body)
      (hdecode : decodeEnvelope cfg.unmarshal body = .ok (some env))
      (hexpired : env.expired now = false)
      (hlive : (natsLayout cfg).live now b key = some env.value)
  | dead (body : Bytes) (env : Envelope)
      (hvalue : (b (cfg.cacheKey key)).register.value = some body)
      (hdecode : decodeEnvelope cfg.unmarshal body = .ok (some env))
      (hexpired : env.expired now = true)
      (hlive : (natsLayout cfg).live now b key = none)

theorem found (hvalid : (natsStore cfg).valid b) (now : Int) (key : Key) : Found cfg now b key := by
  cases hvalue : (b (cfg.cacheKey key)).register.value with
  | none => exact .absent hvalue (Layout.live_of_none hvalue)
  | some body =>
    have hlive : (natsLayout cfg).live now b key = lookBody cfg now body :=
      Layout.live_of_some (L := natsLayout cfg) hvalue
    obtain ⟨e, hdecode⟩ := hvalid key body hvalue
    rw [lookBody, hdecode] at hlive
    cases e with
    | none => exact .raw body hvalue hdecode hlive
    | some env =>
      cases hexpired : env.expired now with
      | true => exact .dead body env hvalue hdecode hexpired (hlive.trans (if_pos hexpired))
      | false =>
        exact .wrapped body env hvalue hdecode hexpired
          (hlive.trans (if_neg (Bool.eq_false_iff.mp hexpired)))

/-- `Get` answers what its key holds, and leaves the bucket or purges a dead record. -/
theorem get_eq (h : cfg.Willing) (hvalid : (natsStore cfg).valid b) (now : Int) (key : Key) :
    ∃ c : Cell, get cfg now b key =
        (update b (cfg.cacheKey key) c, .ok ((natsLayout cfg).live now b key)) ∧
      (natsLayout cfg).Becomes now ((natsLayout cfg).at_ b key) .keep c.register.value ∧
      ((natsLayout cfg).live now b key = none → c.register.value = none) := by
  cases found hvalid now key with
  | absent hvalue hlive =>
    refine ⟨b (cfg.cacheKey key), ?_, Or.inl rfl, fun _ => hvalue⟩
    simp only [get, kvGet_of_none h hvalue, update_eq_self, hlive]
  | raw body hvalue hdecode hlive =>
    refine ⟨b (cfg.cacheKey key), ?_, Or.inl rfl, ?_⟩
    · simp only [get, kvGet_of_some h hvalue, hdecode, update_eq_self, hlive]
    · intro hnone
      rw [hlive] at hnone
      cases hnone
  | wrapped body env hvalue hdecode hexpired hlive =>
    refine ⟨b (cfg.cacheKey key), ?_, Or.inl rfl, ?_⟩
    · simp [get, kvGet_of_some h hvalue, hdecode, hexpired, hlive]
    · intro hnone
      rw [hlive] at hnone
      cases hnone
  | dead body env hvalue hdecode hexpired hlive =>
    refine ⟨cfg.changed b (cfg.cacheKey key) none, ?_, Or.inr ⟨rfl, hlive⟩, fun _ => rfl⟩
    simp only [get, kvGet_of_some h hvalue, hdecode, hexpired, if_true, tryPurge_eq h, hlive]
    rfl

theorem nats_get (h : cfg.Willing) (hvalid : (natsStore cfg).valid b) :
    (natsLayout cfg).Recordwise (exec cfg .noKeys) now b (.get key) := by
  obtain ⟨c, hget, hc, _⟩ := get_eq h hvalid now key
  apply Layout.recordwise_of_update rfl rfl
  · simp only [exec, hget]
    rfl
  · exact hc

theorem nats_set (h : cfg.Willing) (value : Bytes) (ttl : Duration) :
    (natsLayout cfg).Recordwise (exec cfg .noKeys) now b (.set key value ttl) := by
  apply Layout.recordwise_of_update rfl rfl
  · simp only [exec, set, kvPut, h.request]
    rfl
  · rfl

theorem nats_delete (h : cfg.Willing) :
    (natsLayout cfg).Recordwise (exec cfg .noKeys) now b (.delete key) := by
  apply Layout.recordwise_of_update rfl rfl
  · simp only [exec, delete_eq h]
    rfl
  · rfl

theorem nats_add (h : cfg.Willing) (hvalid : (natsStore cfg).valid b) (value : Bytes)
    (ttl : Duration) :
    (natsLayout cfg).Recordwise (exec cfg .noKeys) now b (.add key value ttl) := by
  obtain ⟨c, hget, hc, hgone⟩ := get_eq h hvalid now key
  cases hlive : (natsLayout cfg).live now b key with
  | some held =>
    rw [hlive] at hget
    apply Layout.recordwise_of_update rfl
    · rw [hlive]
    · simp only [exec, add, hget]
      rfl
    · exact hc
  | none =>
    rw [hlive] at hget
    have hnone : ((update b (cfg.cacheKey key) c) (cfg.cacheKey key)).register.value = none := by
      rw [update_self]
      exact hgone hlive
    apply Layout.recordwise_of_update rfl
    · rw [hlive]
    · simp only [exec, add, hget, createLock, kvCreate_of_none h hnone, Config.write,
        update_idem]
      rfl
    · rfl

/-- The test of `LockAcquire` for a live record. -/
theorem taken_iff {env : Envelope} :
    (env.expiresAt ≤ 0 ∨ unixMilli now ≤ env.expiresAt) ↔ env.expired now = false := by
  simp only [Envelope.expired, Bool.and_eq_false_iff, decide_eq_false_iff_not, Int64.not_lt]

theorem nats_lockAcquire (h : cfg.Willing) (hvalid : (natsStore cfg).valid b) (owner : Bytes)
    (ttl : Duration) :
    (natsLayout cfg).Recordwise (exec cfg .noKeys) now b (.lockAcquire key owner ttl) := by
  cases found hvalid now key with
  | absent hvalue hlive =>
    apply Layout.recordwise_of_update rfl
    · rw [hlive]
    · simp only [exec, lockAcquire, kvGet_of_none h hvalue, createLock,
        kvCreate_of_none h hvalue]
      rfl
    · rfl
  | raw body hvalue hdecode hlive =>
    apply Layout.recordwise_of_keep rfl
    · rw [hlive]
      rfl
    · simp only [exec, lockAcquire, kvGet_of_some h hvalue, hdecode]
      rfl
  | wrapped body env hvalue hdecode hexpired hlive =>
    apply Layout.recordwise_of_keep rfl
    · rw [hlive]
      rfl
    · simp only [exec, lockAcquire, kvGet_of_some h hvalue, hdecode, taken_iff, hexpired, if_true]
      rfl
  | dead body env hvalue hdecode hexpired hlive =>
    apply Layout.recordwise_of_update rfl
    · rw [hlive]
    · simp only [exec, lockAcquire, kvGet_of_some h hvalue, hdecode, taken_iff, hexpired,
        kvUpdate_current h, reduceCtorEq, if_false]
      rfl
    · rfl

variable {held : Bytes} {op : Op}

/-- A release of a record that holds `held`. -/
theorem nats_release (h : cfg.Willing) {owner : Bytes}
    (hlive : (natsLayout cfg).live now b key = some held) (hexec : lockRelease cfg now b key owner =
      releaseAt cfg b (cfg.cacheKey key) (b (cfg.cacheKey key)).register.revision held owner) :
    (natsLayout cfg).Recordwise (exec cfg .noKeys) now b (.lockRelease key owner) := by
  by_cases howner : held = owner
  · apply Layout.recordwise_of_update rfl
    · rw [hlive, Op.plan, if_pos (congrArg some howner)]
    · simp only [exec, hexec, releaseAt, ne_eq, howner, not_true_eq_false, if_false,
        kvDeleteAt_current h]
      rfl
    · rfl
  · apply Layout.recordwise_of_keep rfl
    · rw [hlive, Op.plan, if_neg (fun heq => howner (Option.some.inj heq))]
    · simp only [exec, hexec, releaseAt, ne_eq, howner, not_false_eq_true, if_true]
      rfl

theorem nats_lockRelease (h : cfg.Willing) (hvalid : (natsStore cfg).valid b) (owner : Bytes) :
    (natsLayout cfg).Recordwise (exec cfg .noKeys) now b (.lockRelease key owner) := by
  cases found hvalid now key with
  | absent hvalue hlive =>
    apply Layout.recordwise_of_keep rfl
    · rw [hlive]
      rfl
    · simp only [exec, lockRelease, kvGet_of_none h hvalue]
      rfl
  | raw body hvalue hdecode hlive =>
    apply nats_release h hlive
    simp only [lockRelease, kvGet_of_some h hvalue, hdecode]
  | wrapped body env hvalue hdecode hexpired hlive =>
    apply nats_release h hlive
    simp [lockRelease, kvGet_of_some h hvalue, hdecode, hexpired]
  | dead body env hvalue hdecode hexpired hlive =>
    apply Layout.recordwise_of_keep rfl
    · rw [hlive]
      rfl
    · simp only [exec, lockRelease, kvGet_of_some h hvalue, hdecode, hexpired, if_true]
      rfl

theorem deleteMany_cell (h : cfg.Willing) (keys : List Key) (b : Bucket) :
    (deleteMany cfg b keys).2 = none ∧
      ∀ key, (natsLayout cfg).at_ (deleteMany cfg b keys).1 key =
        if key ∈ keys then none else (natsLayout cfg).at_ b key := by
  induction keys generalizing b with
  | nil => exact ⟨rfl, fun key => (if_neg List.not_mem_nil).symm⟩
  | cons k keys ih =>
    rw [deleteMany, delete_eq h]
    obtain ⟨hok, hcell⟩ := ih (cfg.write b (cfg.cacheKey k) none)
    refine ⟨hok, fun key => ?_⟩
    rw [hcell key]
    by_cases hrest : key ∈ keys
    · rw [if_pos hrest, if_pos (List.mem_cons_of_mem k hrest)]
    · rw [if_neg hrest]
      by_cases hkey : key = k
      · subst hkey
        rw [if_pos List.mem_cons_self]
        exact cfg.value_write b (cfg.cacheKey key) none
      · have hne : cfg.cacheKey key ≠ cfg.cacheKey k :=
          fun heq => hkey (cacheKey_injective cfg.keyPrefix heq)
        rw [if_neg (fun hmem => (List.mem_cons.mp hmem).elim hkey hrest)]
        exact congrArg (fun c => c.register.value) (cfg.write_of_ne hne none)

theorem nats_deleteMany (h : cfg.Willing) (keys : List Key) :
    (natsLayout cfg).Recordwise (exec cfg .noKeys) now b (.deleteMany keys) where
  answer := by
    intro key _
    simp only [exec, (deleteMany_cell h keys b).1]
    rfl
  touched := by
    intro key htouches
    rw [Op.touches_deleteMany, decide_eq_true_eq] at htouches
    exact ((deleteMany_cell h keys b).2 key).trans (if_pos htouches)
  others := by
    intro key hother
    rw [Op.touches_deleteMany, decide_eq_false_iff_not] at hother
    exact ((deleteMany_cell h keys b).2 key).trans (if_neg hother)

/-- A key that holds a value has a record. -/
theorem exists_record (hlive : (natsLayout cfg).live now b key = some held) :
    ∃ body, (b (cfg.cacheKey key)).register.value = some body ∧ lookBody cfg now body = some held :=
  Option.bind_eq_some_iff.mp hlive

/-- The look of `Increment` at a live record. -/
theorem lookNumber_of_live {body : Bytes} (hbody : lookBody cfg now body = some held) (key : Key) :
    lookNumber cfg now key body = Counters.parseRaw ⟨cfg.unmarshal, cfg.defaultTTL, key⟩ held := by
  unfold lookBody at hbody
  unfold lookNumber Counters.look
  split at hbody
  · cases hbody
  · rename_i hdecode
    cases hbody
    simp only [hdecode]
  · rename_i env hdecode
    simp only [hdecode]
    split at hbody
    · cases hbody
    · rename_i hexpired
      cases hbody
      rw [if_neg hexpired]

/-- `Increment` of a key that holds nothing. -/
theorem increment_of_none (h : cfg.Willing) (hvalid : (natsStore cfg).valid b)
    (hlive : (natsLayout cfg).live now b key = none) (delta : Int64) (ttl : Duration) :
    ∃ c : Cell, increment cfg now b key delta ttl =
        (update b (cfg.cacheKey key) c, .ok (0 + delta)) ∧
      c.register.value =
        some (encodeEnvelope cfg.defaultTTL now (Decimal.formatInt (0 + delta)) ttl) := by
  cases found hvalid now key with
  | absent hvalue _ => exact ⟨_, increment_of_absent h hvalue delta ttl, rfl⟩
  | raw body hvalue hdecode hheld | wrapped body env hvalue hdecode hexpired hheld =>
    rw [hlive] at hheld
    cases hheld
  | dead body env hvalue hdecode hexpired _ =>
    have hlook : lookNumber cfg now key body = .expired := by
      simp only [lookNumber, Counters.look, hdecode, hexpired, if_true]
    have hincrement := increment_of_expired hvalue h hlook delta ttl
    rw [Config.write, Config.write, update_idem, ← Config.write] at hincrement
    exact ⟨_, hincrement, rfl⟩

theorem exec_counter {delta : Int64} (hop : op.counter = some (key, delta, ttl)) :
    exec cfg .noKeys now b op =
      ((increment cfg now b key delta ttl).1,
        Res.ofExcept .number (increment cfg now b key delta ttl).2) := by
  cases op <;> cases hop <;> rfl

/-- The counter calls, on keys that hold no empty value. -/
theorem nats_increment (h : cfg.Willing) (hvalid : (natsStore cfg).valid b) {delta : Int64}
    (hop : op.counter = some (key, delta, ttl))
    (hheld : (natsLayout cfg).live now b key ≠ some []) :
    (natsLayout cfg).Recordwise (exec cfg .noKeys) now b op := by
  have hsingle := Op.single_of_counter hop
  have hplan := Op.plan_of_counter hop
  cases hlive : (natsLayout cfg).live now b key with
  | none =>
    obtain ⟨c, hincrement, hc⟩ := increment_of_none h hvalid hlive delta ttl
    apply Layout.recordwise_of_update hsingle
    · rw [hlive, hplan]
    · rw [exec_counter hop, hincrement]
      rfl
    · exact hc
  | some held =>
    have hlength : 0 < held.length := by
      rw [hlive] at hheld
      exact List.length_pos_of_ne_nil fun hnil => hheld (congrArg some hnil)
    obtain ⟨body, hvalue, hbody⟩ := exists_record hlive
    have hlook := lookNumber_of_live hbody key
    rw [Counters.parseRaw, if_pos hlength] at hlook
    cases hnumber : Decimal.parseInt held with
    | some n =>
      rw [hnumber] at hlook
      apply Layout.recordwise_of_update hsingle
      · rw [hlive, hplan, planIncrement_of_number hnumber]
      · rw [exec_counter hop, increment_of_number hvalue h hlook]
        rfl
      · rfl
    | none =>
      rw [hnumber] at hlook
      apply Layout.recordwise_of_keep hsingle
      · rw [hlive, hplan, planIncrement_of_text hnumber]
      · rw [exec_counter hop, increment_of_failed hvalue h hlook]
        rfl

/-- The calls of the NATS store work record by record, but for the counter calls on empty values. -/
theorem nats_recordwise (h : cfg.Willing) (hvalid : (natsStore cfg).valid b)
    (hop : sparing ((natsLayout cfg).live now b) op) :
    (natsLayout cfg).Recordwise (exec cfg .noKeys) now b op := by
  cases op with
  | get key => exact nats_get h hvalid
  | set key value ttl => exact nats_set h value ttl
  | add key value ttl => exact nats_add h hvalid value ttl
  | increment key delta ttl | decrement key delta ttl => exact nats_increment h hvalid rfl hop.2
  | delete key => exact nats_delete h
  | deleteMany keys => exact nats_deleteMany h keys
  | flush => cases hop.1
  | lockAcquire key owner ttl => exact nats_lockAcquire h hvalid owner ttl
  | lockRelease key owner => exact nats_lockRelease h hvalid owner

/-- The NATS store follows the contract, but for the counter calls on empty values. -/
theorem natsStore_lawful (h : cfg.Willing) :
    Lawful (wholeMillis cfg.defaultTTL sparing) (natsStore cfg) := by
  apply Layout.lawful (natsLayout_sound cfg sparing)
  · intro now b op _ hvalid hop
    exact nats_recordwise h hvalid hop.call
  · intro now b key
    exact Or.inl rfl

theorem CountsEmpty.counter {held : Key → Option Bytes} (h : CountsEmpty held op) :
    ∃ key delta ttl, op.counter = some (key, delta, ttl) ∧ held key = some [] := by
  cases op with
  | increment key delta ttl | decrement key delta ttl => exact ⟨key, _, ttl, rfl, h⟩
  | get | set | add | delete | deleteMany | flush | lockAcquire | lockRelease => cases h

/-- A counter call of the NATS store on an empty value. -/
theorem nats_counts_empty (h : cfg.Willing)
    (hempty : CountsEmpty ((natsLayout cfg).live now b) op) :
    ∃ n, (exec cfg .noKeys now b op).2 = .number n := by
  obtain ⟨key, delta, ttl, hop, hheld⟩ := hempty.counter
  obtain ⟨body, hvalue, hbody⟩ := exists_record hheld
  refine ⟨0 + delta, ?_⟩
  rw [exec_counter hop, increment_of_number hvalue h (lookNumber_of_live hbody key)]
  rfl

/-- A counter call of the memory store on an empty value. -/
theorem memory_refuses_empty {m : Memory.Items}
    (hempty : CountsEmpty ((memoryLayout d).live now m) op) :
    ∃ err, (Memory.exec d now m op).2 = .error err := by
  obtain ⟨key, delta, ttl, hop, hheld⟩ := hempty.counter
  rw [memory_live] at hheld
  refine ⟨.notNumeric key, ?_⟩
  rw [Memory.exec_plan d now m (Op.single_of_counter hop), hheld, Op.plan_of_counter hop]
  rfl

end Nats

/-! ## Both stores -/

/-- After every run without `Flush` and without a counter call on a key that holds an empty
value, the next call is answered alike exactly when it is not such a counter call. -/
theorem nats_matches_memory_iff (cfg : Config) (h : cfg.Willing) {w₀ w : World Bucket Memory.Items}
    {es : List Event} (hstart : Start (wholeMillis cfg.defaultTTL sparing) (natsStore cfg)
      (memoryStore cfg.defaultTTL) w₀)
    (hguard : Along (step (natsStore cfg) (memoryStore cfg.defaultTTL))
      (Guard (wholeMillis cfg.defaultTTL sparing) (natsStore cfg)) w₀ es)
    (hrun : run (step (natsStore cfg) (memoryStore cfg.defaultTTL)) w₀ es = some w) {op : Op}
    (hop : (wholeMillis cfg.defaultTTL anyCall).Admits ((natsStore cfg).live w.now w.first) op) :
    ((natsStore cfg).exec w.now w.first op).2 =
        ((memoryStore cfg.defaultTTL).exec w.now w.second op).2 ↔
      ¬CountsEmpty ((natsStore cfg).live w.now w.first) op := by
  have hnats := natsStore_lawful h
  have hmemory : Lawful (wholeMillis cfg.defaultTTL sparing) (memoryStore cfg.defaultTTL) :=
    memoryStore_lawful fun _ _ hcall => hcall.1
  constructor
  · intro hsame hempty
    have hw := start_run hnats hmemory hstart hguard hrun
    obtain ⟨n, hn⟩ := nats_counts_empty h hempty
    rw [hw.live_eq] at hempty
    obtain ⟨err, herr⟩ := memory_refuses_empty hempty
    have hclash := hn.symm.trans (hsame.trans herr)
    cases hclash
  · intro hspared
    exact runsAlike_of_lawful hnats hmemory w₀ w es hstart hguard hrun op
      ⟨hop.lifetime, hop.call, hspared⟩

/-! ### Two runs -/

/-- A store with the default lifetime and prefix, on a bucket that refuses nothing. -/
def sampleConfig : Config where
  unmarshal := fun _ => none
  defaultTTL := DefaultTTL.normalize 0
  keyPrefix := ascii "app"
  refuses := fun _ _ => none
  gap := fun _ _ => 0

theorem sampleConfig_willing : sampleConfig.Willing := fun _ _ => rfl

/-- Nothing was ever written. -/
def unwritten : World Bucket Memory.Items := ⟨fun _ => .empty, fun _ => none, 0⟩

theorem unwritten_start (calls : (Key → Option Bytes) → Op → Prop) :
    Start (wholeMillis sampleConfig.defaultTTL calls) (natsStore sampleConfig)
      (memoryStore sampleConfig.defaultTTL) unwritten where
  now := ⟨by decide, by decide, by decide⟩
  first := by rintro _ _ ⟨⟩
  second := fun _ _ _ => trivial
  agree := fun _ _ _ _ => rfl

/-- A value is written for a second. -/
def writes (value : Bytes) : Op := .set (ascii "k") value 1000000000

/-- The two stores after the write, when some time has passed. -/
def written (value : Bytes) (passed : Nat) : World Bucket Memory.Items where
  first := ((natsStore sampleConfig).exec 0 unwritten.first (writes value)).1
  second := ((memoryStore sampleConfig.defaultTTL).exec 0 unwritten.second (writes value)).1
  now := 0 + passed

theorem written_along (calls : (Key → Option Bytes) → Op → Prop) (value : Bytes)
    (hcall : ∀ held, calls held (writes value)) {passed : Nat} (hpassed : Whole (0 + passed)) :
    Along (step (natsStore sampleConfig) (memoryStore sampleConfig.defaultTTL))
      (Guard (wholeMillis sampleConfig.defaultTTL calls) (natsStore sampleConfig)) unwritten
      [.call (writes value), .tick passed] := by
  refine ⟨⟨?_, hcall _⟩, ?_⟩
  · rintro ttl ⟨⟩
    change (1000000 : Int) ∣ _
    decide
  · rintro w ⟨⟩
    refine ⟨hpassed, ?_⟩
    rintro w ⟨⟩
    trivial

/-- Counting on for a second. -/
def counts : Op := .increment (ascii "k") 1 1000000000

theorem counts_lifetime (ttl : Duration) (h : counts.ttl = some ttl) :
    (wholeMillis sampleConfig.defaultTTL anyCall).lifetimes ttl := by
  cases h
  change (1000000 : Int) ∣ _
  decide

/-- A number that is as old as its lifetime is counted on by both stores. -/
theorem nats_matches_memory_aged :
    sampleConfig.Willing ∧
      ¬CountsEmpty ((natsStore sampleConfig).live 1000000000 (written (ascii "5") 1000000000).first)
        counts ∧
      ((natsStore sampleConfig).exec 1000000000 (written (ascii "5") 1000000000).first counts).2 =
        ((memoryStore sampleConfig.defaultTTL).exec 1000000000
          (written (ascii "5") 1000000000).second counts).2 := by
  have hspared : ¬CountsEmpty
      ((natsStore sampleConfig).live 1000000000 (written (ascii "5") 1000000000).first) counts := by
    unfold CountsEmpty counts
    decide
  refine ⟨sampleConfig_willing, hspared, ?_⟩
  exact (nats_matches_memory_iff (w := written (ascii "5") 1000000000) sampleConfig
    sampleConfig_willing (unwritten_start sparing)
    (written_along sparing (ascii "5") (fun _ => ⟨rfl, fun h => h⟩)
      ⟨by decide, by decide, by decide⟩) rfl
    ⟨counts_lifetime, rfl⟩).mpr hspared

/-- An empty value counts as zero in the NATS store, and is refused by the memory store. -/
theorem empty_value_counts :
    sampleConfig.Willing ∧
      ¬RunsAlike (wholeMillis sampleConfig.defaultTTL anyCall) (natsStore sampleConfig)
        (memoryStore sampleConfig.defaultTTL) := by
  refine ⟨sampleConfig_willing, ?_⟩
  intro halike
  have hsame := halike unwritten (written [] 0) [.call (writes []), .tick 0]
    (unwritten_start anyCall)
    (written_along anyCall [] (fun _ => rfl) ⟨by decide, by decide, by decide⟩) rfl counts
    ⟨counts_lifetime, rfl⟩
  have hnats : ((natsStore sampleConfig).exec 0 (written [] 0).first counts).2 = .number 1 := by
    decide
  have hmemory : ((memoryStore sampleConfig.defaultTTL).exec 0 (written [] 0).second counts).2 =
      .error (.notNumeric (ascii "k")) := by
    decide
  exact absurd (hnats.symm.trans (hsame.trans hmemory)) (by decide)

end Equivalence
end Nats
end GoforjCache
