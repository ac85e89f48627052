import GoforjCache.Core.SerialLocks
import GoforjCache.Core.ShapedRuns
import GoforjCache.Drivers.ExpiringTable
import GoforjCache.Nats.Equivalence
import GoforjCache.Redis.Equivalence

/-!
# Drivers - One contract for five stores

A program that keeps to the common setting cannot tell from any answer which store it runs on:
memory, SQL, DynamoDB, NATS or Redis.  Each of them follows the contract of `cachecore.Store`
there, for all calls but `Flush`, and stores that follow one contract run alike.  The file store
has its own comparison with the memory store.  The Memcached store is not among them: it forgets
by itself and counts in other ways.

Main results:

- Theorem `sqlStore_portable`, `dynamoStore_portable`: these stores follow the contract in the
  common setting.
- Theorem `store_lawful`: every store of a fleet does.
- Theorem `drivers_interchangeable`: any two stores of a fleet run alike.
- Theorem `drivers_lock`: on every store of a fleet a lock has one holder.
- Theorem `drivers_shaped`: a store of a fleet behind compression and encryption answers as any
  store of the fleet does without.
-/

namespace GoforjCache
namespace Portability

open Foundation Foundation.Transition Observation

variable {now : Int} {op : Op}

/-! ## The common setting is narrower than those of the drivers -/

/-- For instants after the epoch, lives end alike in memory, in NATS and in the common setting. -/
theorem within_nats (d : DefaultTTL) (calls : (Key → Option Bytes) → Op → Prop) :
    (portable d).Within (Nats.Equivalence.wholeMillis d calls) where
  times := by
    intro t ht
    have hlower := ht.lower
    exact ⟨ht.dvd, by omega, ht.upper⟩
  lifetimes := by
    intro ttl httl
    have hdvd : 1000000000 ∣ (d.resolve ttl).toInt := httl
    change 1000000 ∣ (d.resolve ttl).toInt
    omega
  alive := by
    intro now ttl later hnow
    have hlower := hnow.lower
    have hpos : 0 < (d.resolve ttl).toInt := Int64.lt_iff_toInt_lt.mp (d.resolve_pos ttl)
    have hnever : ¬now + (d.resolve ttl).toInt ≤ 0 := by omega
    simp only [portable, Nats.Equivalence.wholeMillis, Nats.Equivalence.aliveAt, hnever,
      decide_false, Bool.false_or]

/-- The tables count the same instants in milliseconds. -/
theorem within_tables (d : DefaultTTL) : (portable d).Within (ExpiringTable.wholeMillis d) where
  times := by
    intro t ht
    have hlower := ht.lower
    have hupper := ht.upper
    refine ⟨ht.dvd, ?_, ?_⟩ <;> unfold Nats.millis Instant at * <;> omega
  lifetimes := by
    intro ttl httl
    have hdvd : 1000000000 ∣ (d.resolve ttl).toInt := httl
    change 1000000 ∣ (d.resolve ttl).toInt
    omega
  alive := fun _ _ _ _ => rfl

/-! ## Memory and NATS -/

theorem keyed_of_portable {held : Key → Option Bytes} (h : Portable held op) :
    Nats.Equivalence.keyed op = true := by
  cases op with
  | flush => exact absurd rfl h.keyed
  | _ => rfl

/-- A number as the stores write it is not empty. -/
theorem sparing_of_portable {held : Key → Option Bytes} (h : Portable held op) :
    Nats.Equivalence.sparing held op := by
  refine ⟨keyed_of_portable h, ?_⟩
  intro hempty
  obtain ⟨key, delta, ttl, hop, hheld⟩ := hempty.counter
  have hcount := h.counts key delta ttl hop
  rw [hheld] at hcount
  obtain ⟨n, hn, -⟩ := hcount
  have hparse := Decimal.parseInt_formatInt n
  rw [← hn] at hparse
  cases hparse

theorem memoryStore_portable (d : DefaultTTL) :
    Lawful (portable d) (Nats.Equivalence.memoryStore d) := by
  have hcalls : ∀ held op, Portable held op → Nats.Equivalence.keyed op = true :=
    fun _ _ => keyed_of_portable
  exact (Nats.Equivalence.memoryStore_lawful hcalls).restrict (within_nats d _)
    fun _ _ h => h

theorem natsStore_portable {cfg : Nats.Config} (h : cfg.Willing) :
    Lawful (portable cfg.defaultTTL) (Nats.Equivalence.natsStore cfg) :=
  (Nats.Equivalence.natsStore_lawful h).restrict (within_nats _ _)
    fun _ _ => sparing_of_portable

/-! ## SQL -/

section Sql

open ExpiringTable

variable {cfg : Sql.Config} {t : Sql.Table} {key : Key}

theorem sql_deleteMany (h : Willing cfg) (keys : List Key) :
    (sqlLayout cfg).Recordwise (Sql.exec cfg) now t (.deleteMany keys) := by
  apply Layout.recordwise_of_deleteMany (c := none) rfl
  have hnone : (keys.map (Sql.cacheKey cfg)).findSome? (cfg.refuses .delete) = none :=
    List.findSome?_eq_none_iff.mpr fun k _ => h _ k
  simp only [Sql.exec, Sql.deleteMany, hnone]
  rfl

/-- The release of a row that lives.  The statement does not look at the expiration. -/
theorem sql_lockRelease (h : Willing cfg) (owner : Bytes)
    (hheld : (sqlLayout cfg).live now t key ≠ none) :
    (sqlLayout cfg).Recordwise (Sql.exec cfg) now t (.lockRelease key owner) := by
  cases hrow : t (Sql.cacheKey cfg key) with
  | none =>
    have hlive : (sqlLayout cfg).live now t key = none := Layout.live_of_none hrow
    exact absurd hlive hheld
  | some row =>
    have hlive : (sqlLayout cfg).live now t key = some row.v := by
      cases hdead : row.expired now with
      | true => exact absurd (sql_live_of_dead hrow hdead) hheld
      | false => exact sql_live_of_live hrow hdead
    by_cases howner : row.v = owner
    · apply Layout.recordwise_of_update (c := none) rfl
      · rw [hlive, Op.plan, if_pos (congrArg some howner)]
      · simp only [Sql.exec, Sql.lockRelease, Sql.deleteOwnedRow, sql_statement h, hrow,
          if_pos howner]
        rfl
      · rfl
    · apply Layout.recordwise_of_keep rfl
      · rw [hlive, Op.plan, if_neg fun heq => howner (Option.some.inj heq)]
      · simp only [Sql.exec, Sql.lockRelease, Sql.deleteOwnedRow, sql_statement h, hrow,
          if_neg howner]
        rfl

/-- The SQL store follows the contract in the common setting. -/
theorem sqlStore_portable (h : Willing cfg) : Lawful (portable cfg.defaultTTL) (sqlStore cfg) := by
  have hwithin := within_tables cfg.defaultTTL
  apply Layout.lawful ((sqlLayout_sound cfg).restrict hwithin)
  · intro now t op hnow _ hop
    have hwhole := hwithin.times now hnow
    cases op with
    | deleteMany keys => exact sql_deleteMany h keys
    | flush => exact absurd rfl hop.call.keyed
    | lockAcquire key owner ttl => exact (sql_add h hwhole owner ttl).lockAcquire rfl
    | lockRelease key owner => exact sql_lockRelease h owner (hop.call.held key owner rfl)
    | _ => exact sql_recordwise h hwhole rfl
  · intro now t key
    exact Or.inl rfl

end Sql

/-! ## DynamoDB -/

section Dynamo

open ExpiringTable

variable {cfg : Dynamo.Config} {t : Dynamo.Table} {key : Key}

/-- The batches of `DeleteMany` together remove the items of all keys. -/
theorem dynamo_deleteBatches {n fuel : Nat} {keys : List Key} (hdistinct : keys.Nodup)
    (hfuel : keys.length ≤ fuel) (t : Dynamo.Table) :
    Dynamo.deleteBatches .willing cfg n fuel t keys =
      (fun k => if k ∈ keys.map (Dynamo.cacheKey cfg) then none else t k, none) := by
  induction fuel generalizing n t keys with
  | zero =>
    have hnil : keys = [] := List.length_eq_zero_iff.mp (by omega)
    subst hnil
    simp only [Dynamo.deleteBatches, List.map_nil, List.not_mem_nil, if_false]
  | succ fuel ih =>
    by_cases hnil : keys = []
    · subst hnil
      simp only [Dynamo.deleteBatches, if_true, List.map_nil, List.not_mem_nil, if_false]
    · have hbatch : ((keys.take Dynamo.maxBatch).map (Dynamo.cacheKey cfg)).Nodup :=
        (hdistinct.sublist (List.take_sublist _ _)).map (Dynamo.cacheKey_injective cfg)
      have hrest : (keys.drop Dynamo.maxBatch).length ≤ fuel := by
        have hpos : 0 < keys.length := List.length_pos_iff.mpr hnil
        rw [List.length_drop, Dynamo.maxBatch]
        omega
      simp only [Dynamo.deleteBatches, if_neg hnil, Dynamo.batchDelete, Dynamo.Service.willing,
        if_pos hbatch]
      rw [← Dynamo.Service.willing, ih (hdistinct.sublist (List.drop_sublist _ _)) hrest]
      congr 1
      funext k
      -- a key is in the first batch or in one of the rest
      have hsplit : k ∈ keys.map (Dynamo.cacheKey cfg) ↔
          k ∈ (keys.take Dynamo.maxBatch).map (Dynamo.cacheKey cfg) ∨
            k ∈ (keys.drop Dynamo.maxBatch).map (Dynamo.cacheKey cfg) := by
        rw [← List.mem_append, ← List.map_append, List.take_append_drop]
      by_cases hlast : k ∈ (keys.drop Dynamo.maxBatch).map (Dynamo.cacheKey cfg)
      · rw [if_pos hlast, if_pos (hsplit.mpr (Or.inr hlast))]
      · rw [if_neg hlast]
        by_cases hfirst : k ∈ (keys.take Dynamo.maxBatch).map (Dynamo.cacheKey cfg)
        · rw [if_pos ⟨hfirst, trivial⟩, if_pos (hsplit.mpr (Or.inl hfirst))]
        · rw [if_neg fun hk => hfirst hk.1, if_neg fun hk => (hsplit.mp hk).elim hfirst hlast]

theorem dynamo_deleteMany {keys : List Key} (hdistinct : keys.Nodup) :
    (dynamoLayout cfg).Recordwise (Dynamo.exec .willing [] cfg) now t (.deleteMany keys) := by
  apply Layout.recordwise_of_deleteMany (c := none) rfl
  simp only [Dynamo.exec, Dynamo.deleteMany, dynamo_deleteBatches hdistinct le_rfl]
  rfl

/-- The release of an item that lives.  The condition does not look at the expiration. -/
theorem dynamo_lockRelease (owner : Bytes) (hheld : (dynamoLayout cfg).live now t key ≠ none) :
    (dynamoLayout cfg).Recordwise (Dynamo.exec .willing [] cfg) now t
      (.lockRelease key owner) := by
  cases hitem : t (Dynamo.cacheKey cfg key) with
  | none =>
    have hlive : (dynamoLayout cfg).live now t key = none := Layout.live_of_none hitem
    exact absurd hlive hheld
  | some item =>
    have hlive : (dynamoLayout cfg).live now t key = item.v := by
      cases hdead : item.expired now with
      | true => exact absurd (dynamo_live_of_dead hitem hdead) hheld
      | false => exact dynamo_live_of_live hitem hdead
    by_cases howner : item.v = some owner
    · have howned : Dynamo.ownedBy owner (some item) = true := decide_eq_true howner
      apply Layout.recordwise_of_update (c := none) rfl
      · rw [hlive, Op.plan, if_pos howner]
      · simp only [Dynamo.exec, Dynamo.lockRelease, Dynamo.Service.willing, hitem,
          if_pos howned]
        rfl
      · rfl
    · have hforeign : ¬Dynamo.ownedBy owner (some item) = true := by
        simpa only [Dynamo.ownedBy, decide_eq_true_eq] using howner
      apply Layout.recordwise_of_keep rfl
      · rw [hlive, Op.plan, if_neg howner]
      · simp only [Dynamo.exec, Dynamo.lockRelease, Dynamo.Service.willing, hitem,
          if_neg hforeign]
        rfl

/-- The DynamoDB store follows the contract in the common setting. -/
theorem dynamoStore_portable (cfg : Dynamo.Config) :
    Lawful (portable cfg.defaultTTL) (dynamoStore cfg) := by
  have hwithin := within_tables cfg.defaultTTL
  apply Layout.lawful ((dynamoLayout_sound cfg).restrict hwithin)
  · intro now t op hnow hvalid hop
    have hwhole := hwithin.times now hnow
    cases op with
    | deleteMany keys => exact dynamo_deleteMany (hop.call.distinct keys rfl)
    | flush => exact absurd rfl hop.call.keyed
    | lockAcquire key owner ttl => exact (dynamo_add hvalid hwhole owner ttl).lockAcquire rfl
    | lockRelease key owner => exact dynamo_lockRelease owner (hop.call.held key owner rfl)
    | _ => exact dynamo_recordwise hvalid hwhole rfl
  · intro now t key
    exact Or.inl rfl

end Dynamo

/-! ## The fleet -/

/-- The drivers whose stores follow the contract. -/
inductive Driver where
  | memory
  | sql
  | dynamo
  | nats
  | redis
deriving DecidableEq, Repr

/-- What the store of a driver keeps. -/
def Driver.State : Driver → Type
  | memory => Memory.Items
  | sql => Sql.Table
  | dynamo => Dynamo.Table
  | nats => Nats.Bucket
  | redis => Redis.Keyspace

/-- Stores with one default lifetime, on backends that do what they are asked for. -/
structure Fleet where
  defaultTTL : DefaultTTL
  sql : Sql.Config
  dynamo : Dynamo.Config
  nats : Nats.Config
  redis : Redis.Config
  sql_ttl : sql.defaultTTL = defaultTTL
  dynamo_ttl : dynamo.defaultTTL = defaultTTL
  nats_ttl : nats.defaultTTL = defaultTTL
  redis_ttl : redis.defaultTTL = defaultTTL
  sql_willing : ExpiringTable.Willing sql
  nats_willing : nats.Willing
  redis_client : redis.client = .scripted

/-- The common setting of the stores. -/
def Fleet.setting (F : Fleet) : Setting := portable F.defaultTTL

/-- The store of a driver. -/
def Fleet.store (F : Fleet) : (b : Driver) → Store b.State
  | .memory => Nats.Equivalence.memoryStore F.defaultTTL
  | .sql => ExpiringTable.sqlStore F.sql
  | .dynamo => ExpiringTable.dynamoStore F.dynamo
  | .nats => Nats.Equivalence.natsStore F.nats
  | .redis => Redis.redisStore F.redis

/-- Every store of a fleet follows the contract. -/
theorem store_lawful (F : Fleet) (b : Driver) : Lawful F.setting (F.store b) := by
  unfold Fleet.setting
  cases b with
  | memory => exact memoryStore_portable F.defaultTTL
  | sql =>
    rw [← F.sql_ttl]
    exact sqlStore_portable F.sql_willing
  | dynamo =>
    rw [← F.dynamo_ttl]
    exact dynamoStore_portable F.dynamo
  | nats =>
    rw [← F.nats_ttl]
    exact natsStore_portable F.nats_willing
  | redis =>
    rw [← F.redis_ttl]
    exact Redis.redisStore_lawful F.redis_client

/-- Any two stores of a fleet run alike: from stores that hold the same, in every run of portable
calls, of what the stores do on their own and of the clock, every answer is the same. -/
theorem drivers_interchangeable (F : Fleet) (a b : Driver) :
    RunsAlike F.setting (F.store a) (F.store b) :=
  runsAlike_of_lawful (store_lawful F a) (store_lawful F b)

/-! ### A run of two stores -/

/-- Stores with the default configuration. -/
def sampleFleet : Fleet where
  defaultTTL := DefaultTTL.normalize 0
  sql := Sql.Config.sqlite []
  dynamo := ⟨[], DefaultTTL.normalize 0⟩
  nats := Nats.Equivalence.sampleConfig
  redis := .new .scripted [] 0
  sql_ttl := rfl
  dynamo_ttl := rfl
  nats_ttl := rfl
  redis_ttl := rfl
  sql_willing := fun _ _ => rfl
  nats_willing := Nats.Equivalence.sampleConfig_willing
  redis_client := rfl

/-- Counting by five for a second. -/
def countsFive : Op := .increment (ascii "k") 5 1000000000

/-- The call is portable when the key holds nothing, or a five. -/
theorem countsFive_admitted {held : Key → Option Bytes}
    (h : Countable 5 (held (ascii "k"))) : sampleFleet.setting.Admits held countsFive where
  lifetime := by
    rintro ttl ⟨⟩
    change (1000000000 : Int) ∣ _
    decide
  call := by
    refine ⟨by decide, ?_, ?_, ?_⟩
    · rintro keys ⟨⟩
    · rintro key delta ttl ⟨⟩
      exact h
    · rintro key owner ⟨⟩

/-- A memory store and a Redis store after one counter call, a second later. -/
def countedWorld : World Memory.Items Redis.Keyspace where
  first := ((sampleFleet.store .memory).exec 0 (fun _ => none : Memory.Items) countsFive).1
  second := ((sampleFleet.store .redis).exec 0 (fun _ => none : Redis.Keyspace) countsFive).1
  now := 1000000000

/-- At the last instant of its life the counter is counted on by both stores. -/
theorem drivers_interchangeable_counter :
    ((sampleFleet.store .memory).exec countedWorld.now countedWorld.first countsFive).2 =
        ((sampleFleet.store .redis).exec countedWorld.now countedWorld.second countsFive).2 ∧
      ((sampleFleet.store .redis).exec countedWorld.now countedWorld.second countsFive).2 =
        .number 10 := by
  have hstart : Start sampleFleet.setting (sampleFleet.store .memory) (sampleFleet.store .redis)
      ⟨(fun _ => none : Memory.Items), (fun _ => none : Redis.Keyspace), 0⟩ := by
    refine ⟨⟨by decide, by decide, by decide⟩, ?_, ?_, fun _ _ _ _ => rfl⟩
    · rintro _ _ ⟨⟩
    · rintro _ _ ⟨⟩
  have hguard : Along (step (sampleFleet.store .memory) (sampleFleet.store .redis))
      (Guard sampleFleet.setting (sampleFleet.store .memory))
      ⟨(fun _ => none : Memory.Items), (fun _ => none : Redis.Keyspace), 0⟩
      [.call countsFive, .tick 1000000000] := by
    refine ⟨countsFive_admitted trivial, ?_⟩
    rintro w ⟨⟩
    refine ⟨⟨by decide, by decide, by decide⟩, ?_⟩
    rintro w ⟨⟩
    trivial
  have hfive : (sampleFleet.store .memory).live countedWorld.now countedWorld.first (ascii "k") =
      some (Decimal.formatInt 5) := by
    decide +kernel
  refine ⟨?_, by decide +kernel⟩
  refine drivers_interchangeable sampleFleet .memory .redis _ countedWorld _ hstart hguard rfl
    countsFive (countsFive_admitted ?_)
  rw [hfive]
  exact ⟨5, rfl, by decide⟩

/-! ## Locks -/

theorem portable_fading (d : DefaultTTL) : (portable d).Fading := by
  intro made ttl now later hle halive
  exact decide_eq_true (hle.trans (of_decide_eq_true halive))

/-- On every store of a fleet a lock has one holder.  In every run of lock calls, calls on other
keys, clean-ups and the clock: while the lock of one owner lives, no other owner's does, every
`LockAcquire` is refused, and so is the `LockRelease` of every other owner. -/
theorem drivers_lock {τ : Type} [DecidableEq τ] (F : Fleet) (b : Driver) (L : Owners τ)
    {w₀ w : LockWorld b.State τ} {es : List (LockEvent τ)}
    (hstart : F.setting.times w₀.now ∧ (F.store b).valid w₀.state ∧ ∀ o, w₀.grants o = none)
    (hguard : Along (lockStep (F.store b) L) (LockGuard F.setting (F.store b) L) w₀ es)
    (hrun : run (lockStep (F.store b) L) w₀ es = some w) {o : τ} (ho : Holds F.setting w o) :
    Excludes F.setting (F.store b) L w o := by
  have hlawful := store_lawful F b
  have hbacked : Backed F.setting (F.store b) L w₀ := by
    refine ⟨hstart.1, hstart.2.1, ?_⟩
    intro o g hg
    rw [hstart.2.2 o] at hg
    cases hg
  have hlast : Backed F.setting (F.store b) L w :=
    run_preserves_along (fun _ _ _ hw hG h =>
      backed_step hlawful (portable_fading F.defaultTTL) hw hG h) hbacked hguard hrun
  exact hlast.excludes hlawful ho

/-- Two owners of the lock `k`. -/
def twoOwners : Owners Bool where
  key := ascii "k"
  token := fun o => if o then ascii "t" else ascii "f"
  injective := by decide

/-- The lock calls of two owners on an empty DynamoDB table; the second one is refused. -/
theorem drivers_lock_refused :
    ((sampleFleet.store .dynamo).exec 0
        ((sampleFleet.store .dynamo).exec 0 (fun _ => none : Dynamo.Table)
          (.lockAcquire (ascii "k") (ascii "t") 1000000000)).1
        (.lockAcquire (ascii "k") (ascii "f") 1000000000)).2 = .flag false := by
  have hadmits : ∀ held o, sampleFleet.setting.Admits held
      (.lockAcquire twoOwners.key (twoOwners.token o) 1000000000) := by
    intro held o
    refine ⟨?_, .of_simple rfl⟩
    rintro ttl ⟨⟩
    change (1000000000 : Int) ∣ _
    decide
  let w₀ : LockWorld Dynamo.Table Bool := ⟨fun _ => none, 0, fun _ => none⟩
  have hguard : Along (lockStep (sampleFleet.store .dynamo) twoOwners)
      (LockGuard sampleFleet.setting (sampleFleet.store .dynamo) twoOwners) w₀
      [.acquire true 1000000000] :=
    ⟨hadmits _ true, fun _ _ => trivial⟩
  refine (drivers_lock sampleFleet .dynamo twoOwners ⟨⟨by decide, by decide, by decide⟩, ?_,
    fun _ => rfl⟩ hguard rfl (o := true) ⟨⟨0, 1000000000⟩, ?_, ?_⟩).refused false
      1000000000 (hadmits _ false)
  · rintro _ _ ⟨⟩
  · decide +kernel
  · decide +kernel

/-! ## Shaping -/

/-- A store of a fleet behind `WrapStore` answers as any store of the fleet does without, in every
run of portable calls that the configuration accepts, of clean-ups and of the clock, if at the
start the store below the layers holds encodings of what the other store holds. -/
theorem drivers_shaped (F : Fleet) (a b : Driver) (W : Shaping.Wrap)
    (nonces : Int → b.State → Op → Shaping.Nonce) {w₀ w : World a.State b.State} {es : List Event}
    (hstart : Shaping.Related W (F.store a) (F.store b) w₀)
    (hguard : Along (step (F.store a) (W.store nonces (F.store b)))
      (Shaping.ShapedGuard F.defaultTTL W (F.store a)) w₀ es)
    (hrun : run (step (F.store a) (W.store nonces (F.store b))) w₀ es = some w)
    (hop : F.setting.Admits ((F.store a).live w.now w.first) op)
    (haccepts : W.Accepts ((F.store a).live w.now w.first) op) :
    ((W.store nonces (F.store b)).exec w.now w.second op).2 =
      ((F.store a).exec w.now w.first op).2 := by
  have hrelated : Shaping.Related W (F.store a) (F.store b) w :=
    run_preserves_along (fun _ _ _ hw hG h =>
      Shaping.related_step (store_lawful F a) (store_lawful F b) hw hG h) hstart hguard hrun
  exact (Shaping.related_call (store_lawful F a) (store_lawful F b) hrelated hop haccepts).1

/-- Gzip and a key; all keys hold values. -/
def gzipWrap : Shaping.Wrap where
  gz := Shaping.sampleGzip
  aead := Shaping.sampleAead
  cfg := Shaping.gzipAndKey
  valid := by decide
  plain := fun _ => false

/-- The nonce of zeros. -/
def zeroNonce : Shaping.Nonce := ⟨List.replicate 12 0, rfl⟩

/-- `hi` for a second. -/
def setsHi : Op := .set (ascii "k") (ascii "hi") 1000000000

/-- A memory store, and a Redis store behind the layers, after the write of `hi`. -/
def shapedWorld : World Memory.Items Redis.Keyspace where
  first := ((sampleFleet.store .memory).exec 0 (fun _ => none : Memory.Items) setsHi).1
  second := ((gzipWrap.store (fun _ _ _ => zeroNonce) (sampleFleet.store .redis)).exec 0
    (fun _ => none : Redis.Keyspace) setsHi).1
  now := 0

/-- The value is read back through the layers. -/
theorem drivers_shaped_hi :
    ((gzipWrap.store (fun _ _ _ => zeroNonce) (sampleFleet.store .redis)).exec 0
        shapedWorld.second (.get (ascii "k"))).2 = .value (some (ascii "hi")) := by
  let w₀ : World Memory.Items Redis.Keyspace := ⟨fun _ => none, fun _ => none, 0⟩
  have hstart : Shaping.Related gzipWrap (sampleFleet.store .memory) (sampleFleet.store .redis)
      w₀ := by
    refine ⟨⟨by decide, by decide, by decide⟩, ?_, ?_, fun _ _ _ _ => .missing⟩
    · rintro _ _ ⟨⟩
    · rintro _ _ ⟨⟩
  have hset : sampleFleet.setting.Admits ((sampleFleet.store .memory).live 0 w₀.first) setsHi := by
    refine ⟨?_, .of_simple rfl⟩
    rintro ttl ⟨⟩
    change (1000000000 : Int) ∣ _
    decide
  have hguard : Along (step (sampleFleet.store .memory)
      (gzipWrap.store (fun _ _ _ => zeroNonce) (sampleFleet.store .redis)))
      (Shaping.ShapedGuard sampleFleet.defaultTTL gzipWrap (sampleFleet.store .memory)) w₀
      [.call setsHi] :=
    ⟨⟨hset, rfl, fun nonce => Shaping.decodeAll_encodeAll_gzip rfl rfl nonce _⟩, fun _ _ => trivial⟩
  have haccepts : gzipWrap.Accepts ((sampleFleet.store .memory).live 0 shapedWorld.first)
      (.get (ascii "k")) := fun hplain => by cases hplain
  have hanswer := drivers_shaped sampleFleet .memory .redis gzipWrap (fun _ _ _ => zeroNonce)
    (w := shapedWorld) hstart hguard rfl ⟨fun _ h => (by cases h), .of_simple rfl⟩
      haccepts
  refine hanswer.trans ?_
  decide +kernel

end Portability
end GoforjCache
