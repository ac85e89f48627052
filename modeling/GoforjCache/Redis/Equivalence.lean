import GoforjCache.Core.Portable
import GoforjCache.Redis.Store

/-!
# Redis - The keyspace as an expiring map

The server drops a string when its last millisecond has passed, so the store never meets a dead
one.  `SET` takes its lifetime in milliseconds and `EXPIRE` in whole seconds: a counter
lives as long as a value only if its lifetime is a number of seconds.  `INCRBY` does the
arithmetic, and refuses text that is not a number as the server writes it and sums that overflow.

Main results:

- Theorem `setMillis_eq_expireMillis`: for a lifetime in whole seconds both commands set the
  same end.
- Theorem `increment_eq`: the two commands of `Increment` leave the entry that
  `SET` of the sum leaves.
- Theorem `redisStore_lawful`: the Redis store follows the contract.
-/

namespace GoforjCache
namespace Redis

open Function Foundation Observation Foundation.Decimal
open Nats (millis)

/-! ## The store -/

/-- An error of the store as its callers see it. -/
def RedisError.passed : RedisError → CacheError
  | unavailable => .external 0
  | lockScriptsRequired => .external 1
  | notInteger => .external 2
  | overflow => .external 3
  | client code => .external (code + 4)
  | expire cause => cause.passed

/-- A call with the result of the contract. -/
def call (svc : Service) (cfg : Config) (now : Int) (t : Keyspace) (op : Op) : Keyspace × Res :=
  let r := exec svc cfg now op t
  (r.1, Res.ofExcept id (r.2.mapError RedisError.passed))

theorem cacheKey_injective (cfg : Config) : Injective (cacheKey cfg) := by
  intro key key' h
  exact List.append_cancel_left h

/-- The entries of the keyspace. -/
def redisLayout (cfg : Config) : Layout (Option Entry) Entry where
  name := cacheKey cfg
  name_injective := cacheKey_injective cfg
  record := id
  look := fun now e => if e.live now then some e.value else none
  entry := fun now value ttl => setEntry now value (cfg.defaultTTL.resolve ttl)
  proper := fun _ => True
  proper_entry := fun _ _ _ => trivial

/-- The Redis store with a server that does everything it is asked for, seen through what its keys
hold.  The server may drop dead entries at any time. -/
def redisStore (cfg : Config) : Store Keyspace :=
  (redisLayout cfg).store (call .willing cfg) fun now t => Keyspace.find t now

variable {cfg : Config} {now later : Int} {t : Keyspace} {key : Key} {ttl : Duration}

/-! ## Lifetimes -/

/-- For a lifetime in whole seconds `SET` and `EXPIRE` set the same end. -/
theorem setMillis_eq_expireMillis {d : Duration} (hpos : 0 < d.toInt)
    (hdvd : 1000000000 ∣ d.toInt) : setMillis d = expireMillis d := by
  unfold setMillis expireMillis
  omega

/-- Entries die at the end of their lifetime. -/
theorem redisLayout_sound (cfg : Config) : (redisLayout cfg).Sound (portable cfg.defaultTTL) where
  dead := by
    intro now later e _ _ hle hdead
    dsimp only [redisLayout] at hdead ⊢
    cases hexpires : e.expires with
    | none => simp [Entry.live, hexpires] at hdead
    | some deadline =>
      simp only [Entry.live, hexpires, decide_eq_true_eq, ite_eq_right_iff, reduceCtorEq,
        imp_false] at hdead ⊢
      unfold millis Instant at *
      omega
  lives := by
    intro now later value ttl hnow hlater _ httl
    have hpos : 0 < (cfg.defaultTTL.resolve ttl).toInt :=
      Int64.lt_iff_toInt_lt.mp (cfg.defaultTTL.resolve_pos ttl)
    have hdvd := hnow.dvd
    have hdvd' := hlater.dvd
    have hseconds : 1000000000 ∣ (cfg.defaultTTL.resolve ttl).toInt := httl
    have hiff : millis later ≤ millis now + setMillis (cfg.defaultTTL.resolve ttl) ↔
        later ≤ now + (cfg.defaultTTL.resolve ttl).toInt := by
      unfold setMillis millis Instant
      omega
    simp only [redisLayout, setEntry, Entry.live, portable, decide_eq_true_eq, hiff]

/-! ## What a command finds -/

theorem live_eq_find : (redisLayout cfg).live now t key =
    (t.find now (cacheKey cfg key)).map Entry.value := by
  unfold Layout.live Layout.at_ Keyspace.find
  cases hentry : t (cacheKey cfg key) with
  | none => simp [redisLayout, hentry]
  | some e => cases hlive : e.live now <;> simp [redisLayout, hentry, hlive, Option.filter]

/-- A command may find a live entry, or drop a dead one. -/
theorem becomes_find : (redisLayout cfg).Becomes now ((redisLayout cfg).at_ t key) .keep
    (t.find now (cacheKey cfg key)) := by
  unfold Layout.at_ Keyspace.find
  cases hentry : t (cacheKey cfg key) with
  | none => exact Or.inl (by simp [redisLayout, hentry])
  | some e =>
    cases hlive : e.live now with
    | true => exact Or.inl (by simp [redisLayout, hentry, hlive, Option.filter])
    | false => exact Or.inr (by simp [redisLayout, hentry, hlive, Option.filter])

/-- A key that holds a value has a live entry. -/
theorem find_of_live {value : Bytes} (h : (redisLayout cfg).live now t key = some value) :
    ∃ e, t.find now (cacheKey cfg key) = some e ∧ e.value = value ∧ e.live now = true := by
  rw [live_eq_find] at h
  obtain ⟨e, hfind, hvalue⟩ := Option.map_eq_some_iff.mp h
  exact ⟨e, hfind, hvalue, (Option.filter_eq_some_iff.mp hfind).2⟩

theorem find_of_missing (h : (redisLayout cfg).live now t key = none) :
    t.find now (cacheKey cfg key) = none := by
  rw [live_eq_find] at h
  exact Option.map_eq_none_iff.mp h

/-- What is written and lives is found. -/
theorem find_update {k : Key} {e : Entry} (hlive : e.live now = true) :
    Keyspace.find (update t k (some e)) now k = some e := by
  simp [Keyspace.find, Option.filter, hlive]

theorem withClient_of_scripted (h : cfg.client = .scripted) {α : Type} (f : Effect α) :
    cfg.withClient f = f := by
  rw [Config.withClient, h]

theorem withScripts_of_scripted (h : cfg.client = .scripted) {α : Type} (f : Effect α) :
    cfg.withScripts f = f := by
  rw [Config.withScripts, h]

theorem command_willing {α : Type} (c : Command) (f : Effect α) : Service.willing.command c f = f :=
  rfl

/-! ## The calls -/

theorem redis_get (h : cfg.client = .scripted) :
    (redisLayout cfg).Recordwise (call .willing cfg) now t (.get key) := by
  apply Layout.recordwise_of_update rfl rfl
  · simp only [call, exec, get, withClient_of_scripted h, command_willing, Effect.map, getCommand,
      onKey, live_eq_find]
    rfl
  · exact becomes_find

theorem redis_set (h : cfg.client = .scripted) (value : Bytes) (ttl : Duration) :
    (redisLayout cfg).Recordwise (call .willing cfg) now t (.set key value ttl) := by
  apply Layout.recordwise_of_update rfl rfl
  · simp only [call, exec, set, withClient_of_scripted h, command_willing, Effect.map, setCommand,
      onKey]
    rfl
  · rfl

/-- `SET` with `NX` finds an entry, or writes one. -/
theorem redis_add (h : cfg.client = .scripted) (value : Bytes) (ttl : Duration) :
    (redisLayout cfg).Recordwise (call .willing cfg) now t (.add key value ttl) := by
  cases hlive : (redisLayout cfg).live now t key with
  | none =>
    apply Layout.recordwise_of_update rfl
    · rw [hlive]
    · simp only [call, exec, add, withClient_of_scripted h, command_willing, Effect.map,
        setNXCommand, onKey, find_of_missing hlive]
      rfl
    · rfl
  | some held =>
    obtain ⟨e, hfind, -, -⟩ := find_of_live hlive
    apply Layout.recordwise_of_update (c := some e) rfl
    · rw [hlive]
    · simp only [call, exec, add, withClient_of_scripted h, command_willing, Effect.map,
        setNXCommand, onKey, hfind]
      rfl
    · rw [← hfind]
      exact becomes_find

theorem redis_lockAcquire (h : cfg.client = .scripted) (owner : Bytes) (ttl : Duration) :
    (redisLayout cfg).Recordwise (call .willing cfg) now t (.lockAcquire key owner ttl) := by
  apply (redis_add h owner ttl).lockAcquire
  simp only [call, exec, lockAcquire, withScripts_of_scripted h]

/-- The release script compares the owner and removes the entry at once. -/
theorem redis_lockRelease (h : cfg.client = .scripted) (owner : Bytes) :
    (redisLayout cfg).Recordwise (call .willing cfg) now t (.lockRelease key owner) := by
  cases hlive : (redisLayout cfg).live now t key with
  | none =>
    apply Layout.recordwise_of_update (c := none) rfl
    · rw [hlive]
    · simp only [call, exec, lockRelease, withScripts_of_scripted h, command_willing, Effect.map,
        releaseScript, onKey, find_of_missing hlive]
      rfl
    · rw [← find_of_missing hlive]
      exact becomes_find
  | some held =>
    obtain ⟨e, hfind, hvalue, -⟩ := find_of_live hlive
    by_cases howner : held = owner
    · apply Layout.recordwise_of_update (c := none) rfl
      · rw [hlive, Op.plan, if_pos (congrArg some howner)]
      · simp only [call, exec, lockRelease, withScripts_of_scripted h, command_willing,
          Effect.map, releaseScript, onKey, hfind, hvalue, if_pos howner]
        rfl
      · rfl
    · apply Layout.recordwise_of_update (c := some e) rfl
      · rw [hlive, Op.plan, if_neg fun heq => howner (Option.some.inj heq)]
      · simp only [call, exec, lockRelease, withScripts_of_scripted h, command_willing,
          Effect.map, releaseScript, onKey, hfind, hvalue, if_neg howner]
        rfl
      · rw [← hfind]
        exact becomes_find

theorem redis_deleteMany (h : cfg.client = .scripted) (keys : List Key) :
    (redisLayout cfg).Recordwise (call .willing cfg) now t (.deleteMany keys) := by
  apply Layout.recordwise_of_deleteMany (c := none) rfl
  simp only [call, exec, deleteMany, withClient_of_scripted h, command_willing, Effect.map]
  by_cases hnil : keys = []
  · subst hnil
    simp only [if_true, List.map_nil, List.not_mem_nil, if_false]
    rfl
  · simp only [if_neg hnil]
    rfl

theorem redis_delete (h : cfg.client = .scripted) :
    (redisLayout cfg).Recordwise (call .willing cfg) now t (.delete key) := by
  apply Layout.recordwise_of_update (c := none) rfl rfl
  · simp only [call, exec, delete, withClient_of_scripted h, command_willing, Effect.map,
      delCommand, List.mem_singleton]
    refine Prod.ext (funext fun k => ?_) rfl
    by_cases hk : k = cacheKey cfg key
    · subst hk
      simp [redisLayout]
    · simp [redisLayout, hk]
  · rfl

/-! ## Counters -/

/-- `EXPIRE` of an entry that was just written. -/
theorem expire_update {k : Key} {e : Entry} (hlive : e.live now = true) (ttl : Duration) :
    expireCommand now k ttl (update t k (some e)) =
      (update t k (some ⟨e.value, some (millis now + expireMillis ttl)⟩), .ok true) := by
  simp only [expireCommand, onKey, find_update hlive, update_idem]

variable {delta : Int64} {op : Op}

/-- What `INCRBY` leaves and answers on a number as the server writes it. -/
theorem incrBy_eq {n : Int64} (hlive : (redisLayout cfg).live now t key = none ∧ n = 0 ∨
      (redisLayout cfg).live now t key = some (formatInt n))
    (hsum : (n + delta).toInt = n.toInt + delta.toInt) :
    ∃ e, incrByCommand now (cacheKey cfg key) delta t =
        (update t (cacheKey cfg key) (some e), .ok (n + delta)) ∧
      e.value = formatInt (n + delta) ∧ e.live now = true := by
  rcases hlive with ⟨hnone, rfl⟩ | hsome
  · refine ⟨⟨formatInt delta, none⟩, ?_, ?_, rfl⟩
    · simp only [incrByCommand, onKey, find_of_missing hnone, Int64.zero_add]
    · rw [Int64.zero_add]
  · obtain ⟨e, hfind, hvalue, hlive⟩ := find_of_live hsome
    have hstored : storedInt e.value = some n := by
      rw [hvalue, storedInt, parseInt_formatInt]
      exact if_pos rfl
    refine ⟨⟨formatInt (n + delta), e.expires⟩, ?_, rfl, hlive⟩
    simp only [incrByCommand, onKey, hfind, hstored, if_pos hsum]

/-- The two commands of `Increment` leave the entry that `SET` of the sum leaves. -/
theorem increment_eq (h : cfg.client = .scripted) {n : Int64}
    (hlive : (redisLayout cfg).live now t key = none ∧ n = 0 ∨
      (redisLayout cfg).live now t key = some (formatInt n))
    (hsum : (n + delta).toInt = n.toInt + delta.toInt)
    (httl : 1000000000 ∣ (cfg.defaultTTL.resolve ttl).toInt) :
    increment .willing cfg now key delta ttl t =
      (update t (cacheKey cfg key)
        (some (setEntry now (formatInt (n + delta)) (cfg.defaultTTL.resolve ttl))),
        .ok (n + delta)) := by
  obtain ⟨e, hincr, hvalue, hnew⟩ := incrBy_eq hlive hsum
  have hend := setMillis_eq_expireMillis
    (Int64.lt_iff_toInt_lt.mp (cfg.defaultTTL.resolve_pos ttl)) httl
  simp only [increment, withClient_of_scripted h, command_willing, Effect.andThen, hincr,
    Effect.map, Effect.mapError, expire_update hnew, hvalue, setEntry, hend]
  rfl

theorem call_counter (hop : op.counter = some (key, delta, ttl)) :
    call .willing cfg now t op =
      ((increment .willing cfg now key delta ttl t).1,
        Res.ofExcept id
          (((increment .willing cfg now key delta ttl t).2.map .number).mapError
            RedisError.passed)) := by
  cases op <;> cases hop <;> rfl

theorem redis_increment (h : cfg.client = .scripted) (hop : op.counter = some (key, delta, ttl))
    (hcount : Countable delta ((redisLayout cfg).live now t key))
    (httl : 1000000000 ∣ (cfg.defaultTTL.resolve ttl).toInt) :
    (redisLayout cfg).Recordwise (call .willing cfg) now t op := by
  obtain ⟨n, hplan, hlive, hsum⟩ := planIncrement_of_countable hcount ttl
  apply Layout.recordwise_of_update (Op.single_of_counter hop)
  · rw [Op.plan_of_counter hop, hplan]
  · rw [call_counter hop, increment_eq h hlive hsum httl]
    rfl
  · rfl

/-! ## The contract -/

/-- The calls of the Redis store work entry by entry. -/
theorem redis_recordwise (h : cfg.client = .scripted)
    (hop : (portable cfg.defaultTTL).Admits ((redisLayout cfg).live now t) op) :
    (redisLayout cfg).Recordwise (call .willing cfg) now t op := by
  cases op with
  | get key => exact redis_get h
  | set key value ttl => exact redis_set h value ttl
  | add key value ttl => exact redis_add h value ttl
  | increment key delta ttl | decrement key delta ttl =>
    exact redis_increment h rfl (hop.call.counts _ _ _ rfl) (hop.lifetime ttl rfl)
  | delete key => exact redis_delete h
  | deleteMany keys => exact redis_deleteMany h keys
  | flush => exact absurd rfl hop.call.keyed
  | lockAcquire key owner ttl => exact redis_lockAcquire h owner ttl
  | lockRelease key owner => exact redis_lockRelease h owner

/-- The Redis store follows the contract. -/
theorem redisStore_lawful (h : cfg.client = .scripted) :
    Lawful (portable cfg.defaultTTL) (redisStore cfg) := by
  apply Layout.lawful (redisLayout_sound cfg)
  · intro now t op _ _ hop
    exact redis_recordwise h hop
  · intro now t key
    exact becomes_find

end Redis
end GoforjCache
