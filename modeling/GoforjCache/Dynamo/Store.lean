import GoforjCache.Core.Types
import GoforjCache.Foundation.Decimal
import GoforjCache.Foundation.Noninterference
import GoforjCache.Nats.Envelope

/-!
# DynamoDB - The items and the store over them

The items of the DynamoDB store have attributes `k`, `v` and `ea`: the key with
its prefix, the value, and the expiration in milliseconds.  `GetItem` reads consistently,
and each service call is atomic.  The service may refuse a call, and a batch of deletions may
leave any of its requests unprocessed; both are parameters of a call.

Main results:

- Theorem `exec_local`: a call reads and writes only the items of its own keys.
-/

namespace GoforjCache
namespace Dynamo

open Function Foundation
open Nats (millis unixMilli)

/-! ## The table -/

/-- An item without its key.  The attributes are missing when an item was written by something
else: `v` unless it is binary, `ea` unless it is a 64-bit number. -/
structure Attributes where
  v : Option Bytes
  ea : Option Int64
deriving DecidableEq, Repr

/-- The table, by the full text of the key. -/
abbrev Table := Key → Option Attributes

/-- `expired`. -/
def Attributes.expired (item : Attributes) (now : Instant) : Bool :=
  match item.ea with
  | some exp => decide (exp < unixMilli now)
  | none => false

/-- The condition `ea < :now`; a comparison with a missing attribute is false. -/
def Attributes.before (item : Attributes) (nowMs : Int64) : Bool :=
  match item.ea with
  | some exp => decide (exp < nowMs)
  | none => false

/-- What is fixed: the fields of `dynamoStore`. -/
structure Config where
  keyPrefix : Bytes
  defaultTTL : DefaultTTL

/-- `dynamoStore.cacheKey`. -/
def cacheKey (cfg : Config) (key : Key) : Key :=
  if cfg.keyPrefix = [] then key else cfg.keyPrefix ++ ascii ":" ++ key

/-- Different keys have different full texts. -/
theorem cacheKey_injective (cfg : Config) : Injective (cacheKey cfg) := by
  intro key key' h
  unfold cacheKey at h
  split at h
  · exact h
  · exact List.append_cancel_left h

/-- The service calls of the store for one item. -/
inductive Request where
  | getItem
  | putItem
  | deleteItem
deriving DecidableEq, Repr

/-- The answer of the service to one `BatchWriteItem` call: an error, or success with the
requests that it leaves unprocessed. -/
abbrev BatchReply := Except CacheError (Key → Bool)

/-- How the service behaves during one call of the store: the requests it refuses for their key,
and its answers to the `BatchWriteItem` calls, in their order. -/
structure Service where
  refuses : Request → Key → Option CacheError
  batch : Nat → BatchReply

/-- A service that does everything it is asked for. -/
def Service.willing : Service := ⟨fun _ _ => none, fun _ => .ok fun _ => false⟩

/-! ## Operations -/

/-- The item that `Set` writes. -/
def setItem (cfg : Config) (now : Instant) (value : Bytes) (ttl : Duration) : Attributes :=
  ⟨some value, some (unixMilli (now + (cfg.defaultTTL.resolve ttl).toInt))⟩

/-- The item that `Add` writes, from its own reading of the clock in whole milliseconds. -/
def addItem (cfg : Config) (nowMs : Int64) (value : Bytes) (ttl : Duration) : Attributes :=
  ⟨some value, some (unixMilli (nowMs.toInt * 1000000 + (cfg.defaultTTL.resolve ttl).toInt))⟩

/-- The error of `Get` for an item without a binary value. -/
def missingValue : CacheError := .external 0

/-- `dynamoStore.Delete`. -/
def delete (svc : Service) (cfg : Config) (t : Table) (key : Key) : Table × Option CacheError :=
  match svc.refuses .deleteItem (cacheKey cfg key) with
  | some err => (t, some err)
  | none => (update t (cacheKey cfg key) none, none)

/-- `dynamoStore.Get`. -/
def get (svc : Service) (cfg : Config) (now : Instant) (t : Table) (key : Key) :
    Table × Except CacheError (Option Bytes) :=
  match svc.refuses .getItem (cacheKey cfg key), t (cacheKey cfg key) with
  | some err, _ => (t, .error err)
  | none, none => (t, .ok none)
  | none, some item =>
    -- the error of the removal is dropped
    if item.expired now then ((delete svc cfg t key).1, .ok none)
    else
      match item.v with
      | some value => (t, .ok (some value))
      | none => (t, .error missingValue)

/-- `dynamoStore.Set`. -/
def set (svc : Service) (cfg : Config) (now : Instant) (t : Table) (key : Key) (value : Bytes)
    (ttl : Duration) : Table × Option CacheError :=
  match svc.refuses .putItem (cacheKey cfg key) with
  | some err => (t, some err)
  | none => (update t (cacheKey cfg key) (some (setItem cfg now value ttl)), none)

/-- The condition of the `PutItem` of `Add`: no item, or one that has expired. -/
def addable (nowMs : Int64) : Option Attributes → Bool
  | none => true
  | some item => item.before nowMs

/-- `dynamoStore.Add`: a failed condition is reported as `false`. -/
def add (svc : Service) (cfg : Config) (now : Instant) (t : Table) (key : Key) (value : Bytes)
    (ttl : Duration) : Table × Except CacheError Bool :=
  let nowMs := unixMilli now
  match svc.refuses .putItem (cacheKey cfg key) with
  | some err => (t, .error err)
  | none =>
    if addable nowMs (t (cacheKey cfg key)) then
      (update t (cacheKey cfg key) (some (addItem cfg nowMs value ttl)), .ok true)
    else (t, .ok false)

/-- `dynamoStore.LockAcquire`. -/
def lockAcquire (svc : Service) (cfg : Config) (now : Instant) (t : Table) (key : Key)
    (owner : Bytes) (ttl : Duration) : Table × Except CacheError Bool :=
  add svc cfg now t key owner ttl

/-- The condition `v = :owner` of `LockRelease`. -/
def ownedBy (owner : Bytes) : Option Attributes → Bool
  | none => false
  | some item => decide (item.v = some owner)

/-- `dynamoStore.LockRelease`. -/
def lockRelease (svc : Service) (cfg : Config) (t : Table) (key : Key) (owner : Bytes) :
    Table × Except CacheError Bool :=
  match svc.refuses .deleteItem (cacheKey cfg key) with
  | some err => (t, .error err)
  | none =>
    if ownedBy owner (t (cacheKey cfg key)) then
      (update t (cacheKey cfg key) none, .ok true)
    else (t, .ok false)

/-- The number that `Increment` starts from. -/
def currentNumber (key : Key) : Option Bytes → Except CacheError Int64
  | none => .ok 0
  | some body =>
    match Decimal.parseInt body with
    | some n => .ok n
    | none => .error (.notNumeric key)

/-- `dynamoStore.Increment`, run without interruption: a `Get` and a `Set`. -/
def increment (svc : Service) (cfg : Config) (now : Instant) (t : Table) (key : Key)
    (delta : Int64) (ttl : Duration) : Table × Except CacheError Int64 :=
  match get svc cfg now t key with
  | (t', .error err) => (t', .error err)
  | (t', .ok body) =>
    match currentNumber key body with
    | .error err => (t', .error err)
    | .ok current =>
      let next := current + delta
      match set svc cfg now t' key (Decimal.formatInt next) ttl with
      | (t'', some err) => (t'', .error err)
      | (t'', none) => (t'', .ok next)

/-- `dynamoStore.Decrement`. -/
def decrement (svc : Service) (cfg : Config) (now : Instant) (t : Table) (key : Key)
    (delta : Int64) (ttl : Duration) : Table × Except CacheError Int64 :=
  increment svc cfg now t key (-delta) ttl

/-- The error of the service for a batch that names a key twice. -/
def duplicateRequest : CacheError := .external 1

/-- One `BatchWriteItem` call with deletions.  The call succeeds although requests may be
left unprocessed. -/
def batchDelete (reply : BatchReply) (t : Table) (ks : List Key) : Except CacheError Table :=
  match reply with
  | .error err => .error err
  | .ok unprocessed =>
    if ks.Nodup then .ok fun k => if k ∈ ks ∧ unprocessed k = false then none else t k
    else .error duplicateRequest

/-- `maxBatch`. -/
def maxBatch : Nat := 25

/-- The loop of `DeleteMany`: batches of 25 keys, at most `fuel` of them, from the
`n`-th call of `BatchWriteItem` on.  What the service left unprocessed is not looked
at. -/
def deleteBatches (svc : Service) (cfg : Config) : (n fuel : Nat) → Table → List Key →
    Table × Option CacheError
  | _, 0, t, _ => (t, none)
  | n, fuel + 1, t, keys =>
    if keys = [] then (t, none)
    else
      match batchDelete (svc.batch n) t ((keys.take maxBatch).map (cacheKey cfg)) with
      | .error err => (t, some err)
      | .ok t' => deleteBatches svc cfg (n + 1) fuel t' (keys.drop maxBatch)

/-- `dynamoStore.DeleteMany`; there are no more batches than keys. -/
def deleteMany (svc : Service) (cfg : Config) (n : Nat) (t : Table) (keys : List Key) :
    Table × Option CacheError :=
  deleteBatches svc cfg n keys.length t keys

/-- The number of batches for a number of keys. -/
def batchCount (length : Nat) : Nat := (length + (maxBatch - 1)) / maxBatch

/-- The key that `Flush` takes from an item: without the prefix, if it has the prefix. -/
def flushKey (cfg : Config) (k : Key) : Key :=
  if cfg.keyPrefix ≠ [] ∧ (cfg.keyPrefix ++ ascii ":").isPrefixOf k then
    k.drop (cfg.keyPrefix ++ ascii ":").length
  else k

/-- The loop of `Flush` over the pages of `Scan`: the keys of a page, or an error. -/
def flushPages (svc : Service) (cfg : Config) : Nat → List (Except CacheError (List Key)) →
    Table → Table × Option CacheError
  | _, [], t => (t, none)
  | _, .error err :: _, t => (t, some err)
  | n, .ok ks :: pages, t =>
    match deleteMany svc cfg n t (ks.map (flushKey cfg)) with
    | (t', some err) => (t', some err)
    | (t', none) => flushPages svc cfg (n + batchCount ks.length) pages t'

/-- Any operation of the contract, at one instant; `Flush` is given the pages that it reads. -/
def exec (svc : Service) (pages : List (Except CacheError (List Key))) (cfg : Config)
    (now : Instant) (t : Table) : Op → Table × Res
  | .get key => let r := get svc cfg now t key; (r.1, Res.ofExcept .value r.2)
  | .set key value ttl => let r := set svc cfg now t key value ttl; (r.1, Res.ofError r.2)
  | .add key value ttl => let r := add svc cfg now t key value ttl; (r.1, Res.ofExcept .flag r.2)
  | .increment key delta ttl =>
    let r := increment svc cfg now t key delta ttl; (r.1, Res.ofExcept .number r.2)
  | .decrement key delta ttl =>
    let r := decrement svc cfg now t key delta ttl; (r.1, Res.ofExcept .number r.2)
  | .delete key => let r := delete svc cfg t key; (r.1, Res.ofError r.2)
  | .deleteMany keys => let r := deleteMany svc cfg 0 t keys; (r.1, Res.ofError r.2)
  | .flush => let r := flushPages svc cfg 0 pages t; (r.1, Res.ofError r.2)
  | .lockAcquire key owner ttl =>
    let r := lockAcquire svc cfg now t key owner ttl; (r.1, Res.ofExcept .flag r.2)
  | .lockRelease key owner =>
    let r := lockRelease svc cfg t key owner; (r.1, Res.ofExcept .flag r.2)

/-! ## What a call reads and writes -/

section Locality

open Noninterference

variable {svc : Service} {cfg : Config} {now : Instant} {F : Key → Prop} {key : Key}

theorem local_delete (hk : F (cacheKey cfg key)) : Local F fun t => delete svc cfg t key := by
  unfold delete
  split
  · exact local_const F _
  · exact local_update hk _ _

theorem local_get (hk : F (cacheKey cfg key)) : Local F fun t => get svc cfg now t key := by
  refine local_of_entry hk fun found => ?_
  cases hrefuses : svc.refuses .getItem (cacheKey cfg key) with
  | some err =>
    refine ⟨_, local_const F (.error err), fun t _ => ?_⟩
    simp only [get, hrefuses]
  | none =>
    cases found with
    | none =>
      refine ⟨_, local_const F (.ok none), fun t ht => ?_⟩
      simp only [get, hrefuses, ht]
    | some item =>
      by_cases hexpired : item.expired now = true
      · have hdelete : Local F fun t => delete svc cfg t key := local_delete hk
        refine ⟨_, hdelete.map fun _ => .ok none, fun t ht => ?_⟩
        simp only [get, hrefuses, ht, hexpired, if_true]
      · cases hv : item.v with
        | none =>
          refine ⟨_, local_const F (.error missingValue), fun t ht => ?_⟩
          simp only [get, hrefuses, ht, if_neg hexpired, hv]
        | some value =>
          refine ⟨_, local_const F (.ok (some value)), fun t ht => ?_⟩
          simp only [get, hrefuses, ht, if_neg hexpired, hv]

theorem local_set (hk : F (cacheKey cfg key)) (value : Bytes) (ttl : Duration) :
    Local F fun t => set svc cfg now t key value ttl := by
  unfold set
  split
  · exact local_const F _
  · exact local_update hk _ _

/-- A request with a condition on the item of its key. -/
theorem local_conditional {k : Key} (hk : F k) (condition : Option Attributes → Bool)
    (item : Option Attributes) :
    Local F fun t : Table =>
      if condition (t k) then (update t k item, (.ok true : Except CacheError Bool))
      else (t, .ok false) := by
  refine local_of_entry hk fun found => ?_
  by_cases hfound : condition found = true
  · exact ⟨_, local_update hk item (.ok true), fun t ht => by rw [ht, if_pos hfound]⟩
  · exact ⟨_, local_const F (.ok false), fun t ht => by rw [ht, if_neg hfound]⟩

theorem local_add (hk : F (cacheKey cfg key)) (value : Bytes) (ttl : Duration) :
    Local F fun t => add svc cfg now t key value ttl := by
  unfold add
  dsimp only
  split
  · exact local_const F _
  · exact local_conditional hk _ _

theorem local_lockRelease (hk : F (cacheKey cfg key)) (owner : Bytes) :
    Local F fun t => lockRelease svc cfg t key owner := by
  unfold lockRelease
  split
  · exact local_const F _
  · exact local_conditional hk _ _

/-- The write of `Increment`, with the number that it returns. -/
theorem local_setNumber (hk : F (cacheKey cfg key)) (next : Int64) (ttl : Duration) :
    Local F fun t : Table =>
      match set svc cfg now t key (Decimal.formatInt next) ttl with
      | (t', some err) => (t', (.error err : Except CacheError Int64))
      | (t', none) => (t', .ok next) := by
  unfold set
  split
  · exact local_const F _
  · exact local_update hk _ _

theorem local_increment (hk : F (cacheKey cfg key)) (delta : Int64) (ttl : Duration) :
    Local F fun t => increment svc cfg now t key delta ttl := by
  have hget : Local F fun t => get svc cfg now t key := local_get hk
  have hrest : ∀ body : Except CacheError (Option Bytes), Local F fun t : Table =>
      match body with
      | .error err => (t, (.error err : Except CacheError Int64))
      | .ok body =>
        match currentNumber key body with
        | .error err => (t, .error err)
        | .ok current =>
          match set svc cfg now t key (Decimal.formatInt (current + delta)) ttl with
          | (t', some err) => (t', .error err)
          | (t', none) => (t', .ok (current + delta)) := by
    intro body
    cases body with
    | error err => exact local_const F _
    | ok body =>
      dsimp only
      split
      · exact local_const F _
      · exact local_setNumber hk _ ttl
  refine (hget.andThen hrest).of_eq fun t => ?_
  unfold increment
  rcases get svc cfg now t key with ⟨t', _ | body⟩ <;> rfl

/-- One batch removes items of its keys only. -/
theorem local_deleteBatches {keys : List Key} (hkeys : ∀ key ∈ keys, F (cacheKey cfg key))
    (n fuel : Nat) : Local F fun t => deleteBatches svc cfg n fuel t keys := by
  induction fuel generalizing n keys with
  | zero => exact local_const F _
  | succ fuel ih =>
    have hrest : Local F fun t => deleteBatches svc cfg (n + 1) fuel t (keys.drop maxBatch) :=
      ih (fun key hkey => hkeys key (List.mem_of_mem_drop hkey)) (n + 1)
    have hbatch : ∀ k ∈ (keys.take maxBatch).map (cacheKey cfg), F k := by
      intro k hk
      rcases List.mem_map.mp hk with ⟨key, hkey, rfl⟩
      exact hkeys key (List.mem_of_mem_take hkey)
    simp only [deleteBatches]
    split
    · exact local_const F _
    · cases hreply : svc.batch n with
      | error err => exact local_const F _
      | ok unprocessed =>
        unfold batchDelete
        dsimp only
        split
        · have hfill : Local F fun t : Table =>
              (fun k => if k ∈ (keys.take maxBatch).map (cacheKey cfg) ∧ unprocessed k = false
                then none else t k, ()) :=
            local_fill (fun k hk => hbatch k hk.1) none ()
          exact hfill.andThen fun _ => hrest
        · exact local_const F _

/-- A call other than `Flush` reads and writes only the items of its own keys. -/
theorem exec_local {pages : List (Except CacheError (List Key))} {op : Op} (hop : op ≠ .flush)
    (hkeys : ∀ key ∈ op.keys.getD [], F (cacheKey cfg key)) :
    Local F fun t => exec svc pages cfg now t op := by
  cases op with
  | get key => exact (local_get (hkeys key List.mem_cons_self)).map _
  | set key value ttl => exact (local_set (hkeys key List.mem_cons_self) value ttl).map _
  | add key value ttl => exact (local_add (hkeys key List.mem_cons_self) value ttl).map _
  | increment key delta ttl =>
    exact (local_increment (hkeys key List.mem_cons_self) delta ttl).map _
  | decrement key delta ttl =>
    exact (local_increment (hkeys key List.mem_cons_self) (-delta) ttl).map _
  | delete key => exact (local_delete (hkeys key List.mem_cons_self)).map _
  | deleteMany keys => exact (local_deleteBatches hkeys 0 keys.length).map _
  | flush => exact absurd rfl hop
  | lockAcquire key owner ttl => exact (local_add (hkeys key List.mem_cons_self) owner ttl).map _
  | lockRelease key owner => exact (local_lockRelease (hkeys key List.mem_cons_self) owner).map _

end Locality

end Dynamo
end GoforjCache
