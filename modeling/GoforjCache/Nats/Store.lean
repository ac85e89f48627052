import GoforjCache.Nats.Counters
import GoforjCache.Nats.Keys

/-!
# NATS - The store in envelope mode

The operations of the NATS store over a JetStream KeyValue bucket, each run without interruption.
A bucket has one revisioned register for a key; a deleted or purged key keeps its revision.  The
bucket may refuse any request, and which ones is a parameter.

Main results:

- Theorem `attempts_of_some`: `Increment` ends with the first attempt that meets no
  conflict.
-/

namespace GoforjCache
namespace Nats

open Foundation Foundation.Decimal

/-! ## The bucket -/

/-- The register of a bucket key.  The stream numbers its messages from one on. -/
structure Cell where
  register : Register Bytes
  positive : register.value ≠ none → 0 < register.revision

/-- A key that was never written. -/
def Cell.empty : Cell := ⟨⟨0, none⟩, fun h => absurd rfl h⟩

/-- A change of a bucket key. -/
def Cell.change (c : Cell) (skip : Nat) (value : Option Bytes) : Cell :=
  ⟨c.register.change skip value, fun _ => Nat.succ_pos _⟩

/-- The bucket, by the full text of the key. -/
abbrev Bucket := Key → Cell

/-- The requests of the store for one key. -/
inductive Request where
  | get
  | put
  | create
  | update
  | delete
  | purge
deriving DecidableEq, Repr

/-- What is fixed: JSON decoding, the fields of `store`, the requests that the bucket refuses
for their key, and how many numbers of the stream other keys take before the next change of a key
that is at a revision. -/
structure Config where
  unmarshal : Bytes → Option Envelope
  defaultTTL : DefaultTTL
  keyPrefix : Bytes
  refuses : Request → Key → Option CacheError
  gap : Key → Nat → Nat

/-- The scope of the store. -/
def Config.scope (cfg : Config) : Bytes := scopePrefix cfg.keyPrefix

/-- `store.cacheKey`. -/
def Config.cacheKey (cfg : Config) (key : Key) : Key := Nats.cacheKey cfg.keyPrefix key

variable (cfg : Config)

/-- A request is refused, or has its effect. -/
def Config.request {α : Type} (r : Request) (k : Key) (effect : α) : Except CacheError α :=
  match cfg.refuses r k with
  | some err => .error err
  | none => .ok effect

/-- The register of a key after a change. -/
def Config.changed (b : Bucket) (k : Key) (value : Option Bytes) : Cell :=
  (b k).change (cfg.gap k (b k).register.revision) value

/-- The bucket after a change of a key. -/
def Config.write (b : Bucket) (k : Key) (value : Option Bytes) : Bucket :=
  Function.update b k (cfg.changed b k value)

@[simp]
theorem Config.value_write (b : Bucket) (k : Key) (value : Option Bytes) :
    (cfg.write b k value k).register.value = value := by
  rw [Config.write, Function.update_self]
  rfl

theorem Config.write_of_ne {b : Bucket} {k k' : Key} (h : k' ≠ k) (value : Option Bytes) :
    cfg.write b k value k' = b k' :=
  Function.update_of_ne h _ _

/-- `KeyValue.Get`: the revision and the value; `none` is a key that is not found or
deleted. -/
def kvGet (b : Bucket) (k : Key) : Except CacheError (Option (Nat × Bytes)) :=
  cfg.request .get k ((b k).register.value.map fun value => ((b k).register.revision, value))

/-- `KeyValue.Put`. -/
def kvPut (b : Bucket) (k : Key) (value : Bytes) : Except CacheError Bucket :=
  cfg.request .put k (cfg.write b k (some value))

/-- `KeyValue.Create`; `none` is `ErrKeyExists`. -/
def kvCreate (b : Bucket) (k : Key) (value : Bytes) : Except CacheError (Option Bucket) :=
  cfg.request .create k <|
    match (b k).register.value with
    | none => some (cfg.write b k (some value))
    | some _ => none

/-- `KeyValue.Update` at a revision; `none` is `ErrKeyExists`. -/
def kvUpdate (b : Bucket) (k : Key) (value : Bytes) (last : Nat) :
    Except CacheError (Option Bucket) :=
  cfg.request .update k <|
    if (b k).register.revision = last then some (cfg.write b k (some value)) else none

/-- `KeyValue.Delete`. -/
def kvDelete (b : Bucket) (k : Key) : Except CacheError Bucket :=
  cfg.request .delete k (cfg.write b k none)

/-- `KeyValue.Delete` at a revision; `none` is `ErrKeyExists`. -/
def kvDeleteAt (b : Bucket) (k : Key) (last : Nat) : Except CacheError (Option Bucket) :=
  cfg.request .delete k <|
    if (b k).register.revision = last then some (cfg.write b k none) else none

/-- `KeyValue.Purge`. -/
def kvPurge (b : Bucket) (k : Key) : Except CacheError Bucket :=
  cfg.request .purge k (cfg.write b k none)

/-- A `Purge` whose error is dropped. -/
def tryPurge (b : Bucket) (k : Key) : Bucket :=
  match kvPurge cfg b k with
  | .error _ => b
  | .ok b' => b'

/-! ## Operations -/

/-- `store.Get`. -/
def get (now : Instant) (b : Bucket) (key : Key) : Bucket × Except CacheError (Option Bytes) :=
  match kvGet cfg b (cfg.cacheKey key) with
  | .error err => (b, .error err)
  | .ok none => (b, .ok none)
  | .ok (some (_, body)) =>
    match decodeEnvelope cfg.unmarshal body with
    | .error err => (b, .error err)
    | .ok (some env) =>
      if env.expired now then (tryPurge cfg b (cfg.cacheKey key), .ok none)
      else (b, .ok (some env.value))
    | .ok none => (b, .ok (some body))

/-- `store.Set`. -/
def set (now : Instant) (b : Bucket) (key : Key) (value : Bytes) (ttl : Duration) :
    Bucket × Option CacheError :=
  match kvPut cfg b (cfg.cacheKey key) (encodeEnvelope cfg.defaultTTL now value ttl) with
  | .error err => (b, some err)
  | .ok b' => (b', none)

/-- `createLock`, and the end of `Add`. -/
def createLock (b : Bucket) (k : Key) (body : Bytes) : Bucket × Except CacheError Bool :=
  match kvCreate cfg b k body with
  | .error err => (b, .error err)
  | .ok none => (b, .ok false)
  | .ok (some b') => (b', .ok true)

/-- `store.Add`. -/
def add (now : Instant) (b : Bucket) (key : Key) (value : Bytes) (ttl : Duration) :
    Bucket × Except CacheError Bool :=
  match get cfg now b key with
  | (b', .error err) => (b', .error err)
  | (b', .ok (some _)) => (b', .ok false)
  | (b', .ok none) =>
    createLock cfg b' (cfg.cacheKey key) (encodeEnvelope cfg.defaultTTL now value ttl)

/-- `store.LockAcquire`. -/
def lockAcquire (now : Instant) (b : Bucket) (key : Key) (owner : Bytes) (ttl : Duration) :
    Bucket × Except CacheError Bool :=
  let body := encodeEnvelope cfg.defaultTTL now owner ttl
  let k := cfg.cacheKey key
  match kvGet cfg b k with
  | .error err => (b, .error err)
  | .ok none => createLock cfg b k body
  | .ok (some (revision, value)) =>
    match decodeEnvelope cfg.unmarshal value with
    | .error err => (b, .error err)
    | .ok none => (b, .ok false)
    | .ok (some env) =>
      if env.expiresAt ≤ 0 ∨ unixMilli now ≤ env.expiresAt then (b, .ok false)
      else
        match kvUpdate cfg b k body revision with
        | .error err => (b, .error err)
        | .ok none => (b, .ok false)
        | .ok (some b') => (b', .ok true)

/-- The end of `LockRelease`, for the value that was read. -/
def releaseAt (b : Bucket) (k : Key) (revision : Nat) (body owner : Bytes) :
    Bucket × Except CacheError Bool :=
  if body ≠ owner then (b, .ok false)
  else
    match kvDeleteAt cfg b k revision with
    | .error err => (b, .error err)
    | .ok none => (b, .ok false)
    | .ok (some b') => (b', .ok true)

/-- `store.LockRelease`. -/
def lockRelease (now : Instant) (b : Bucket) (key : Key) (owner : Bytes) :
    Bucket × Except CacheError Bool :=
  let k := cfg.cacheKey key
  match kvGet cfg b k with
  | .error err => (b, .error err)
  | .ok none => (b, .ok false)
  | .ok (some (revision, body)) =>
    match decodeEnvelope cfg.unmarshal body with
    | .error err => (b, .error err)
    | .ok (some env) =>
      if env.expired now then (b, .ok false)
      else releaseAt cfg b k revision env.value owner
    | .ok none => releaseAt cfg b k revision body owner

/-- The look of `Increment` at an entry. -/
def lookNumber (now : Instant) (key : Key) (body : Bytes) : Counters.Look :=
  Counters.look ⟨cfg.unmarshal, cfg.defaultTTL, key⟩ now body

/-- The end of an attempt of `Increment`: a `Create` without a record, an `Update`
at the revision that was read otherwise.  The result `none` is a conflict. -/
def writeNumber (now : Instant) (b : Bucket) (key : Key) (revision : Nat) (next : Int64)
    (ttl : Duration) : Bucket × Option (Except CacheError Int64) :=
  let k := cfg.cacheKey key
  let body := encodeEnvelope cfg.defaultTTL now (formatInt next) ttl
  let written := if revision = 0 then kvCreate cfg b k body else kvUpdate cfg b k body revision
  match written with
  | .error err => (b, some (.error err))
  | .ok none => (b, none)
  | .ok (some b') => (b', some (.ok next))

/-- One attempt of `Increment`. -/
def attempt (now : Instant) (b : Bucket) (key : Key) (delta : Int64) (ttl : Duration) :
    Bucket × Option (Except CacheError Int64) :=
  let k := cfg.cacheKey key
  match kvGet cfg b k with
  | .error err => (b, some (.error err))
  | .ok none => writeNumber cfg now b key 0 (0 + delta) ttl
  | .ok (some (revision, body)) =>
    match lookNumber cfg now key body with
    | .failed err => (b, some (.error err))
    | .expired => writeNumber cfg now (tryPurge cfg b k) key 0 (0 + delta) ttl
    | .number current => writeNumber cfg now b key revision (current + delta) ttl

/-- The attempts of `Increment` that are left. -/
def attempts (now : Instant) (key : Key) (delta : Int64) (ttl : Duration) :
    Nat → Bucket → Bucket × Except CacheError Int64
  | 0, b => (b, .error .natsRetryLimit)
  | left + 1, b =>
    match attempt cfg now b key delta ttl with
    | (b', some result) => (b', result)
    | (b', none) => attempts now key delta ttl left b'

/-- `store.Increment`. -/
def increment (now : Instant) (b : Bucket) (key : Key) (delta : Int64) (ttl : Duration) :
    Bucket × Except CacheError Int64 :=
  attempts cfg now key delta ttl 16 b

/-- `store.Decrement`. -/
def decrement (now : Instant) (b : Bucket) (key : Key) (delta : Int64) (ttl : Duration) :
    Bucket × Except CacheError Int64 :=
  increment cfg now b key (-delta) ttl

/-- `store.Delete`. -/
def delete (b : Bucket) (key : Key) : Bucket × Option CacheError :=
  match kvDelete cfg b (cfg.cacheKey key) with
  | .error err => (b, some err)
  | .ok b' => (b', none)

/-- `store.DeleteMany`. -/
def deleteMany : Bucket → List Key → Bucket × Option CacheError
  | b, [] => (b, none)
  | b, key :: keys =>
    match delete cfg b key with
    | (b', some err) => (b', some err)
    | (b', none) => deleteMany b' keys

/-- What `ListKeys` gives: no keys, an error, or keys and then errors. -/
inductive Listing where
  | noKeys
  | failed (err : CacheError)
  | keys (ks : List Key) (errs : List CacheError)

/-- The loop of `Flush`. -/
def purgeListed : List Key → Bucket → Bucket × Option CacheError
  | [], b => (b, none)
  | k :: ks, b =>
    if cfg.scope.isPrefixOf k then
      match kvPurge cfg b k with
      | .error err => (b, some err)
      | .ok b' => purgeListed ks b'
    else purgeListed ks b

/-- `store.Flush`. -/
def flush (b : Bucket) : Listing → Bucket × Option CacheError
  | .noKeys => (b, none)
  | .failed err => (b, some err)
  | .keys ks errs =>
    match purgeListed cfg ks b with
    | (b', some err) => (b', some err)
    | (b', none) => (b', errs.head?)

/-- Any operation of the contract, at one instant; `Flush` is given the listing that it
reads. -/
def exec (listing : Listing) (now : Instant) (b : Bucket) : Op → Bucket × Res
  | .get key => let r := get cfg now b key; (r.1, Res.ofExcept .value r.2)
  | .set key value ttl => let r := set cfg now b key value ttl; (r.1, Res.ofError r.2)
  | .add key value ttl => let r := add cfg now b key value ttl; (r.1, Res.ofExcept .flag r.2)
  | .increment key delta ttl =>
    let r := increment cfg now b key delta ttl; (r.1, Res.ofExcept .number r.2)
  | .decrement key delta ttl =>
    let r := decrement cfg now b key delta ttl; (r.1, Res.ofExcept .number r.2)
  | .delete key => let r := delete cfg b key; (r.1, Res.ofError r.2)
  | .deleteMany keys => let r := deleteMany cfg b keys; (r.1, Res.ofError r.2)
  | .flush => let r := flush cfg b listing; (r.1, Res.ofError r.2)
  | .lockAcquire key owner ttl =>
    let r := lockAcquire cfg now b key owner ttl; (r.1, Res.ofExcept .flag r.2)
  | .lockRelease key owner =>
    let r := lockRelease cfg now b key owner; (r.1, Res.ofExcept .flag r.2)

/-- `Increment` ends with the first attempt that meets no conflict. -/
theorem attempts_of_some {now : Instant} {key : Key} {delta : Int64} {ttl : Duration}
    {b b' : Bucket} {result : Except CacheError Int64}
    (h : attempt cfg now b key delta ttl = (b', some result)) (left : Nat) :
    attempts cfg now key delta ttl (left + 1) b = (b', result) := by
  rw [attempts, h]

/-! ## A bucket that refuses nothing -/

/-- A bucket that refuses nothing. -/
def Config.Willing : Prop := ∀ r k, cfg.refuses r k = none

section Willing

variable {cfg} {b : Bucket} {k : Key}

theorem Config.Willing.request (h : cfg.Willing) {α : Type} (r : Request) (k : Key) (effect : α) :
    cfg.request r k effect = .ok effect := by
  rw [Config.request, h]

theorem kvGet_of_none (h : cfg.Willing) (hvalue : (b k).register.value = none) :
    kvGet cfg b k = .ok none := by
  rw [kvGet, h.request, hvalue]
  rfl

theorem kvGet_of_some (h : cfg.Willing) {body : Bytes} (hvalue : (b k).register.value = some body) :
    kvGet cfg b k = .ok (some ((b k).register.revision, body)) := by
  rw [kvGet, h.request, hvalue]
  rfl

theorem kvCreate_of_none (h : cfg.Willing) (hvalue : (b k).register.value = none) (value : Bytes) :
    kvCreate cfg b k value = .ok (some (cfg.write b k (some value))) := by
  rw [kvCreate, h.request, hvalue]

theorem kvUpdate_current (h : cfg.Willing) (value : Bytes) :
    kvUpdate cfg b k value (b k).register.revision = .ok (some (cfg.write b k (some value))) := by
  rw [kvUpdate, h.request, if_pos rfl]

theorem kvDeleteAt_current (h : cfg.Willing) :
    kvDeleteAt cfg b k (b k).register.revision = .ok (some (cfg.write b k none)) := by
  rw [kvDeleteAt, h.request, if_pos rfl]

theorem tryPurge_eq (h : cfg.Willing) : tryPurge cfg b k = cfg.write b k none := by
  rw [tryPurge, kvPurge, h.request]

theorem delete_eq (h : cfg.Willing) (key : Key) :
    delete cfg b key = (cfg.write b (cfg.cacheKey key) none, none) := by
  rw [delete, kvDelete, h.request]

variable {now : Instant} {key : Key}

/-- A record that was read has a revision above zero, so it is updated; without a record it is
created. -/
theorem writeNumber_of_some (h : cfg.Willing) {next : Int64} {ttl : Duration} {body : Bytes}
    (hvalue : (b (cfg.cacheKey key)).register.value = some body) :
    writeNumber cfg now b key (b (cfg.cacheKey key)).register.revision next ttl =
      (cfg.write b (cfg.cacheKey key)
        (some (encodeEnvelope cfg.defaultTTL now (formatInt next) ttl)),
        some (.ok next)) := by
  have hpos : (b (cfg.cacheKey key)).register.revision ≠ 0 := by
    have hrevision := (b (cfg.cacheKey key)).positive (by rw [hvalue]; exact Option.some_ne_none _)
    omega
  simp only [writeNumber, if_neg hpos, kvUpdate_current h]

theorem writeNumber_of_none (h : cfg.Willing) {next : Int64} {ttl : Duration}
    (hvalue : (b (cfg.cacheKey key)).register.value = none) :
    writeNumber cfg now b key 0 next ttl =
      (cfg.write b (cfg.cacheKey key)
        (some (encodeEnvelope cfg.defaultTTL now (formatInt next) ttl)),
        some (.ok next)) := by
  simp only [writeNumber, if_pos, kvCreate_of_none h hvalue]

/-- `Increment` without a record. -/
theorem increment_of_absent (h : cfg.Willing)
    (hvalue : (b (cfg.cacheKey key)).register.value = none) (delta : Int64) (ttl : Duration) :
    increment cfg now b key delta ttl =
      (cfg.write b (cfg.cacheKey key)
        (some (encodeEnvelope cfg.defaultTTL now (formatInt (0 + delta)) ttl)),
        .ok (0 + delta)) := by
  apply attempts_of_some cfg _ 15
  simp only [attempt, kvGet_of_none h hvalue, writeNumber_of_none h hvalue]

section Looked

variable {now : Instant} {key : Key} {body : Bytes}
  (hvalue : (b (cfg.cacheKey key)).register.value = some body)

include hvalue

/-- `Increment` of a record that it refuses. -/
theorem increment_of_failed (h : cfg.Willing) {err : CacheError}
    (hlook : lookNumber cfg now key body = .failed err) (delta : Int64) (ttl : Duration) :
    increment cfg now b key delta ttl = (b, .error err) := by
  apply attempts_of_some cfg _ 15
  simp only [attempt, kvGet_of_some h hvalue, hlook]

theorem increment_of_expired (h : cfg.Willing) (hlook : lookNumber cfg now key body = .expired)
    (delta : Int64) (ttl : Duration) :
    increment cfg now b key delta ttl =
      (cfg.write (cfg.write b (cfg.cacheKey key) none) (cfg.cacheKey key)
        (some (encodeEnvelope cfg.defaultTTL now (formatInt (0 + delta)) ttl)),
        .ok (0 + delta)) := by
  apply attempts_of_some cfg _ 15
  have hgone := cfg.value_write b (cfg.cacheKey key) none
  simp only [attempt, kvGet_of_some h hvalue, hlook, tryPurge_eq h, writeNumber_of_none h hgone]

theorem increment_of_number (h : cfg.Willing) {n : Int64}
    (hlook : lookNumber cfg now key body = .number n) (delta : Int64) (ttl : Duration) :
    increment cfg now b key delta ttl =
      (cfg.write b (cfg.cacheKey key)
        (some (encodeEnvelope cfg.defaultTTL now (formatInt (n + delta)) ttl)),
        .ok (n + delta)) := by
  apply attempts_of_some cfg _ 15
  simp only [attempt, kvGet_of_some h hvalue, hlook, writeNumber_of_some h hvalue]

end Looked

end Willing

/-! ## Inspection -/

/-- The expiration that `ListPage` reports for a bucket key. -/
def entryExpiry (b : Bucket) (k : Key) : Option Int64 :=
  match kvGet cfg b k with
  | .ok (some (_, body)) =>
    match decodeEnvelope cfg.unmarshal body with
    | .ok (some env) => if 0 < env.expiresAt then some env.expiresAt else none
    | _ => none
  | _ => none

/-- The loop of `ListPage` over the listed keys. -/
def collect (now : Instant) : List Key → Bucket → Bucket × List CacheEntry
  | [], b => (b, [])
  | k :: ks, b =>
    if cfg.scope.isPrefixOf k then
      match decodeCacheKey (k.drop cfg.scope.length) with
      | none => collect now ks b
      | some rawKey =>
        match get cfg now b rawKey with
        | (b', .ok (some body)) =>
          let rest := collect now ks b'
          (rest.1, ⟨rawKey, body.length, entryExpiry cfg b' k⟩ :: rest.2)
        | (b', _) => collect now ks b'
    else collect now ks b

/-- The entries of `store.ListPage`, before it filters, sorts and cuts them into pages. -/
def listEntries (now : Instant) (b : Bucket) :
    Listing → Bucket × Except CacheError (List CacheEntry)
  | .noKeys => (b, .ok [])
  | .failed err => (b, .error err)
  | .keys ks errs =>
    let r := collect cfg now ks b
    match errs with
    | [] => (r.1, .ok r.2)
    | err :: _ => (r.1, .error err)

end Nats
end GoforjCache
