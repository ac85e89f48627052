import Mathlib.Data.List.Basic
import Mathlib.Tactic

/-!
# Core - Keys, values and errors

The types every module of the cache shares.  A Go `string` is a byte
sequence, so keys and values are both lists of bytes.  A duration is the 64-bit
integer of the source; an instant is an unbounded integer, because
`time.Time` does not wrap, only its `UnixNano` view does.
-/

namespace GoforjCache

/-- A Go byte slice. -/
abbrev Bytes := List UInt8

/-- A cache key: a Go string is an arbitrary byte sequence. -/
abbrev Key := Bytes

/-- Keys are compared byte by byte. -/
instance : LawfulBEq Key := inferInstance

/-- A `time.Duration` in nanoseconds. -/
abbrev Duration := Int64

/-- An instant in nanoseconds since the Unix epoch. -/
abbrev Instant := Int

/-- The bytes of an ASCII literal of the source. -/
def ascii (s : String) : Bytes := s.toList.map fun c => c.toNat.toUInt8

/-- The errors the modelled functions return.  Each constructor stands for one
error value or error text of the source. -/
inductive CacheError where
  /-- `create cache lock owner: ...`: no entropy for an owner token. -/
  | lockOwner
  /-- `cache try lock requires ttl > 0`. -/
  | tryLockTTL
  /-- `cache lock handle requires a callback`. -/
  | lockCallback
  /-- `ctx.Err()` of a cancelled or expired context. -/
  | contextDone
  /-- `cache key %q does not contain a numeric value`. -/
  | notNumeric (key : Key)
  /-- `ErrValueTooLarge`. -/
  | valueTooLarge
  /-- `ErrInvalidMaxValueBytes`. -/
  | invalidMaxValueBytes
  /-- `ErrUnsupportedCodec`. -/
  | unsupportedCodec
  /-- `ErrCorruptCompression`. -/
  | corruptCompression
  /-- `ErrEncryptionKey`. -/
  | encryptionKey
  /-- `ErrDecryptFailed`. -/
  | decryptFailed
  /-- The error of `rand.Reader` when no nonce can be drawn. -/
  | entropy
  /-- `invalid cache file record`. -/
  | invalidFileRecord
  /-- The error of `json.Unmarshal` on a record of the oldest format. -/
  | fileRecordJSON
  /-- The error of `os.ReadFile` on a directory. -/
  | isDirectory
  /-- `decode nats cache envelope: ...`. -/
  | natsEnvelope
  /-- `nats increment exceeded retry limit`. -/
  | natsRetryLimit
  /-- An error of a backend or of a user callback, which the code only passes on. -/
  | external (code : Nat)
deriving DecidableEq, Repr

/-- `defaultCacheTTL`: five minutes. -/
def defaultCacheTTL : Duration := 300000000000

/-- The default lifetime of a store.  The constructors replace a nonpositive
default, so a store never holds one. -/
structure DefaultTTL where
  ttl : Duration
  pos : 0 < ttl

/-- The normalization shared by `newMemoryStore` and `newFileStore`. -/
def DefaultTTL.normalize (ttl : Duration) : DefaultTTL :=
  if h : 0 < ttl then ⟨ttl, h⟩ else ⟨defaultCacheTTL, by decide⟩

/-- The lifetime an operation writes: its own when positive, else the default. -/
def DefaultTTL.resolve (d : DefaultTTL) (ttl : Duration) : Duration :=
  if ttl ≤ 0 then d.ttl else ttl

/-- A resolved lifetime is positive. -/
theorem DefaultTTL.resolve_pos (d : DefaultTTL) (ttl : Duration) : 0 < d.resolve ttl := by
  unfold DefaultTTL.resolve
  split <;> rename_i h
  · exact d.pos
  · exact Int64.not_le.mp h

/-- A positive lifetime resolves to itself. -/
theorem DefaultTTL.resolve_of_pos (d : DefaultTTL) {ttl : Duration} (h : 0 < ttl) :
    d.resolve ttl = ttl :=
  if_neg (Int64.not_le.mpr h)

/-! ## The store contract -/

/-- One call of the `cachecore.Store` contract or of the lock capability. -/
inductive Op where
  | get (key : Key)
  | set (key : Key) (value : Bytes) (ttl : Duration)
  | add (key : Key) (value : Bytes) (ttl : Duration)
  | increment (key : Key) (delta : Int64) (ttl : Duration)
  | decrement (key : Key) (delta : Int64) (ttl : Duration)
  | delete (key : Key)
  | deleteMany (keys : List Key)
  | flush
  | lockAcquire (key : Key) (owner : Bytes) (ttl : Duration)
  | lockRelease (key : Key) (owner : Bytes)
deriving DecidableEq, Repr

/-- The keys a call names; `Flush` has no such list. -/
def Op.keys : Op → Option (List Key)
  | get key => some [key]
  | set key _ _ => some [key]
  | add key _ _ => some [key]
  | increment key _ _ => some [key]
  | decrement key _ _ => some [key]
  | delete key => some [key]
  | deleteMany keys => some keys
  | flush => none
  | lockAcquire key _ _ => some [key]
  | lockRelease key _ => some [key]

/-- A call may touch the keys it names, and `Flush` every key. -/
def Op.touches (op : Op) (key : Key) : Bool :=
  match op.keys with
  | some keys => keys.contains key
  | none => true

/-- What a call returns.  `value none` is a miss. -/
inductive Res where
  | value (body : Option Bytes)
  | done
  | flag (ok : Bool)
  | number (n : Int64)
  | error (err : CacheError)
deriving DecidableEq, Repr

/-- The result of a write that returns only an error. -/
def Res.ofError : Option CacheError → Res
  | none => .done
  | some err => .error err

/-- The result of a call that returns a value or an error. -/
def Res.ofExcept {α : Type} (f : α → Res) : Except CacheError α → Res
  | .ok a => f a
  | .error err => .error err

/-- The call changed the store, as far as its result tells. -/
def Res.applied : Res → Bool
  | value _ => false
  | done => true
  | flag ok => ok
  | number _ => true
  | error _ => false

/-- `CacheEntry`: what the inspection of a store reports of a key. -/
structure CacheEntry where
  key : Key
  sizeBytes : Nat
  expiresAt : Option Int64
deriving DecidableEq, Repr

/-- `lockPrefix` of `cache.go`. -/
def lockPrefix : Bytes := ascii "__lock:"

/-- The backend key of a lock: `lockPrefix + key`. -/
def lockKey (key : Key) : Key := lockPrefix ++ key

/-- The call stays away from the names of locks. -/
def Op.avoidsLocks (op : Op) : Bool :=
  match op.keys with
  | some keys => keys.all fun key => !lockPrefix.isPrefixOf key
  | none => false

/-- A call that stays away from the names of locks touches no lock. -/
theorem Op.touches_lockKey {op : Op} (h : op.avoidsLocks = true) (key : Key) :
    op.touches (lockKey key) = false := by
  unfold Op.avoidsLocks at h
  unfold Op.touches
  cases hkeys : op.keys with
  | none => simp [hkeys] at h
  | some keys =>
    simp only [hkeys, List.all_eq_true, Bool.not_eq_true'] at h
    simp only [List.contains_eq_mem, decide_eq_false_iff_not]
    intro hmem
    have hprefix : lockPrefix.isPrefixOf (lockKey key) = true :=
      List.isPrefixOf_iff_prefix.mpr (List.prefix_append _ _)
    rw [h _ hmem] at hprefix
    contradiction

/-- Distinct lock names have distinct backend keys. -/
theorem lockKey_injective : Function.Injective lockKey := by
  intro a b h
  exact List.append_cancel_left h

end GoforjCache
