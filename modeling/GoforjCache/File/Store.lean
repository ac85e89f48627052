import GoforjCache.Core.Types
import GoforjCache.Foundation.ByteCodec
import GoforjCache.Foundation.Decimal
import GoforjCache.Foundation.ExpiringMap
import Mathlib.Data.List.AList

/-!
# Files - The filesystem store

The operations of `fileStore`: one file per key, named by the SHA-256 of the key, with a
binary record that is decoded on every read.  A write goes to a temporary file that is then
renamed.  Every operation runs under the mutation lock of the directory, so an operation is
one step at one instant; filesystem calls succeed.

Main results:

- Theorem `decodeFileRecord_encode`: what a record decodes to, for a key of any length.
- Theorem `set_lookup`: a write replaces the file of its key and nothing else.
- Theorems `flush_lookup_of_own` and `flush_lookup_of_foreign`: `Flush` removes
  the store's own files and nothing else.
-/

namespace GoforjCache
namespace File

open Foundation

/-! ## Directories -/

/-- A file name within the directory of the store. -/
abbrev Name := Bytes

/-- What a directory holds under a name. -/
inductive Node where
  | file (data : Bytes)
  | directory
deriving DecidableEq

/-- The directory of the store. -/
abbrev Dir := AList fun _ : Name => Node

/-- `os.ReadFile`: a missing file is `os.ErrNotExist`, here `none`. -/
def readFile (dir : Dir) (name : Name) : Except CacheError (Option Bytes) :=
  match dir.lookup name with
  | none => .ok none
  | some (.file data) => .ok (some data)
  | some .directory => .error .isDirectory

/-- `os.Remove`; a missing file is no error to the callers. -/
def remove (dir : Dir) (name : Name) : Dir := dir.erase name

/-- `createTempFile` with the random part of the name it settles on. -/
def createTemp (dir : Dir) (name : Name) : Dir := dir.insert name (.file [])

/-- `Write` appends to an open file. -/
def write (dir : Dir) (name : Name) (data : Bytes) : Dir :=
  match dir.lookup name with
  | some (.file old) => dir.insert name (.file (old ++ data))
  | _ => dir

/-- `os.Rename` replaces the target. -/
def rename (dir : Dir) (source target : Name) : Dir :=
  match dir.lookup source with
  | some node => (dir.erase source).insert target node
  | none => dir

/-! ## Records -/

/-- `fileRecordMagic`. -/
def fileRecordMagic : Bytes := ascii "CFR1"

/-- `fileRecordMagicV2`. -/
def fileRecordMagicV2 : Bytes := ascii "CFR2"

/-- `fileRecord`. -/
structure FileRecord where
  key : Key
  expiresAt : Int64
  value : Bytes
deriving DecidableEq

/-- SHA-256, of which only the length of a sum is used here. -/
structure Sha256 where
  sum256 : Bytes → Bytes
  length : ∀ b, (sum256 b).length = 32

/-- What a store is configured with: the hash, `json.Unmarshal` into a
`fileRecord`, and the default lifetime. -/
structure Config where
  sha256 : Sha256
  unmarshal : Bytes → Option FileRecord
  defaultTTL : DefaultTTL

/-- `path`, relative to the directory. -/
def path (cfg : Config) (key : Key) : Name := Hex.encode (cfg.sha256.sum256 key) ++ ascii ".cache"

/-- The name of a temporary file. -/
def tempName (random : Bytes) : Name := ascii ".cache-tmp-" ++ random

/-- `isFileStoreEntry`. -/
def isFileStoreEntry (name : Name) : Bool :=
  if (ascii ".cache-tmp-").isPrefixOf name then true
  else if name.length ≠ 32 * 2 + (ascii ".cache").length ∨ !(ascii ".cache").isSuffixOf name then
    false
  else (Hex.decode (name.take (name.length - (ascii ".cache").length))).isSome

/-- The header `set` writes before the value.  The length of the key is converted to 32
bits. -/
def recordHeader (key : Key) (expiresAt : Int64) : Bytes :=
  fileRecordMagicV2 ++ BigEndian.putUint64 expiresAt.toUInt64 ++
    BigEndian.putUint32 (UInt32.ofNat key.length) ++ key

/-- `decodeFileRecord`. -/
def decodeFileRecord (unmarshal : Bytes → Option FileRecord) (data : Bytes) :
    Except CacheError FileRecord :=
  if 16 ≤ data.length ∧ data.take 4 = fileRecordMagicV2 then
    let expiresAt := (BigEndian.uint64 ((data.drop 4).take 8)).toInt64
    let keyLen := (BigEndian.uint32 ((data.drop 12).take 4)).toNat
    let offset := 16
    if keyLen > data.length - offset then .error .invalidFileRecord
    else .ok ⟨(data.drop offset).take keyLen, expiresAt, data.drop (offset + keyLen)⟩
  else if 12 ≤ data.length ∧ data.take 4 = fileRecordMagic then
    .ok ⟨[], (BigEndian.uint64 ((data.drop 4).take 8)).toInt64, data.drop 12⟩
  else
    match unmarshal data with
    | some record => .ok record
    | none => .error .fileRecordJSON

/-! ## Operations -/

/-- `get`: an undecodable or expired file is removed. -/
def get (cfg : Config) (now : Instant) (dir : Dir) (key : Key) :
    Dir × Except CacheError (Option Bytes) :=
  match readFile dir (path cfg key) with
  | .error err => (dir, .error err)
  | .ok none => (dir, .ok none)
  | .ok (some data) =>
    match decodeFileRecord cfg.unmarshal data with
    | .error err => (remove dir (path cfg key), .error err)
    | .ok record =>
      if 0 < record.expiresAt ∧ record.expiresAt < unixNano now then
        (remove dir (path cfg key), .ok none)
      else (dir, .ok (some record.value))

/-- `set`, through a temporary file with the given random part. -/
def set (cfg : Config) (now : Instant) (random : Bytes) (dir : Dir) (key : Key) (value : Bytes)
    (ttl : Duration) : Dir :=
  let expiresAt := unixNano (now + (cfg.defaultTTL.resolve ttl).toInt)
  let tmp := tempName random
  let created := createTemp dir tmp
  let withHeader := write created tmp (recordHeader key expiresAt)
  let withValue := write withHeader tmp value
  rename withValue tmp (path cfg key)

/-- `Add`. -/
def add (cfg : Config) (now : Instant) (random : Bytes) (dir : Dir) (key : Key) (value : Bytes)
    (ttl : Duration) : Dir × Except CacheError Bool :=
  match get cfg now dir key with
  | (dir, .error err) => (dir, .error err)
  | (dir, .ok (some _)) => (dir, .ok false)
  | (dir, .ok none) => (set cfg now random dir key value ttl, .ok true)

/-- `delete`. -/
def delete (cfg : Config) (dir : Dir) (key : Key) : Dir := remove dir (path cfg key)

/-- `LockAcquire`. -/
def lockAcquire (cfg : Config) (now : Instant) (random : Bytes) (dir : Dir) (key : Key)
    (owner : Bytes) (ttl : Duration) : Dir × Except CacheError Bool :=
  add cfg now random dir key owner ttl

/-- `LockRelease`. -/
def lockRelease (cfg : Config) (now : Instant) (dir : Dir) (key : Key) (owner : Bytes) :
    Dir × Except CacheError Bool :=
  match get cfg now dir key with
  | (dir, .error err) => (dir, .error err)
  | (dir, .ok none) => (dir, .ok false)
  | (dir, .ok (some body)) =>
    if body = owner then (delete cfg dir key, .ok true) else (dir, .ok false)

/-- `Increment`. -/
def increment (cfg : Config) (now : Instant) (random : Bytes) (dir : Dir) (key : Key)
    (delta : Int64) (ttl : Duration) : Dir × Except CacheError Int64 :=
  let store (dir : Dir) (current : Int64) : Dir × Except CacheError Int64 :=
    let next := current + delta
    (set cfg now random dir key (Decimal.formatInt next) ttl, .ok next)
  match get cfg now dir key with
  | (dir, .error err) => (dir, .error err)
  | (dir, .ok none) => store dir 0
  | (dir, .ok (some body)) =>
    match Decimal.parseInt body with
    | some n => store dir n
    | none => (dir, .error (.notNumeric key))

/-- `Decrement`. -/
def decrement (cfg : Config) (now : Instant) (random : Bytes) (dir : Dir) (key : Key)
    (delta : Int64) (ttl : Duration) : Dir × Except CacheError Int64 :=
  increment cfg now random dir key (-delta) ttl

/-- `DeleteMany`. -/
def deleteMany (cfg : Config) (dir : Dir) (keys : List Key) : Dir := keys.foldl (delete cfg) dir

/-- One turn of the loop in `Flush`. -/
def flushEntry (dir : Dir) (entry : (_ : Name) × Node) : Dir :=
  if entry.2 = .directory ∨ !isFileStoreEntry entry.1 then dir else remove dir entry.1

/-- `Flush` goes over the entries that `os.ReadDir` returned. -/
def flush (dir : Dir) : Dir := dir.entries.foldl flushEntry dir

/-- The result of a call that answers with a value, a flag or a number, or fails. -/
def result {α : Type} (f : α → Res) : Except CacheError α → Res
  | .ok a => f a
  | .error err => .error err

/-- Any operation of the contract, at one instant, with the random part of the temporary file
it may create. -/
def exec (cfg : Config) (now : Instant) (random : Bytes) (dir : Dir) : Op → Dir × Res
  | .get key => let r := get cfg now dir key; (r.1, result .value r.2)
  | .set key value ttl => (set cfg now random dir key value ttl, .done)
  | .add key value ttl => let r := add cfg now random dir key value ttl; (r.1, result .flag r.2)
  | .increment key delta ttl =>
    let r := increment cfg now random dir key delta ttl; (r.1, result .number r.2)
  | .decrement key delta ttl =>
    let r := decrement cfg now random dir key delta ttl; (r.1, result .number r.2)
  | .delete key => (delete cfg dir key, .done)
  | .deleteMany keys => (deleteMany cfg dir keys, .done)
  | .flush => (flush dir, .done)
  | .lockAcquire key owner ttl =>
    let r := lockAcquire cfg now random dir key owner ttl; (r.1, result .flag r.2)
  | .lockRelease key owner =>
    let r := lockRelease cfg now dir key owner; (r.1, result .flag r.2)

/-! ## Records round trip -/

/-- A record decodes to as much of its key as 32 bits can count; the rest of the key is taken
for the beginning of the value. -/
theorem decodeFileRecord_encode (unmarshal : Bytes → Option FileRecord) (key : Key)
    (expiresAt : Int64) (value : Bytes) :
    decodeFileRecord unmarshal (recordHeader key expiresAt ++ value) =
      .ok ⟨key.take (key.length % 2 ^ 32), expiresAt, key.drop (key.length % 2 ^ 32) ++ value⟩ := by
  have hkeyLen : (UInt32.ofNat key.length).toNat = key.length % 2 ^ 32 := UInt32.toNat_ofNat'
  have hle : key.length % 2 ^ 32 ≤ key.length := Nat.mod_le _ _
  have hmagic : fileRecordMagicV2.length = 4 := rfl
  have hdata : recordHeader key expiresAt ++ value =
      fileRecordMagicV2 ++ (BigEndian.putUint64 expiresAt.toUInt64 ++
        (BigEndian.putUint32 (UInt32.ofNat key.length) ++ (key ++ value))) := by
    simp [recordHeader]
  have hlength : (recordHeader key expiresAt ++ value).length =
      16 + (key.length + value.length) := by
    rw [hdata]
    simp [hmagic]
    omega
  have htake : (recordHeader key expiresAt ++ value).take 4 = fileRecordMagicV2 := by
    rw [hdata, List.take_left' hmagic]
  have hdrop4 : (recordHeader key expiresAt ++ value).drop 4 =
      BigEndian.putUint64 expiresAt.toUInt64 ++
        (BigEndian.putUint32 (UInt32.ofNat key.length) ++ (key ++ value)) := by
    rw [hdata, List.drop_left' hmagic]
  have hdrop12 : (recordHeader key expiresAt ++ value).drop 12 =
      BigEndian.putUint32 (UInt32.ofNat key.length) ++ (key ++ value) := by
    have hsplit : 12 = 4 + 8 := rfl
    rw [hsplit, ← List.drop_drop, hdrop4, List.drop_left' (BigEndian.length_putUint64 _)]
  have hdrop16 : (recordHeader key expiresAt ++ value).drop 16 = key ++ value := by
    have hsplit : 16 = 12 + 4 := rfl
    rw [hsplit, ← List.drop_drop, hdrop12, List.drop_left' (BigEndian.length_putUint32 _)]
  have hfits : ¬key.length % 2 ^ 32 > (recordHeader key expiresAt ++ value).length - 16 := by
    omega
  rw [decodeFileRecord, if_pos ⟨by omega, htake⟩]
  simp only [hdrop4, hdrop12, List.take_left' (BigEndian.length_putUint64 _),
    List.take_left' (BigEndian.length_putUint32 _), BigEndian.uint64_putUint64,
    BigEndian.uint32_putUint32, hkeyLen, if_neg hfits, ← List.drop_drop, hdrop16,
    List.take_append_of_le_length hle, List.drop_append_of_le_length hle]
  rfl

/-- A record with a key that 32 bits can count decodes to what was written. -/
theorem decodeFileRecord_encode_of_lt (unmarshal : Bytes → Option FileRecord) {key : Key}
    (hkey : key.length < 2 ^ 32) (expiresAt : Int64) (value : Bytes) :
    decodeFileRecord unmarshal (recordHeader key expiresAt ++ value) =
      .ok ⟨key, expiresAt, value⟩ := by
  rw [decodeFileRecord_encode, Nat.mod_eq_of_lt hkey, List.take_length, List.drop_length,
    List.nil_append]

/-! ## Names -/

/-- Keys with different sums have different files. -/
theorem sum256_eq_of_path_eq {cfg : Config} {a b : Key} (h : path cfg a = path cfg b) :
    cfg.sha256.sum256 a = cfg.sha256.sum256 b :=
  Hex.encode_injective (List.append_cancel_right h)

/-- The file of a key has a name of the store's own form. -/
theorem isFileStoreEntry_path (cfg : Config) (key : Key) :
    isFileStoreEntry (path cfg key) = true := by
  have hlength : (Hex.encode (cfg.sha256.sum256 key)).length = 64 := by
    rw [Hex.length_encode, cfg.sha256.length]
  have hsuffix : (ascii ".cache").isSuffixOf (path cfg key) = true :=
    List.isSuffixOf_iff_suffix.mpr (List.suffix_append _ _)
  have hname : (path cfg key).length = 32 * 2 + (ascii ".cache").length := by
    rw [path, List.length_append, hlength]
  have htake : (path cfg key).take ((path cfg key).length - (ascii ".cache").length) =
      Hex.encode (cfg.sha256.sum256 key) := by
    rw [hname, Nat.add_sub_cancel, path, List.take_left' hlength]
  unfold isFileStoreEntry
  split
  · rfl
  · rw [if_neg (by simp [hname, hsuffix]), htake, Hex.decode_encode]
    rfl

/-- No key has the name of a temporary file: hexadecimal text has no dot. -/
theorem path_ne_tempName (cfg : Config) (key : Key) (random : Bytes) :
    path cfg key ≠ tempName random := by
  intro h
  have hlength := cfg.sha256.length key
  cases hsum : cfg.sha256.sum256 key with
  | nil =>
    rw [hsum] at hlength
    cases hlength
  | cons b bs =>
    have hhead := congrArg List.head? h
    rw [path, hsum, Hex.encode_cons] at hhead
    have hdot : Hex.digit (b.toNat / 16) = 46 := Option.some.inj hhead
    have hlt : b.toNat < 256 := b.toNat_lt
    have hdigit := Hex.value_digit (n := b.toNat / 16) (by omega)
    rw [hdot] at hdigit
    cases hdigit

/-! ## What the operations change -/

/-- A write puts the record of its key in place and leaves every other name alone. -/
theorem set_lookup (cfg : Config) (now : Instant) {random : Bytes} {dir : Dir} (key : Key)
    (value : Bytes) (ttl : Duration) (hfresh : dir.lookup (tempName random) = none) (name : Name) :
    (set cfg now random dir key value ttl).lookup name =
      if name = path cfg key then
        some (.file (recordHeader key (unixNano (now + (cfg.defaultTTL.resolve ttl).toInt)) ++
          value))
      else dir.lookup name := by
  have hne := path_ne_tempName cfg key random
  simp only [set, createTemp, write, rename, AList.lookup_insert, List.nil_append]
  by_cases hname : name = path cfg key
  · rw [if_pos hname, hname, AList.lookup_insert]
  · rw [if_neg hname, AList.lookup_insert_ne hname]
    by_cases htmp : name = tempName random
    · rw [htmp, AList.lookup_erase, hfresh]
    · rw [AList.lookup_erase_ne htmp, AList.lookup_insert_ne htmp, AList.lookup_insert_ne htmp,
        AList.lookup_insert_ne htmp]

/-- A loop whose every turn removes some names removes the names of all its turns. -/
theorem foldl_lookup {α : Type} {turn : Dir → α → Dir} {removes : α → Name → Prop}
    [∀ a name, Decidable (removes a name)] (hturn : ∀ dir a name,
      (turn dir a).lookup name = if removes a name then none else dir.lookup name) (as : List α)
    (dir : Dir) (name : Name) :
    (as.foldl turn dir).lookup name =
      if ∃ a ∈ as, removes a name then none else dir.lookup name := by
  induction as generalizing dir with
  | nil => simp
  | cons a as ih =>
    rw [List.foldl_cons, ih, hturn]
    by_cases hrest : ∃ a ∈ as, removes a name
    · obtain ⟨b, hb, hremoved⟩ := hrest
      rw [if_pos ⟨b, hb, hremoved⟩, if_pos ⟨b, List.mem_cons_of_mem _ hb, hremoved⟩]
    · rw [if_neg hrest]
      by_cases hhead : removes a name
      · rw [if_pos hhead, if_pos ⟨a, List.mem_cons_self, hhead⟩]
      · rw [if_neg hhead, if_neg]
        rintro ⟨b, hb, hremoved⟩
        rcases List.mem_cons.mp hb with rfl | hb
        · exact hhead hremoved
        · exact hrest ⟨b, hb, hremoved⟩

/-- `DeleteMany` removes the files of its keys and nothing else. -/
theorem deleteMany_lookup (cfg : Config) (dir : Dir) (keys : List Key) (name : Name) :
    (deleteMany cfg dir keys).lookup name =
      if ∃ key ∈ keys, path cfg key = name then none else dir.lookup name := by
  refine foldl_lookup ?_ keys dir name
  intro dir key name
  rw [delete, remove]
  by_cases hname : path cfg key = name
  · rw [if_pos hname, hname, AList.lookup_erase]
  · rw [if_neg hname, AList.lookup_erase_ne (Ne.symm hname)]

/-- The entries that `Flush` removes. -/
def Flushed (entry : (_ : Name) × Node) : Prop :=
  entry.2 ≠ .directory ∧ isFileStoreEntry entry.1 = true

instance (entry : (_ : Name) × Node) : Decidable (Flushed entry) :=
  inferInstanceAs (Decidable (_ ∧ _))

/-- One turn of the loop removes at most the name of its entry. -/
theorem flushEntry_lookup (dir : Dir) (entry : (_ : Name) × Node) (name : Name) :
    (flushEntry dir entry).lookup name =
      if entry.1 = name ∧ Flushed entry then none else dir.lookup name := by
  by_cases hflushed : Flushed entry
  · have hremove : flushEntry dir entry = remove dir entry.1 := by
      rw [flushEntry, if_neg (by simp [hflushed.1, hflushed.2])]
    rw [hremove, remove]
    by_cases hname : entry.1 = name
    · rw [if_pos ⟨hname, hflushed⟩, hname, AList.lookup_erase]
    · rw [if_neg (fun h => hname h.1), AList.lookup_erase_ne (Ne.symm hname)]
  · have hkeep : flushEntry dir entry = dir := by
      rw [flushEntry, if_pos]
      by_contra hnot
      rw [not_or] at hnot
      exact hflushed ⟨hnot.1, by simpa using hnot.2⟩
    rw [hkeep, if_neg (fun h => hflushed h.2)]

/-- `Flush` removes the names of the flushed entries it comes across. -/
theorem flush_lookup (dir : Dir) (name : Name) :
    (flush dir).lookup name =
      if ∃ entry ∈ dir.entries, entry.1 = name ∧ Flushed entry then none else dir.lookup name :=
  foldl_lookup flushEntry_lookup dir.entries dir name

/-- `Flush` leaves a name without a file of the store alone. -/
theorem flush_lookup_of_foreign (dir : Dir) {name : Name} (h : isFileStoreEntry name = false) :
    (flush dir).lookup name = dir.lookup name := by
  rw [flush_lookup, if_neg]
  rintro ⟨entry, -, rfl, hflushed⟩
  rw [hflushed.2] at h
  cases h

/-- `Flush` removes every file of the store. -/
theorem flush_lookup_of_own (dir : Dir) {name : Name} (h : isFileStoreEntry name = true)
    (hfile : dir.lookup name ≠ some .directory) : (flush dir).lookup name = none := by
  rw [flush_lookup]
  cases hlookup : dir.lookup name with
  | none => exact ite_self _
  | some node =>
    have hmem : ⟨name, node⟩ ∈ dir.entries := AList.mem_lookup_iff.mp hlookup
    rw [hlookup] at hfile
    exact if_pos ⟨⟨name, node⟩, hmem, rfl, fun hdir => hfile (congrArg some hdir), h⟩

end File
end GoforjCache
