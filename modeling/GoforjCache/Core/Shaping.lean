import GoforjCache.Core.Types

/-!
# Core - Value shaping

`WrapStore` puts a compression layer with a size limit, and around it an
AES-GCM layer, on any store.  Both layers mark what they write in band
(`CMP1` and `ENC1`) and pass unmarked bytes through when they read, so
that values written before shaping was enabled stay readable.

Gzip, AES-GCM and the entropy of nonces are outside the repository: they are
parameters, with the one law that reading inverts writing.

Main results:

- Theorem `decodeValue_encodeValue_gzip`: a gzip envelope decodes to its value.
- Theorem `decrypt_encrypt`: an encryption envelope decrypts to its value.
- Theorem `transform_returns`: what a layer reads back, from what the store below
  it reads back.
-/

namespace GoforjCache
namespace Shaping

/-! ## Configuration -/

/-- `CompressionCodec`; the empty string means `none`. -/
inductive Codec where
  | unset
  | none
  | gzip
  | other (name : Bytes)
deriving DecidableEq, Repr

/-- The default that `WrapStore` puts in for the empty codec. -/
def Codec.normalize : Codec → Codec
  | unset => none
  | codec => codec

/-- The fields of `BaseConfig` that shaping reads. -/
structure BaseConfig where
  compression : Codec
  maxValueBytes : Int
  encryptionKey : Bytes
deriving DecidableEq, Repr

/-- `ValidateBaseConfig`. -/
def validateBaseConfig (cfg : BaseConfig) : Option CacheError :=
  if cfg.maxValueBytes < 0 then some .invalidMaxValueBytes
  else if cfg.compression ≠ .unset ∧ cfg.compression ≠ .none ∧ cfg.compression ≠ .gzip then
    some .unsupportedCodec
  else
    let size := cfg.encryptionKey.length
    if size ≠ 0 ∧ size ≠ 16 ∧ size ≠ 24 ∧ size ≠ 32 then some .encryptionKey else none

/-! ## Compression -/

/-- How a gzip stream ends: cleanly, with an error of its own read, or with an error
that comes together with the last bytes. -/
inductive Ending where
  | eof
  | failsLater
  | failsWithLast
deriving DecidableEq, Repr

/-- What a gzip reader delivers after its header was accepted. -/
structure Stream where
  bytes : Bytes
  ending : Ending
deriving DecidableEq, Repr

/-- The gzip package: `compress` is a writer at `BestSpeed` that is closed,
`newReader` rejects a bad header. -/
structure Gzip where
  compress : Bytes → Bytes
  newReader : Bytes → Option Stream
  inverts : ∀ v, newReader (compress v) = some ⟨v, .eof⟩

/-- `io.ReadAll`, behind an `io.LimitReader` when there is a limit. -/
def readAll : Option Nat → Stream → Option Bytes
  | none, st => if st.ending = .eof then some st.bytes else none
  | some limit, st =>
    if st.bytes.length < limit then
      if st.ending = .eof then some st.bytes else none
    else if st.bytes.length = limit then
      -- the limit ends the read before a later error can show
      if st.ending = .failsWithLast then none else some st.bytes
    else some (st.bytes.take limit)

/-- The limit behind which a value is too large: one byte more than allowed, except at
the largest integer. -/
def readLimit (max : Int) : Option Nat :=
  if 0 < max then some (if max < 2 ^ 63 - 1 then max + 1 else max).toNat else none

/-- `compressionMagic`. -/
def compressionMagic : Bytes := ascii "CMP1"

/-- The byte `'g'` that names the codec in an envelope. -/
def gzipTag : UInt8 := 0x67

/-- `encodeValue`. -/
def encodeValue (gz : Gzip) (codec : Codec) (max : Int) (value : Bytes) : Except CacheError Bytes :=
  if 0 < max ∧ max < value.length then .error .valueTooLarge
  else
    match codec with
    | .none => .ok value
    | .gzip =>
      let encoded := compressionMagic ++ gzipTag :: gz.compress value
      if 0 < max ∧ max < encoded.length then .error .valueTooLarge else .ok encoded
    | _ => .error .unsupportedCodec

/-- Split bytes that open with a magic number and at least one more byte: that byte
and what follows it. -/
def unmark (magic body : Bytes) : Option (UInt8 × Bytes) :=
  if body.take magic.length = magic then
    match body.drop magic.length with
    | [] => none
    | tag :: rest => some (tag, rest)
  else none

/-- `decodeValue`. -/
def decodeValue (gz : Gzip) (max : Int) (body : Bytes) : Except CacheError Bytes :=
  if 0 < max ∧ max < body.length then .error .valueTooLarge
  else
    match unmark compressionMagic body with
    | none => .ok body
    | some (tag, payload) =>
      if tag = gzipTag then
        match gz.newReader payload with
        | none => .error .corruptCompression
        | some st =>
          match readAll (readLimit max) st with
          | none => .error .corruptCompression
          | some decoded =>
            if 0 < max ∧ max < decoded.length then .error .valueTooLarge
            else .ok decoded
      else .error .unsupportedCodec

/-! ## Encryption -/

/-- `aead.NonceSize()` of AES-GCM. -/
def nonceSize : Nat := 12

/-- A nonce of AES-GCM. -/
abbrev Nonce := { b : Bytes // b.length = nonceSize }

/-- The methods `Seal` and `Open` of AES-GCM under a key. -/
structure Aead where
  sealWith : Bytes → Nonce → Bytes → Bytes
  openWith : Bytes → Nonce → Bytes → Option Bytes
  inverts : ∀ key nonce plain, openWith key nonce (sealWith key nonce plain) = some plain

/-- `encryptionMagic`. -/
def encryptionMagic : Bytes := ascii "ENC1"

/-- `encryptingStore.encrypt`; the nonce is missing when entropy fails. -/
def encrypt (aead : Aead) (key : Bytes) (nonce : Option Nonce) (plain : Bytes) :
    Except CacheError Bytes :=
  match nonce with
  | none => .error .entropy
  | some nonce =>
    .ok (encryptionMagic ++ nonce.val.length.toUInt8 :: (nonce.val ++
      aead.sealWith key nonce plain))

/-- `encryptingStore.decrypt`. -/
def decrypt (aead : Aead) (key : Bytes) (body : Bytes) : Except CacheError Bytes :=
  match unmark encryptionMagic body with
  | none => .ok body
  | some (nonceLen, rest) =>
    if h : nonceLen.toNat = nonceSize ∧ nonceSize ≤ rest.length then
      let nonce : Nonce := ⟨rest.take nonceSize, by rw [List.length_take]; omega⟩
      match aead.openWith key nonce (rest.drop nonceSize) with
      | some plain => .ok plain
      | none => .error .decryptFailed
    else .error .decryptFailed

/-! ## Layers -/

/-- A store: its calls, with the nonce that entropy would give, and whether it has the
lock capability. -/
structure Store (σ : Type) where
  exec : Option Nonce → σ → Op → σ × Res
  isLockStore : Bool

/-- What a layer makes of the result of a read below it. -/
def decodeRes (dec : Bytes → Except CacheError Bytes) : Res → Res
  | .value (some body) =>
    match dec body with
    | .ok plain => .value (some plain)
    | .error err => .error err
  | res => res

/-- A layer that encodes what `Set` and `Add` write and decodes what
`Get` reads.  Counters, deletes and lock operations bypass the encoding; without
the lock capability below, lock operations fall back to `Add` and
`Delete`. -/
def transform {σ : Type} (enc : Option Nonce → Bytes → Except CacheError Bytes)
    (dec : Bytes → Except CacheError Bytes) (inner : Store σ) : Store σ where
  isLockStore := true
  exec := fun nonce s op =>
    match op with
    | .get key =>
      let r := inner.exec nonce s (.get key)
      (r.1, decodeRes dec r.2)
    | .set key value ttl =>
      match enc nonce value with
      | .error err => (s, .error err)
      | .ok encoded => inner.exec nonce s (.set key encoded ttl)
    | .add key value ttl =>
      match enc nonce value with
      | .error err => (s, .error err)
      | .ok encoded => inner.exec nonce s (.add key encoded ttl)
    | .lockAcquire key owner ttl =>
      if inner.isLockStore then inner.exec nonce s (.lockAcquire key owner ttl)
      else inner.exec nonce s (.add key owner ttl)
    | .lockRelease key owner =>
      if inner.isLockStore then inner.exec nonce s (.lockRelease key owner)
      else
        match inner.exec nonce s (.delete key) with
        | (s', .error err) => (s', .error err)
        | (s', _) => (s', .flag true)
    | op => inner.exec nonce s op

/-- `shapingStore`. -/
def shapingStore {σ : Type} (gz : Gzip) (inner : Store σ) (codec : Codec) (max : Int) : Store σ :=
  transform (fun _ => encodeValue gz codec max) (decodeValue gz max) inner

/-- `encryptingStore`. -/
def encryptingStore {σ : Type} (aead : Aead) (inner : Store σ) (key : Bytes) : Store σ :=
  transform (encrypt aead key) (decrypt aead key) inner

/-- `failingStore`: every call reports the configuration error. -/
def failingStore {σ : Type} (err : CacheError) : Store σ where
  exec := fun _ s _ => (s, .error err)
  isLockStore := true

/-- `WrapStore`. -/
def wrapStore {σ : Type} (gz : Gzip) (aead : Aead) (store : Store σ) (cfg : BaseConfig) :
    Store σ × Option CacheError :=
  match validateBaseConfig cfg with
  | some err => (failingStore err, some err)
  | none =>
    let codec := cfg.compression.normalize
    let shaped :=
      if codec ≠ .none ∨ 0 < cfg.maxValueBytes then
        shapingStore gz store codec cfg.maxValueBytes
      else store
    -- the cipher accepts every key length that was validated
    if cfg.encryptionKey.length > 0 then (encryptingStore aead shaped cfg.encryptionKey, none)
    else (shaped, none)

/-! ## Envelopes decode -/

/-- Marked bytes split at their tag. -/
@[simp]
theorem unmark_append (magic : Bytes) (tag : UInt8) (rest : Bytes) :
    unmark magic (magic ++ tag :: rest) = some (tag, rest) := by
  simp [unmark]

/-- Bytes split at a tag exactly when they are the magic number, the tag and the
rest. -/
theorem unmark_eq_some_iff {magic body : Bytes} {tag : UInt8} {rest : Bytes} :
    unmark magic body = some (tag, rest) ↔ body = magic ++ tag :: rest := by
  constructor
  · intro h
    unfold unmark at h
    split at h
    · rename_i hmagic
      split at h
      · contradiction
      · rename_i hdrop
        cases h
        rw [← hdrop, ← hmagic, List.length_take_of_le ?_, List.take_append_drop]
        have hlen := congrArg List.length hmagic
        rw [List.length_take] at hlen
        omega
    · contradiction
  · rintro rfl
    exact unmark_append magic tag rest

variable {max : Int} {v : Bytes}

/-- A value of allowed size fits behind the read limit. -/
theorem length_le_of_readLimit {limit : Nat} (hlimit : readLimit max = some limit)
    (hv : ¬(0 < max ∧ max < v.length)) : v.length ≤ limit := by
  unfold readLimit at hlimit
  split at hlimit
  · cases hlimit
    split <;> omega
  · contradiction

/-- A stream of allowed size that ends cleanly is read in full. -/
theorem readAll_eof (hv : ¬(0 < max ∧ max < v.length)) :
    readAll (readLimit max) ⟨v, .eof⟩ = some v := by
  cases hlimit : readLimit max with
  | none => rfl
  | some limit =>
    have hle := length_le_of_readLimit hlimit hv
    rcases Nat.lt_or_eq_of_le hle with hlt | heq
    · simp [readAll, hlt]
    · simp [readAll, heq]

theorem decodeValue_encodeValue_gzip {gz : Gzip} {e : Bytes}
    (h : encodeValue gz .gzip max v = .ok e) : decodeValue gz max e = .ok v := by
  unfold encodeValue at h
  split at h
  · contradiction
  · rename_i hv
    simp only at h
    split at h
    · contradiction
    · rename_i he
      cases h
      simp only [decodeValue, if_neg he, unmark_append, if_true, gz.inverts, readAll_eof hv,
        if_neg hv]

theorem decrypt_encrypt {aead : Aead} {key : Bytes} {nonce : Option Nonce} {e : Bytes}
    (h : encrypt aead key nonce v = .ok e) : decrypt aead key e = .ok v := by
  cases nonce with
  | none => cases h
  | some nonce =>
    cases h
    obtain ⟨nonce, hlen⟩ := nonce
    have hbyte : (nonce.length.toUInt8).toNat = nonceSize := by
      rw [hlen]
      rfl
    have hfit : nonceSize ≤ (nonce ++ aead.sealWith key ⟨nonce, hlen⟩ v).length := by
      rw [List.length_append, hlen]
      omega
    simp only [decrypt, unmark_append]
    rw [dif_pos ⟨hbyte, hfit⟩]
    simp only [List.take_left' hlen, List.drop_left' hlen, aead.inverts]

/-! ## What a layer reads back -/

variable {σ : Type}

/-- The calls that write a value, with their key and value. -/
def written : Op → Option (Key × Bytes)
  | .set key value _ => some (key, value)
  | .add key value _ => some (key, value)
  | _ => none

/-- The same write with other bytes. -/
def rewrite (encoded : Bytes) : Op → Op
  | .set key _ ttl => .set key encoded ttl
  | .add key _ ttl => .add key encoded ttl
  | op => op

/-- A `Set` without error, or an `Add` that reports `created`. -/
def wrote : Res → Bool
  | .done => true
  | .flag ok => ok
  | _ => false

/-- After every write of `v` that succeeded, reading its key gives `r`. -/
def Store.Returns (store : Store σ) (v : Bytes) (r : Res) : Prop :=
  ∀ nonce nonce' s s' op key res, written op = some (key, v) →
    store.exec nonce s op = (s', res) → wrote res = true →
    (store.exec nonce' s' (.get key)).2 = r

/-- A store that returns the bytes it was given. -/
def Store.Faithful (store : Store σ) : Prop := ∀ v, store.Returns v (.value (some v))

/-- A write through a layer writes the encoded value below it. -/
theorem transform_write {enc : Option Nonce → Bytes → Except CacheError Bytes}
    {dec : Bytes → Except CacheError Bytes} {inner : Store σ} {nonce : Option Nonce} {s s' : σ}
    {op : Op} {key : Key} {res : Res} (hop : written op = some (key, v))
    (hexec : (transform enc dec inner).exec nonce s op = (s', res)) (hok : wrote res = true) :
    ∃ e, enc nonce v = .ok e ∧ written (rewrite e op) = some (key, e) ∧
      inner.exec nonce s (rewrite e op) = (s', res) := by
  cases op with
  | set k w ttl | add k w ttl =>
    cases hop
    simp only [transform] at hexec
    cases henc : enc nonce v with
    | error err =>
      rw [henc] at hexec
      cases hexec
      cases hok
    | ok e =>
      rw [henc] at hexec
      exact ⟨e, rfl, rfl, hexec⟩
  | _ => cases hop

/-- A layer reads back what decoding makes of the bytes the store below reads back. -/
theorem transform_returns {enc : Option Nonce → Bytes → Except CacheError Bytes}
    {dec : Bytes → Except CacheError Bytes} {inner : Store σ} {r : Res}
    (h : ∀ nonce e, enc nonce v = .ok e → ∃ r', inner.Returns e r' ∧ decodeRes dec r' = r) :
    (transform enc dec inner).Returns v r := by
  intro nonce nonce' s s' op key res hop hexec hok
  obtain ⟨e, henc, hop', hexec'⟩ := transform_write hop hexec hok
  obtain ⟨r', hreturns, hdec⟩ := h nonce e henc
  rw [← hdec]
  exact congrArg (decodeRes dec) (hreturns nonce nonce' s s' _ key res hop' hexec' hok)

end Shaping
end GoforjCache
