import GoforjCache.Core.ShapingRoundTrip

/-!
# Core - Enabling shaping on existing values

A store is reconfigured: values that were written under one configuration of `WrapStore` are
read under another one.  The reader has gzip and no size limit, and the key of the writer if there
was one.  Each of its layers decodes its own envelope and passes other bytes through, so it reads
what any configuration has written, as long as raw bytes do not look like an envelope.

Main results:

- Theorem `write_persists`: a successful write leaves the persisted form of the value in the
  store below.
- Theorem `readForm_persisted`: the reader decodes every persisted form.
- Theorem `shaping_keeps_readable`: a value that was written under any configuration is read
  back under the new one.
-/

namespace GoforjCache
namespace Shaping

variable {σ : Type} {gz : Gzip} {aead : Aead} {inner : Store σ}

/-! ## The persisted forms -/

/-- The envelope of the compression layer. -/
def compressed (gz : Gzip) (body : Bytes) : Bytes := compressionMagic ++ gzipTag :: gz.compress body

/-- The envelope of the encryption layer. -/
def encrypted (aead : Aead) (key : Bytes) (nonce : Nonce) (plain : Bytes) : Bytes :=
  encryptionMagic ++ nonce.val.length.toUInt8 :: (nonce.val ++ aead.sealWith key nonce plain)

/-- What the encryption layer of a configuration hands to the layer below it. -/
inductive Sealed (aead : Aead) (cfg : BaseConfig) (v : Bytes) : Option Nonce → Bytes → Prop where
  | raw (hkey : cfg.encryptionKey = []) (nonce : Option Nonce) : Sealed aead cfg v nonce v
  | envelope (hkey : cfg.encryptionKey ≠ []) (nonce : Nonce) :
      Sealed aead cfg v (some nonce) (encrypted aead cfg.encryptionKey nonce v)

/-- What the compression layer of a configuration hands to the store. -/
inductive Packed (gz : Gzip) (cfg : BaseConfig) (body : Bytes) : Bytes → Prop where
  | raw (hcodec : cfg.compression ≠ .gzip) : Packed gz cfg body body
  | envelope (hcodec : cfg.compression = .gzip) : Packed gz cfg body (compressed gz body)

/-- The bytes that a configuration persists for a value. -/
def Persisted (gz : Gzip) (aead : Aead) (cfg : BaseConfig) (nonce : Option Nonce) (v e : Bytes) :
    Prop :=
  ∃ body, Sealed aead cfg v nonce body ∧ Packed gz cfg body e

variable {cfg : BaseConfig} {nonce : Option Nonce} {v e body : Bytes} {op : Op} {key : Key} {s : σ}

theorem sealed_of_encrypt (hkey : cfg.encryptionKey ≠ [])
    (h : encrypt aead cfg.encryptionKey nonce v = .ok e) : Sealed aead cfg v nonce e := by
  cases nonce with
  | none => cases h
  | some nonce =>
    cases h
    exact .envelope hkey nonce

theorem packed_of_encode (hcfg : validateBaseConfig cfg = none)
    (h : encodeValue gz cfg.compression.normalize cfg.maxValueBytes v = .ok e) :
    Packed gz cfg v e := by
  unfold encodeValue at h
  split at h
  · contradiction
  · rcases (valid_cases hcfg).2 with ⟨hnone, hraw⟩ | ⟨hgzip, hnorm⟩
    · rw [hnone] at h
      cases h
      exact .raw hraw
    · rw [hnorm] at h
      simp only at h
      split at h
      · contradiction
      · cases h
        exact .envelope hgzip

/-! ## Writing -/

theorem rewrite_rewrite (e e' : Bytes) (op : Op) : rewrite e (rewrite e' op) = rewrite e op := by
  cases op <;> rfl

theorem rewrite_self (h : written op = some (key, v)) : rewrite v op = op := by
  cases op <;> cases h <;> rfl

/-- The compression layer that `WrapStore` installs writes the packed form. -/
theorem shaped_write (hcfg : validateBaseConfig cfg = none) {s' : σ} {res : Res}
    (hop : written op = some (key, v))
    (hexec : (if cfg.compression.normalize ≠ .none ∨ 0 < cfg.maxValueBytes then
        shapingStore gz inner cfg.compression.normalize cfg.maxValueBytes
      else inner).exec nonce s op = (s', res)) (hok : wrote res = true) :
    ∃ e, Packed gz cfg v e ∧ written (rewrite e op) = some (key, e) ∧
      inner.exec nonce s (rewrite e op) = (s', res) := by
  split at hexec
  · obtain ⟨e, henc, hop', hexec'⟩ := transform_write hop hexec hok
    exact ⟨e, packed_of_encode hcfg henc, hop', hexec'⟩
  · rename_i hlayer
    have hraw : cfg.compression ≠ .gzip := by
      intro hgzip
      simp [hgzip, Codec.normalize] at hlayer
    refine ⟨v, .raw hraw, ?_⟩
    rw [rewrite_self hop]
    exact ⟨hop, hexec⟩

/-- A successful write leaves a persisted form of the value in the store below.  An invalid
configuration has no successful write. -/
theorem write_persists {s' : σ} {res : Res} (hop : written op = some (key, v))
    (hexec : (wrapStore gz aead inner cfg).1.exec nonce s op = (s', res)) (hok : wrote res = true) :
    ∃ e, Persisted gz aead cfg nonce v e ∧ written (rewrite e op) = some (key, e) ∧
      inner.exec nonce s (rewrite e op) = (s', res) := by
  unfold wrapStore at hexec
  cases hcfg : validateBaseConfig cfg with
  | some err =>
    rw [hcfg] at hexec
    cases hexec
    cases hok
  | none =>
    rw [hcfg] at hexec
    dsimp only at hexec
    by_cases hkey : cfg.encryptionKey.length > 0
    · rw [if_pos hkey] at hexec
      obtain ⟨body, henc, hop', hexec'⟩ := transform_write hop hexec hok
      obtain ⟨e, hpacked, hop'', hexec''⟩ := shaped_write hcfg hop' hexec' hok
      rw [rewrite_rewrite] at hop'' hexec''
      have hsealed := sealed_of_encrypt (List.ne_nil_of_length_pos hkey) henc
      exact ⟨e, ⟨body, hsealed, hpacked⟩, hop'', hexec''⟩
    · rw [if_neg hkey] at hexec
      have hempty : cfg.encryptionKey = [] := by
        rw [← List.length_eq_zero_iff]
        omega
      obtain ⟨e, hpacked, hop', hexec'⟩ := shaped_write hcfg hop hexec hok
      exact ⟨e, ⟨v, .raw hempty nonce, hpacked⟩, hop', hexec'⟩

/-! ## Reading -/

/-- What the layers of a reader with gzip and no limit make of the bytes in the store. -/
def readForm (gz : Gzip) (aead : Aead) (key : Bytes) (body : Bytes) : Res :=
  let shaped := decodeRes (decodeValue gz 0) (.value (some body))
  if key = [] then shaped else decodeRes (decrypt aead key) shaped

/-- Reading under a configuration with gzip and no limit. -/
theorem wrapStore_get (hcfg : validateBaseConfig cfg = none) (hgzip : cfg.compression = .gzip)
    (hmax : cfg.maxValueBytes = 0) (h : (inner.exec nonce s (.get key)).2 = .value (some body)) :
    ((wrapStore gz aead inner cfg).1.exec nonce s (.get key)).2 =
      readForm gz aead cfg.encryptionKey body := by
  have hlayer : cfg.compression.normalize = .gzip := by
    rw [hgzip]
    rfl
  have hshaped : ((shapingStore gz inner .gzip 0).exec nonce s (.get key)).2 =
      decodeRes (decodeValue gz 0) (.value (some body)) := by
    rw [← h]
    rfl
  unfold wrapStore
  rw [hcfg]
  dsimp only
  rw [hlayer, hmax, if_pos (Or.inl (by simp))]
  by_cases hkey : cfg.encryptionKey = []
  · rw [hkey, if_neg (by simp), hshaped, readForm, if_pos rfl]
  · rw [if_pos (List.length_pos_iff.mpr hkey), readForm, if_neg hkey, ← hshaped]
    rfl

theorem decodeValue_compressed (body : Bytes) : decodeValue gz 0 (compressed gz body) = .ok body :=
  decodeValue_encodeValue_gzip (by simp [encodeValue, compressed])

theorem decodeValue_unmarked (h : unmark compressionMagic body = none) :
    decodeValue gz 0 body = .ok body := by
  simp [decodeValue, h]

/-- Bytes that do not begin with a magic number are not marked by it. -/
theorem unmark_of_not_begins {magic : Bytes} (h : ¬ magic <+: body) : unmark magic body = none := by
  have hne : body.take magic.length ≠ magic := by
    intro htake
    exact h (List.prefix_iff_eq_take.mpr htake.symm)
  rw [unmark, if_neg hne]

/-- The key of the writer opens its envelope, and raw bytes pass without an envelope of their
own. -/
theorem decrypt_sealed {key : Bytes} (hsealed : Sealed aead cfg v nonce body)
    (hkey : cfg.encryptionKey ≠ [] → key = cfg.encryptionKey)
    (hraw : cfg.encryptionKey = [] → ¬ encryptionMagic <+: v) : decrypt aead key body = .ok v := by
  cases hsealed with
  | raw hempty => rw [decrypt, unmark_of_not_begins (hraw hempty)]
  | envelope hne nonce =>
    rw [hkey hne]
    exact decrypt_encrypt (rfl : encrypt aead cfg.encryptionKey (some nonce) v = _)

/-- The reader decodes every persisted form. -/
theorem readForm_persisted {key : Bytes} (h : Persisted gz aead cfg nonce v e)
    (hkey : cfg.encryptionKey ≠ [] → key = cfg.encryptionKey)
    (hunmarked : cfg.compression ≠ .gzip → cfg.encryptionKey = [] → ¬ compressionMagic <+: v)
    (hraw : key ≠ [] → cfg.encryptionKey = [] → ¬ encryptionMagic <+: v) :
    readForm gz aead key e = .value (some v) := by
  obtain ⟨body, hsealed, hpacked⟩ := h
  have hdecode : decodeValue gz 0 e = .ok body := by
    cases hpacked with
    | envelope _ => exact decodeValue_compressed body
    | raw hcodec =>
      apply decodeValue_unmarked
      cases hsealed with
      | raw hempty => exact unmark_of_not_begins (hunmarked hcodec hempty)
      | envelope _ nonce => exact unmark_encryptionMagic _ _
  rw [readForm]
  simp only [decodeRes, hdecode]
  by_cases hnone : key = []
  · -- Without a key for the reader the writer had none.
    rw [if_pos hnone]
    cases hsealed with
    | raw _ => rfl
    | envelope hne _ => exact absurd ((hkey hne).symm.trans hnone) hne
  · rw [if_neg hnone, decrypt_sealed hsealed hkey (hraw hnone)]

/--
Enabling shaping keeps values readable.  A value was written with success under any configuration of
`WrapStore`, and the store is read under a valid configuration with gzip, no limit, and the key
of the writer if it had one.  Then the value is read back, provided that it does not begin with
`CMP1` if it was written without an envelope, nor with `ENC1` if only the reader has a
key.  Under gzip and a key, the store below holds the encryption envelope of the value inside a
compression envelope.
-/
theorem shaping_keeps_readable (hinner : inner.Faithful) {writer reader : BaseConfig}
    (hreader : validateBaseConfig reader = none) (hgzip : reader.compression = .gzip)
    (hmax : reader.maxValueBytes = 0)
    (hkey : writer.encryptionKey ≠ [] → reader.encryptionKey = writer.encryptionKey)
    {nonce nonce' : Option Nonce} {s s' : σ} {op : Op} {key : Key} {v : Bytes} {res : Res}
    (hop : written op = some (key, v))
    (hexec : (wrapStore gz aead inner writer).1.exec nonce s op = (s', res))
    (hok : wrote res = true)
    (hunmarked : writer.compression ≠ .gzip → writer.encryptionKey = [] → ¬ compressionMagic <+: v)
    (hraw : reader.encryptionKey ≠ [] → writer.encryptionKey = [] → ¬ encryptionMagic <+: v) :
    ((wrapStore gz aead inner reader).1.exec nonce' s' (.get key)).2 = .value (some v) ∧
      (writer.compression = .gzip → writer.encryptionKey ≠ [] →
        ∃ n, nonce = some n ∧ (inner.exec nonce' s' (.get key)).2 =
          .value (some (compressed gz (encrypted aead writer.encryptionKey n v)))) := by
  obtain ⟨e, hpersisted, hop', hexec'⟩ := write_persists hop hexec hok
  have hget := hinner e nonce nonce' s s' _ key res hop' hexec' hok
  constructor
  · rw [wrapStore_get hreader hgzip hmax hget]
    exact readForm_persisted hpersisted hkey hunmarked hraw
  · intro hcodec hne
    obtain ⟨body, hsealed, hpacked⟩ := hpersisted
    cases hsealed with
    | raw hempty => exact absurd hempty hne
    | envelope _ n =>
      cases hpacked with
      | raw hnot => exact absurd hcodec hnot
      | envelope _ => exact ⟨n, rfl, hget⟩

/-! ## A raw value under gzip and a key -/

/-- The writer has a limit and nothing else. -/
def limitOnly : BaseConfig := ⟨.unset, 64, []⟩

/-- The reader has gzip and a key. -/
def gzipAndKey : BaseConfig := ⟨.gzip, 0, ascii "0123456789abcdef"⟩

/-- The backend after `Set` of `hi` by the writer. -/
def hiRaw : Memory.Items :=
  ((wrapStore sampleGzip sampleAead sampleStore limitOnly).1.exec none (fun _ => none)
    (.set (ascii "k") (ascii "hi") 60)).1

/-- The raw value is read by the reader. -/
theorem raw_hi_readable :
    (wrapStore sampleGzip sampleAead sampleStore limitOnly).1.exec none (fun _ => none)
        (.set (ascii "k") (ascii "hi") 60) = (hiRaw, .done) ∧
      ((wrapStore sampleGzip sampleAead sampleStore gzipAndKey).1.exec none hiRaw
        (.get (ascii "k"))).2 = .value (some (ascii "hi")) := by
  have hexec : (wrapStore sampleGzip sampleAead sampleStore limitOnly).1.exec none (fun _ => none)
      (.set (ascii "k") (ascii "hi") 60) = (hiRaw, .done) := rfl
  have hvalid : validateBaseConfig gzipAndKey = none := by decide
  refine ⟨hexec, ?_⟩
  exact (shaping_keeps_readable (memoryStore_faithful _ _) hvalid rfl rfl (by decide) rfl hexec rfl
    (fun _ _ => by decide) (fun _ _ => by decide)).1

end Shaping
end GoforjCache
