import GoforjCache.Core.Shaping
import GoforjCache.Memory.Store

/-!
# Core - When shaping is transparent

A value that was written through `WrapStore` should be read back as it was.  With
a codec or a key every value is wrapped in an envelope that decodes to it.  Without
either, a positive size limit still installs the compression layer: it writes raw bytes,
and its reader looks for the marker `CMP1` in them.

Main results:

- Theorem `shaping_transparent_iff`: a written value is read back exactly when a
  codec or a key is set, there is no limit, the value does not start with the marker, or
  it is a gzip envelope of itself.
- Theorem `shaping_misreads_marked_value`: a value the wrapped store accepts and
  cannot read back.
-/

namespace GoforjCache
namespace Shaping

open Foundation

variable {σ : Type} {gz : Gzip} {aead : Aead} {inner : Store σ}

/-! ## The layers one by one -/

/-- The raw write of the compression layer is read by its decoder. -/
theorem shaping_none_returns (gz : Gzip) (hinner : inner.Faithful) (max : Int) (v : Bytes) :
    (shapingStore gz inner .none max).Returns v
      (decodeRes (decodeValue gz max) (.value (some v))) := by
  apply transform_returns
  intro nonce e henc
  have he : e = v := by
    unfold encodeValue at henc
    split at henc
    · contradiction
    · cases henc
      rfl
  subst he
  exact ⟨_, hinner e, rfl⟩

variable {max : Int} {v : Bytes}

/-- A value without the marker passes the compression layer. -/
theorem shaping_none_unmarked (hinner : inner.Faithful) (hv : unmark compressionMagic v = none) :
    (shapingStore gz inner .none max).Returns v (.value (some v)) := by
  apply transform_returns
  intro nonce e henc
  unfold encodeValue at henc
  split at henc
  · contradiction
  · rename_i hsize
    cases henc
    refine ⟨_, hinner v, ?_⟩
    simp only [decodeRes, decodeValue, if_neg hsize, hv]

/-- A gzip envelope is read back as its value. -/
theorem shaping_gzip_returns (hinner : inner.Faithful) (max : Int) (v : Bytes) :
    (shapingStore gz inner .gzip max).Returns v (.value (some v)) := by
  apply transform_returns
  intro nonce e henc
  refine ⟨_, hinner e, ?_⟩
  simp only [decodeRes, decodeValue_encodeValue_gzip henc]

/-- An encryption envelope is read back as its value when the store below returns
bytes with the encryption marker. -/
theorem encrypting_returns (aead : Aead) (key v : Bytes)
    (hinner : ∀ tag rest, inner.Returns (encryptionMagic ++ tag :: rest)
      (.value (some (encryptionMagic ++ tag :: rest)))) :
    (encryptingStore aead inner key).Returns v (.value (some v)) := by
  apply transform_returns
  intro nonce e henc
  have hdec := decrypt_encrypt henc
  cases nonce with
  | none => cases henc
  | some nonce =>
    cases henc
    refine ⟨_, hinner _ _, ?_⟩
    simp only [decodeRes, hdec]

/-- Bytes with the encryption marker do not carry the compression marker. -/
theorem unmark_encryptionMagic (tag : UInt8) (rest : Bytes) :
    unmark compressionMagic (encryptionMagic ++ tag :: rest) = none := by
  rfl

/-! ## The wrapped store -/

/-- The value is a gzip envelope of itself: what follows the marker expands to the whole
value. -/
def ExpandsToItself (gz : Gzip) (max : Int) (v : Bytes) : Prop :=
  ∃ payload st, v = compressionMagic ++ gzipTag :: payload ∧
    gz.newReader payload = some st ∧ readAll (readLimit max) st = some v

/-- The values a configuration reads back. -/
def Transparent (gz : Gzip) (cfg : BaseConfig) (v : Bytes) : Prop :=
  cfg.compression = .gzip ∨ cfg.maxValueBytes = 0 ∨ cfg.encryptionKey ≠ [] ∨
    unmark compressionMagic v = none ∨ ExpandsToItself gz cfg.maxValueBytes v

/-- An accepted configuration has no negative limit and a known codec. -/
theorem valid_cases {cfg : BaseConfig} (h : validateBaseConfig cfg = none) :
    0 ≤ cfg.maxValueBytes ∧
      (cfg.compression.normalize = .none ∧ cfg.compression ≠ .gzip ∨
        cfg.compression = .gzip ∧ cfg.compression.normalize = .gzip) := by
  unfold validateBaseConfig at h
  split at h
  · contradiction
  · rename_i hmax
    split at h
    · contradiction
    · rename_i hcodec
      refine ⟨by omega, ?_⟩
      cases hc : cfg.compression with
      | unset => exact Or.inl ⟨rfl, by simp⟩
      | none => exact Or.inl ⟨rfl, by simp⟩
      | gzip => exact Or.inr ⟨rfl, rfl⟩
      | other name =>
        rw [hc] at hcodec
        exact absurd ⟨by simp, by simp, by simp⟩ hcodec

/-- A marked value that is read back is a gzip envelope of itself. -/
theorem expandsToItself_of_decode {tag : UInt8} {payload : Bytes}
    (hv : unmark compressionMagic v = some (tag, payload))
    (h : decodeRes (decodeValue gz max) (.value (some v)) = .value (some v)) :
    ExpandsToItself gz max v := by
  have hdec : decodeValue gz max v = .ok v := by
    simp only [decodeRes] at h
    split at h
    · rename_i plain hplain
      cases h
      exact hplain
    · contradiction
  unfold decodeValue at hdec
  split at hdec
  · contradiction
  · rw [hv] at hdec
    simp only at hdec
    split at hdec
    · rename_i htag
      subst htag
      split at hdec
      · contradiction
      · rename_i st hst
        split at hdec
        · contradiction
        · rename_i decoded hread
          split at hdec
          · contradiction
          · cases hdec
            exact ⟨payload, st, unmark_eq_some_iff.mp hv, hst, hread⟩
    · contradiction

/-- A gzip envelope of itself that fits the limit is read back. -/
theorem decode_of_expandsToItself (hsize : ¬(0 < max ∧ max < v.length))
    (h : ExpandsToItself gz max v) :
    decodeRes (decodeValue gz max) (.value (some v)) = .value (some v) := by
  obtain ⟨payload, st, hv, hst, hread⟩ := h
  have hunmark := unmark_eq_some_iff.mpr hv
  simp only [decodeRes, decodeValue, if_neg hsize, hunmark, if_true, hst, hread]

/-- The compression layer that `WrapStore` installs returns every value that
carries the encryption marker. -/
theorem shaped_returns_encrypted (gz : Gzip) (hinner : inner.Faithful) {cfg : BaseConfig}
    (hcfg : validateBaseConfig cfg = none) (tag : UInt8) (rest : Bytes) :
    Store.Returns
      (if cfg.compression.normalize ≠ .none ∨ 0 < cfg.maxValueBytes then
        shapingStore gz inner cfg.compression.normalize cfg.maxValueBytes
      else inner)
      (encryptionMagic ++ tag :: rest) (.value (some (encryptionMagic ++ tag :: rest))) := by
  split
  · rcases (valid_cases hcfg).2 with ⟨hnone, -⟩ | ⟨-, hgzip⟩
    · rw [hnone]
      exact shaping_none_unmarked hinner (unmark_encryptionMagic tag rest)
    · rw [hgzip]
      exact shaping_gzip_returns hinner _ _
  · exact hinner _

/-- A value the raw compression layer accepted is read back exactly when it is unmarked
or a gzip envelope of itself. -/
theorem shaping_none_iff (hinner : inner.Faithful) {nonce nonce' : Option Nonce} {s s' : σ}
    {op : Op} {key : Key} {res : Res} (hop : written op = some (key, v))
    (hexec : (shapingStore gz inner .none max).exec nonce s op = (s', res))
    (hok : wrote res = true) :
    ((shapingStore gz inner .none max).exec nonce' s' (.get key)).2 = .value (some v) ↔
      unmark compressionMagic v = none ∨ ExpandsToItself gz max v := by
  have hread := shaping_none_returns gz hinner max v nonce nonce' s s' op key res hop hexec hok
  have hsize : ¬(0 < max ∧ max < v.length) := by
    intro hlarge
    obtain ⟨e, henc, -, -⟩ := transform_write hop hexec hok
    simp only [encodeValue, if_pos hlarge] at henc
    cases henc
  rw [hread]
  constructor
  · intro h
    cases hv : unmark compressionMagic v with
    | none => exact Or.inl rfl
    | some split => exact Or.inr (expandsToItself_of_decode hv h)
  · rintro (hv | hself)
    · simp only [decodeRes, decodeValue, if_neg hsize, hv]
    · exact decode_of_expandsToItself hsize hself

/--
Shaping is transparent for exactly these values.  Through `WrapStore` with any
accepted configuration, over any store that returns the bytes it was given, a value whose
`Set` succeeded, or whose `Add` reported that it was created, is read back
unchanged if and only if gzip is on, or there is no size limit, or a key is set, or the
value does not start with `CMP1` and one more byte, or it is a gzip envelope of
itself.
-/
theorem shaping_transparent_iff (hinner : inner.Faithful) {cfg : BaseConfig}
    (hcfg : validateBaseConfig cfg = none) {nonce nonce' : Option Nonce} {s s' : σ} {op : Op}
    {key : Key} {v : Bytes} {res : Res} (hop : written op = some (key, v))
    (hexec : (wrapStore gz aead inner cfg).1.exec nonce s op = (s', res)) (hok : wrote res = true) :
    ((wrapStore gz aead inner cfg).1.exec nonce' s' (.get key)).2 = .value (some v) ↔
      Transparent gz cfg v := by
  obtain ⟨hmax, hcodec⟩ := valid_cases hcfg
  unfold wrapStore at hexec ⊢
  rw [hcfg] at hexec ⊢
  dsimp only at hexec ⊢
  by_cases hkey : cfg.encryptionKey.length > 0
  · -- the envelope of the outer layer carries its own marker
    rw [if_pos hkey] at hexec ⊢
    have hreturns := encrypting_returns aead cfg.encryptionKey v
      (shaped_returns_encrypted gz hinner hcfg)
    refine iff_of_true (hreturns nonce nonce' s s' op key res hop hexec hok) ?_
    exact Or.inr (Or.inr (Or.inl (List.ne_nil_of_length_pos hkey)))
  · rw [if_neg hkey] at hexec ⊢
    have hempty : cfg.encryptionKey = [] := by
      rw [← List.length_eq_zero_iff]
      omega
    rcases hcodec with ⟨hnone, hnogzip⟩ | ⟨hgzip, hnorm⟩
    · rw [hnone] at hexec ⊢
      by_cases hpos : 0 < cfg.maxValueBytes
      · rw [if_pos (Or.inr hpos)] at hexec ⊢
        rw [shaping_none_iff hinner hop hexec hok]
        have hne : cfg.maxValueBytes ≠ 0 := by omega
        simp [Transparent, hnogzip, hne, hempty]
      · have hzero : cfg.maxValueBytes = 0 := by omega
        rw [if_neg (by simp [hpos])] at hexec ⊢
        exact iff_of_true (hinner v nonce nonce' s s' op key res hop hexec hok)
          (Or.inr (Or.inl hzero))
    · rw [hnorm, if_pos (Or.inl (by simp))] at hexec ⊢
      exact iff_of_true
        (shaping_gzip_returns hinner _ v nonce nonce' s s' op key res hop hexec hok)
        (Or.inl hgzip)

/-! ## The memory store below -/

/-- The memory store at an instant, as the store below the layers. -/
def memoryStore (d : DefaultTTL) (now : Instant) : Store Memory.Items where
  exec := fun _ m op => Memory.exec d now m op
  isLockStore := true

/-- The memory store returns the bytes it was given. -/
theorem memoryStore_faithful (d : DefaultTTL) (now : Instant) : (memoryStore d now).Faithful := by
  intro v nonce nonce' s s' op key res hop hexec hok
  cases op with
  | set k w ttl =>
    cases hop
    cases hexec
    exact congrArg Res.value (Memory.get_of_written (d.resolve_pos ttl) key v)
  | add k w ttl =>
    cases hop
    rcases Memory.add_spec d s now key v ttl with ⟨-, heq⟩ | ⟨-, heq⟩
    · simp only [memoryStore, Memory.exec, heq] at hexec
      cases hexec
      exact congrArg Res.value (Memory.get_of_written (d.resolve_pos ttl) key v)
    · simp only [memoryStore, Memory.exec, heq] at hexec
      cases hexec
      cases hok
  | _ => cases hop

/-- The gzip stream of the two bytes `hi`, one stored block. -/
def hiStream : Bytes :=
  [0x1f, 0x8b, 0x08, 0x00, 0x00, 0x00, 0x00, 0x00, 0x04, 0xff, 0x00, 0x02, 0x00, 0xfd, 0xff,
    0x68, 0x69, 0x01, 0x00, 0x00, 0xff, 0xff, 0xac, 0x2a, 0x93, 0xd8, 0x02, 0x00, 0x00, 0x00]

/-- A gzip that is the real one on `hi` and wraps other values in a byte of its
own. -/
def sampleGzip : Gzip where
  compress := fun v => if v = ascii "hi" then hiStream else 0 :: v
  newReader := fun b =>
    if b = hiStream then some ⟨ascii "hi", .eof⟩
    else
      match b with
      | 0 :: v => some ⟨v, .eof⟩
      | _ => none
  inverts := by
    intro v
    by_cases hv : v = ascii "hi"
    · simp [hv]
    · simp [hv, hiStream]

/-- A cipher for stores without a key, which never call it. -/
def sampleAead : Aead where
  sealWith := fun _ _ plain => plain
  openWith := fun _ _ sealed => some sealed
  inverts := fun _ _ _ => rfl

/-- The store below the layers in the runs that follow. -/
def sampleStore : Store Memory.Items := memoryStore (DefaultTTL.normalize 0) 0

/-- The store wrapped with gzip and a limit. -/
def gzipStore : Store Memory.Items :=
  (wrapStore sampleGzip sampleAead sampleStore ⟨.gzip, 64, []⟩).1

/-- The backend after `Set` of `hi`. -/
def hiWritten : Memory.Items :=
  (gzipStore.exec none (fun _ => none) (.set (ascii "k") (ascii "hi") 60)).1

/-- With gzip and a limit the value `hi` is read back. -/
theorem shaping_transparent_iff_hi :
    gzipStore.exec none (fun _ => none) (.set (ascii "k") (ascii "hi") 60) = (hiWritten, .done) ∧
    ((gzipStore.exec none hiWritten (.get (ascii "k"))).2 = .value (some (ascii "hi")) ↔
      Transparent sampleGzip ⟨.gzip, 64, []⟩ (ascii "hi")) ∧
    Transparent sampleGzip ⟨.gzip, 64, []⟩ (ascii "hi") := by
  have hexec : gzipStore.exec none (fun _ => none) (.set (ascii "k") (ascii "hi") 60) =
      (hiWritten, .done) := rfl
  exact ⟨hexec, shaping_transparent_iff (memoryStore_faithful _ _) (by decide) rfl hexec rfl,
    Or.inl rfl⟩

/-- With a limit and no codec the wrapped store accepts `CMP1x` and then refuses to
read it. -/
theorem shaping_misreads_marked_value :
    validateBaseConfig ⟨.unset, 64, []⟩ = none ∧
    (let store := (wrapStore sampleGzip sampleAead sampleStore ⟨.unset, 64, []⟩).1
     let written := store.exec none (fun _ => none) (.set (ascii "k") (ascii "CMP1x") 60)
     written.2 = .done ∧
      (store.exec none written.1 (.get (ascii "k"))).2 = .error .unsupportedCodec) := by
  decide

end Shaping
end GoforjCache
