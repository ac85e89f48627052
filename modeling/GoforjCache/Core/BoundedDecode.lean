import GoforjCache.Core.Shaping
import GoforjCache.Foundation.Readers

/-!
# Core - Decoding with a limit

`decodeValue` reads a gzip stream with `io.ReadAll`, behind an `io.LimitReader` when
values have a largest size.  Here the reads are those of the loop: a gzip reader gives its bytes in
pieces of its own choice, the buffer grows as the runtime lets it, and growing may panic.

Main results:

- Theorem `decodeValueReads_eq`: read by read, `decodeValue` returns what the model of it
  without reads returns, if it returns.
- Theorem `bounded_decoding_agrees`: decoding with a limit agrees with decoding without one,
  and takes at most one byte more than allowed.
-/

namespace GoforjCache
namespace Shaping

open Foundation.Readers

variable {σ : Type}

/-! ## Reads of a gzip stream -/

/-- The largest length of a slice. -/
abbrev maxInt : Nat := 2 ^ 63 - 1

/-- The gzip package with the reads of its readers. -/
structure GzipReads (σ : Type) where
  compress : Bytes → Bytes
  newReader : Bytes → Option σ
  source : Source UInt8 σ
  inverts : ∀ v, ∃ s, newReader (compress v) = some s ∧ source.pending s = v ∧
    source.signal s = .eof

/-- How a stream ends, from how its reader signals it. -/
def endingOf : Signal → Bool → Ending
  | .eof, _ => .eof
  | .fail, false => .failsLater
  | .fail, true => .failsWithLast

/-- What a reader delivers. -/
def GzipReads.stream (G : GzipReads σ) (s : σ) : Stream :=
  ⟨G.source.pending s, endingOf (G.source.signal s) (G.source.together s)⟩

/-- The gzip package without the reads. -/
def GzipReads.toGzip (G : GzipReads σ) : Gzip where
  compress := G.compress
  newReader := fun payload => (G.newReader payload).map G.stream
  inverts := by
    intro v
    obtain ⟨s, hs, hpending, hsignal⟩ := G.inverts v
    simp [hs, GzipReads.stream, hpending, hsignal, endingOf]

/-! ## Decoding read by read -/

/-- The limit of the `io.LimitReader`, in machine integers. -/
def limitFor (max : Int64) : Int64 :=
  if max < Int64.maxValue then max + 1 else max

/-- `make([]byte, 0, 512)`, the buffer that `io.ReadAll` starts with. -/
def freshBuffer : Buffer UInt8 maxInt := ⟨[], 512, by decide, by decide⟩

/-- What `io.ReadAll` leaves: its buffer, its error, and the gzip reader. -/
def readSource (G : GzipReads σ) (A : Allocator maxInt) (max : Int64) (s : σ) : Reading UInt8 σ :=
  if 0 < max then
    let r := G.source.limited.readAll A freshBuffer (s, (limitFor max).toInt.toNat)
    ⟨r.items, r.state.1, r.stop⟩
  else G.source.readAll A freshBuffer s

/-- What `decodeValue` makes of the end of its reads; nothing if growing the buffer
panicked. -/
def finish (max : Int64) (decoded : Bytes) : Option Signal → Option (Except CacheError Bytes)
  | none => none
  | some .fail => some (.error .corruptCompression)
  | some .eof =>
    if 0 < max ∧ max.toInt < decoded.length then some (.error .valueTooLarge)
    else some (.ok decoded)

/-- The end of a call of `decodeValue`: its result, or nothing after a panic, and the gzip
reader if there is one. -/
structure Decoding (σ : Type) where
  result : Option (Except CacheError Bytes)
  reader : Option σ

/-- `decodeValue`, read by read. -/
def decodeValueReads (G : GzipReads σ) (A : Allocator maxInt) (max : Int64) (body : Bytes) :
    Decoding σ :=
  if 0 < max ∧ max.toInt < body.length then ⟨some (.error .valueTooLarge), none⟩
  else
    match unmark compressionMagic body with
    | none => ⟨some (.ok body), none⟩
    | some (tag, payload) =>
      if tag = gzipTag then
        match G.newReader payload with
        | none => ⟨some (.error .corruptCompression), none⟩
        | some s =>
          let r := readSource G A max s
          ⟨finish max r.items r.stop, some r.state⟩
      else ⟨some (.error .unsupportedCodec), none⟩

/-! ## The limit -/

/-- The limit in machine integers is the one without overflow. -/
theorem toInt_limitFor (max : Int64) :
    (limitFor max).toInt = if max.toInt < 2 ^ 63 - 1 then max.toInt + 1 else max.toInt := by
  have hlo := Int64.le_toInt max
  have hmax : Int64.maxValue.toInt = 2 ^ 63 - 1 := rfl
  unfold limitFor
  by_cases h : max < Int64.maxValue
  · have hlt : max.toInt < 2 ^ 63 - 1 := hmax ▸ Int64.lt_iff_toInt_lt.mp h
    rw [if_pos h, if_pos hlt, Int64.toInt_add, Int64.toInt_one]
    apply Int.bmod_eq_of_le <;> omega
  · have hge : ¬max.toInt < 2 ^ 63 - 1 := fun hlt => h (Int64.lt_iff_toInt_lt.mpr (hmax ▸ hlt))
    rw [if_neg h, if_neg hge]

variable {max : Int64} {g : Signal} {body decoded : Bytes} {r : Except CacheError Bytes}

/-- It is the limit of the model without reads. -/
theorem readLimit_toInt (hmax : 0 < max) :
    readLimit max.toInt = some (limitFor max).toInt.toNat := by
  have hpos : 0 < max.toInt := Int64.lt_iff_toInt_lt.mp hmax
  rw [toInt_limitFor]
  exact if_pos hpos

/-- A limit lets at least one byte through. -/
theorem limitFor_pos (hmax : 0 < max) : 0 < (limitFor max).toInt.toNat := by
  have hpos : 0 < max.toInt := Int64.lt_iff_toInt_lt.mp hmax
  rw [toInt_limitFor]
  split <;> omega

/-! ## Reads without and with a limit -/

variable {G : GzipReads σ} {A : Allocator maxInt} {s : σ}

theorem readSource_zero (G : GzipReads σ) (A : Allocator maxInt) (s : σ) :
    readSource G A 0 s = G.source.readAll A freshBuffer s :=
  rfl

theorem readSource_of_pos (hmax : 0 < max) :
    readSource G A max s =
      ⟨(G.source.limited.readAll A freshBuffer (s, (limitFor max).toInt.toNat)).items,
        (G.source.limited.readAll A freshBuffer (s, (limitFor max).toInt.toNat)).state.1,
        (G.source.limited.readAll A freshBuffer (s, (limitFor max).toInt.toNat)).stop⟩ :=
  if_pos hmax

/-- A stream ends cleanly exactly when its reader signals so. -/
@[simp]
theorem endingOf_eq_eof (g : Signal) (together : Bool) : endingOf g together = .eof ↔ g = .eof := by
  cases g <;> cases together <;> simp [endingOf]

@[simp]
theorem endingOf_eq_failsWithLast (g : Signal) (together : Bool) :
    endingOf g together = .failsWithLast ↔ g = .fail ∧ together = true := by
  cases g <;> cases together <;> simp [endingOf]

/-- Reading a stream to its end. -/
theorem readAll_none_stream (G : GzipReads σ) (s : σ) :
    readAll none (G.stream s) =
      if G.source.signal s = .eof then some (G.source.pending s) else none := by
  simp [readAll, GzipReads.stream]

/-- Reading a stream up to a limit. -/
theorem readAll_some_stream (G : GzipReads σ) (s : σ) (left : Nat) :
    readAll (some left) (G.stream s) =
      if G.source.cutSignal s left = .eof then some ((G.source.pending s).take left) else none := by
  simp only [readAll, GzipReads.stream, Source.cutSignal]
  rcases lt_trichotomy (G.source.pending s).length left with hlt | heq | hgt
  · simp [hlt, List.take_of_length_le hlt.le]
  · have hfail : G.source.signal s = .fail ↔ ¬G.source.signal s = .eof := by
      cases G.source.signal s <;> simp
    by_cases htogether : G.source.together s = true
    · simp [heq, List.take_of_length_le heq.le, htogether, hfail]
    · simp [heq, List.take_of_length_le heq.le, htogether]
  · simp [hgt.not_gt, hgt.ne']

/-- Reads that end leave what the model without reads says. -/
theorem readAll_of_readSource (h : (readSource G A max s).stop = some g) :
    readAll (readLimit max.toInt) (G.stream s) =
      if g = .eof then some (readSource G A max s).items else none := by
  by_cases hmax : 0 < max
  · rw [readSource_of_pos hmax] at h ⊢
    have hitems := Reader.items_readAll (R := G.source.limited) (by rw [h]; simp)
    rw [readLimit_toInt hmax, readAll_some_stream, Source.limited_stop (limitFor_pos hmax) h,
      hitems]
    rfl
  · have hpos : ¬0 < max.toInt := fun hpos => hmax (Int64.lt_iff_toInt_lt.mpr hpos)
    have hread : readSource G A max s = G.source.readAll A freshBuffer s := if_neg hmax
    rw [hread] at h ⊢
    rw [readLimit, if_neg hpos, readAll_none_stream, Source.readAll_stop h,
      Reader.items_readAll (by rw [h]; simp)]
    rfl

/-- What a body of allowed size is before it is read: a result, or a stream to read. -/
def openBody (G : GzipReads σ) (body : Bytes) : Except CacheError Bytes ⊕ σ :=
  match unmark compressionMagic body with
  | none => .inl (.ok body)
  | some (tag, payload) =>
    if tag = gzipTag then
      match G.newReader payload with
      | none => .inl (.error .corruptCompression)
      | some s => .inr s
    else .inl (.error .unsupportedCodec)

/-- A result without a stream is an error or the body itself. -/
theorem eq_of_openBody_inl {v : Bytes} (h : openBody G body = .inl (.ok v)) : v = body := by
  unfold openBody at h
  split at h
  · cases h
    rfl
  · split at h
    · split at h <;> cases h
    · cases h

/-- Decoding a body of allowed size. -/
theorem decodeValueReads_of_le (hsize : ¬(0 < max ∧ max.toInt < body.length)) :
    decodeValueReads G A max body =
      (openBody G body).elim (fun r => ⟨some r, none⟩) (fun s =>
        ⟨finish max (readSource G A max s).items (readSource G A max s).stop,
          some (readSource G A max s).state⟩) := by
  unfold decodeValueReads openBody
  rw [if_neg hsize]
  cases unmark compressionMagic body with
  | none => rfl
  | some split =>
    obtain ⟨tag, payload⟩ := split
    by_cases htag : tag = gzipTag
    · simp only [if_pos htag]
      cases G.newReader payload <;> rfl
    · simp only [if_neg htag]
      rfl

/-- The same without reads. -/
theorem decodeValue_of_le {max : Int} (hsize : ¬(0 < max ∧ max < body.length)) :
    decodeValue G.toGzip max body =
      (openBody G body).elim (fun r => r) (fun s =>
        (readAll (readLimit max) (G.stream s)).elim (.error .corruptCompression) (fun decoded =>
          if 0 < max ∧ max < decoded.length then .error .valueTooLarge else .ok decoded)) := by
  unfold decodeValue openBody
  rw [if_neg hsize]
  cases unmark compressionMagic body with
  | none => rfl
  | some split =>
    obtain ⟨tag, payload⟩ := split
    by_cases htag : tag = gzipTag
    · simp only [if_pos htag, GzipReads.toGzip]
      cases G.newReader payload with
      | none => rfl
      | some s =>
        simp only [Option.map_some, Sum.elim_inr]
        cases readAll (readLimit max) (G.stream s) <;> rfl
    · simp only [if_neg htag]
      rfl

/-- Decoding that returns read its stream to an end. -/
theorem stop_of_finish {stop : Option Signal} (h : finish max decoded stop = some r) :
    ∃ g, stop = some g := by
  cases stop with
  | none => cases h
  | some g => exact ⟨g, rfl⟩

/-- Read by read, `decodeValue` returns what the model of it without reads returns. -/
theorem decodeValueReads_eq (h : (decodeValueReads G A max body).result = some r) :
    decodeValue G.toGzip max.toInt body = r := by
  have hpos : 0 < max ↔ 0 < max.toInt := Int64.lt_iff_toInt_lt
  by_cases hsize : 0 < max ∧ max.toInt < body.length
  · rw [decodeValueReads, if_pos hsize] at h
    cases h
    exact if_pos ⟨hpos.mp hsize.1, hsize.2⟩
  · rw [decodeValueReads_of_le hsize] at h
    rw [decodeValue_of_le (fun hlarge => hsize ⟨hpos.mpr hlarge.1, hlarge.2⟩)]
    cases hopen : openBody G body with
    | inl r' =>
      rw [hopen] at h
      cases h
      rfl
    | inr s =>
      simp only [hopen, Sum.elim_inr] at h ⊢
      obtain ⟨g, hstop⟩ := stop_of_finish h
      rw [hstop] at h
      rw [readAll_of_readSource hstop]
      cases g with
      | fail =>
        cases h
        rfl
      | eof =>
        simp only [finish, hpos] at h
        simp only [if_true, Option.elim_some]
        split at h <;> cases h
        · rename_i hlarge
          exact if_pos hlarge
        · rename_i hfits
          exact if_neg hfits

/-- Without a limit everything is read. -/
theorem readSource_zero_of_stop (h : (readSource G A 0 s).stop = some g) :
    g = G.source.signal s ∧ (readSource G A 0 s).items = G.source.pending s ∧
      (G.source.pending s).length ≤ maxInt := by
  rw [readSource_zero] at h ⊢
  have hitems : (G.source.readAll A freshBuffer s).items = G.source.pending s :=
    Reader.items_readAll (by simp [h])
  refine ⟨Source.readAll_stop h, hitems, ?_⟩
  rw [← hitems]
  exact G.source.length_readAll_le A freshBuffer s

/-- With memory for a stream, its reads end, with a limit or without. -/
theorem readSource_returns (max : Int64) (hample : ∀ cap < maxInt, A.grow cap ≠ none)
    (hfits : (G.source.pending s).length < maxInt) : (readSource G A max s).stop ≠ none := by
  have hreturns : (G.source.readAll A freshBuffer s).stop ≠ none :=
    Source.readAll_returns hample (by simpa [freshBuffer] using hfits)
  unfold readSource
  split
  · exact Source.limited_returns _ hreturns
  · exact hreturns

/-- With memory for the stream, `decodeValue` returns. -/
theorem decodeValueReads_returns (hample : ∀ cap < maxInt, A.grow cap ≠ none)
    (hfits : ∀ s, openBody G body = .inr s → (G.source.pending s).length < maxInt) :
    (decodeValueReads G A max body).result = some (decodeValue G.toGzip max.toInt body) := by
  have hreturns : ∃ r, (decodeValueReads G A max body).result = some r := by
    by_cases hsize : 0 < max ∧ max.toInt < body.length
    · rw [decodeValueReads, if_pos hsize]
      exact ⟨_, rfl⟩
    · rw [decodeValueReads_of_le hsize]
      cases hopen : openBody G body with
      | inl r => exact ⟨r, rfl⟩
      | inr s =>
        obtain ⟨g, hstop⟩ := Option.ne_none_iff_exists'.mp
          (readSource_returns max hample (hfits s hopen))
        simp only [Sum.elim_inr, hstop]
        cases g with
        | fail => exact ⟨_, rfl⟩
        | eof =>
          simp only [finish]
          split <;> exact ⟨_, rfl⟩
  obtain ⟨r, hr⟩ := hreturns
  rw [hr, decodeValueReads_eq hr]

/-! ## Agreement -/

/-- Reads behind a limit, compared with reads without one that ended: if the stream has the allowed
size it is read to the same end, and otherwise more than the allowed size is read. -/
theorem readSource_limit (hmax : 0 < max) (h : (readSource G A 0 s).stop = some g) :
    ∃ g', (readSource G A max s).stop = some g' ∧
      ((G.source.pending s).length ≤ max.toInt →
        g' = g ∧ (readSource G A max s).items = G.source.pending s) ∧
      (max.toInt < (G.source.pending s).length →
        max.toInt < (readSource G A max s).items.length ∧ (g = .eof → g' = .eof)) := by
  obtain ⟨hsignal, hitems, hlen⟩ := readSource_zero_of_stop h
  have hpos : 0 < max.toInt := Int64.lt_iff_toInt_lt.mp hmax
  have hint : maxInt = 2 ^ 63 - 1 := rfl
  rw [readSource_of_pos hmax]
  rw [readSource_zero] at h hitems
  have hlimit := toInt_limitFor max
  split at hlimit
  · -- the limit is one byte more than allowed
    rename_i hmaxInt
    have hreturns : (G.source.readAll A freshBuffer s).stop ≠ none := by simp [h]
    obtain ⟨g', hstop⟩ := Option.ne_none_iff_exists'.mp
      (Source.limited_returns (limitFor max).toInt.toNat hreturns)
    have hcut := Source.limited_stop (limitFor_pos hmax) hstop
    have htake := Reader.items_readAll (R := G.source.limited) (by rw [hstop]; simp)
    change _ = (G.source.pending s).take _ at htake
    refine ⟨g', hstop, ?_, ?_⟩
    · intro hle
      rw [htake, List.take_of_length_le (by omega)]
      refine ⟨?_, rfl⟩
      rw [hcut, hsignal]
      exact if_pos (Or.inl (by simp only; omega))
    · intro hgt
      refine ⟨?_, ?_⟩
      · rw [htake, List.length_take]
        omega
      · intro heof
        rw [hcut, Source.cutSignal, ← hsignal, heof, ite_self]
  · -- no buffer is larger than the limit
    rename_i hmaxInt
    have hmaxInt' : maxInt ≤ freshBuffer.items.length + (limitFor max).toInt.toNat := by
      simp only [freshBuffer, List.length_nil]
      omega
    have hsame := Source.limited_eq_of_max_le (S := G.source) (A := A) (s := s) hmaxInt'
    refine ⟨g, hsame.2.trans h, ?_, ?_⟩
    · intro _
      exact ⟨rfl, hsame.1.trans hitems⟩
    · intro hgt
      omega

/-- A read to the end of a stream of allowed size decodes. -/
theorem finish_eof (h : decoded.length ≤ max.toInt) :
    finish max decoded (some .eof) = some (.ok decoded) :=
  if_neg (fun hlarge => absurd hlarge.2 (not_lt.mpr h))

/-- A read of more than the allowed size is an error. -/
theorem finish_of_lt (hmax : 0 < max) (h : max.toInt < decoded.length) (g : Signal) :
    finish max decoded (some g) =
      some (.error (if g = .eof then .valueTooLarge else .corruptCompression)) := by
  cases g with
  | eof => exact if_pos ⟨hmax, h⟩
  | fail => rfl

/-- Without a limit the end of the stream decides. -/
theorem finish_zero (decoded : Bytes) (g : Signal) :
    finish 0 decoded (some g) =
      some (if g = .eof then .ok decoded else .error .corruptCompression) := by
  cases g <;> rfl

/-- Decoding a stream behind a limit agrees with decoding it without one. -/
theorem finish_readSource (hmax : 0 < max)
    (h : finish 0 (readSource G A 0 s).items (readSource G A 0 s).stop = some r) :
    (∀ v, r = .ok v → finish max (readSource G A max s).items (readSource G A max s).stop =
      if max.toInt < v.length then some (.error .valueTooLarge) else some (.ok v)) ∧
    (∀ err, r = .error err → ∃ err', finish max (readSource G A max s).items
      (readSource G A max s).stop = some (.error err')) := by
  obtain ⟨g, hstop⟩ := stop_of_finish h
  obtain ⟨g', hstop', hsmall, hlarge⟩ := readSource_limit hmax hstop
  rw [hstop, (readSource_zero_of_stop hstop).2.1, finish_zero] at h
  rw [hstop']
  by_cases hlen : max.toInt < (G.source.pending s).length
  · obtain ⟨hread, heof⟩ := hlarge hlen
    rw [finish_of_lt hmax hread]
    refine ⟨?_, fun err _ => ⟨_, rfl⟩⟩
    rintro v rfl
    cases g with
    | fail => cases h
    | eof =>
      cases h
      rw [if_pos hlen, if_pos (heof rfl)]
  · obtain ⟨rfl, hitems⟩ := hsmall (not_lt.mp hlen)
    rw [hitems]
    cases g' with
    | fail =>
      cases h
      exact ⟨fun v hv => (by cases hv), fun err _ => ⟨_, rfl⟩⟩
    | eof =>
      cases h
      refine ⟨?_, fun err herr => by cases herr⟩
      intro v hv
      cases hv
      rw [if_neg hlen]
      exact finish_eof (not_lt.mp hlen)

/-- The bytes a gzip reader has given up are not more than the limit. -/
theorem readSource_consumed (hmax : 0 < max) :
    ∃ taken, G.source.pending s = taken ++ G.source.pending (readSource G A max s).state ∧
      (taken.length : Int) ≤ max.toInt + 1 := by
  have hpos : 0 < max.toInt := Int64.lt_iff_toInt_lt.mp hmax
  have hlimit := toInt_limitFor max
  rw [readSource_of_pos hmax]
  obtain ⟨hdelivers, hle⟩ := Source.limited_delivers (S := G.source) (A := A) (b := freshBuffer)
    (t := (s, (limitFor max).toInt.toNat))
  refine ⟨_, hdelivers, ?_⟩
  simp only [freshBuffer, List.length_nil] at hle ⊢
  split at hlimit <;> omega

/-! ## Bounded and unbounded decoding -/

/-- Decoding with a limit agrees with decoding without one.  A body larger than the limit is too
large.  For every other body, a value of allowed size is the same, a larger one is too large, and an
error stays an error; in particular decoding with a limit does not panic where decoding without one
returns.  The limit of the reader does not overflow, and however the reads go, the gzip reader gives
up at most one byte more than allowed. -/
theorem bounded_decoding_agrees (G : GzipReads σ) (A : Allocator maxInt) (body : Bytes)
    {max : Int64} (hmax : 0 < max) :
    (max.toInt < body.length →
      (decodeValueReads G A max body).result = some (.error .valueTooLarge)) ∧
    (body.length ≤ max.toInt →
      (∀ v, (decodeValueReads G A 0 body).result = some (.ok v) → v.length ≤ max.toInt →
        (decodeValueReads G A max body).result = some (.ok v)) ∧
      (∀ v, (decodeValueReads G A 0 body).result = some (.ok v) → max.toInt < v.length →
        (decodeValueReads G A max body).result = some (.error .valueTooLarge)) ∧
      (∀ err, (decodeValueReads G A 0 body).result = some (.error err) →
        ∃ err', (decodeValueReads G A max body).result = some (.error err'))) ∧
    max.toInt ≤ (limitFor max).toInt ∧ (limitFor max).toInt ≤ max.toInt + 1 ∧
    (∀ tag payload s s', unmark compressionMagic body = some (tag, payload) →
      G.newReader payload = some s → (decodeValueReads G A max body).reader = some s' →
      ∃ taken, G.source.pending s = taken ++ G.source.pending s' ∧
        (taken.length : Int) ≤ max.toInt + 1) := by
  have hzero : ¬(0 < (0 : Int64) ∧ (0 : Int64).toInt < body.length) := fun h => by simp at h
  refine ⟨?_, ?_, ?_, ?_, ?_⟩
  · intro hlarge
    rw [decodeValueReads, if_pos ⟨hmax, hlarge⟩]
  · intro hle
    have hsize : ¬(0 < max ∧ max.toInt < body.length) := fun h => by omega
    rw [decodeValueReads_of_le hsize, decodeValueReads_of_le hzero]
    cases hopen : openBody G body with
    | inl r =>
      simp only [Sum.elim_inl, Option.some.injEq]
      refine ⟨fun v hv _ => hv, ?_, fun err herr => ⟨err, herr⟩⟩
      rintro v rfl hlarge
      rw [eq_of_openBody_inl hopen] at hlarge
      omega
    | inr s =>
      simp only [Sum.elim_inr]
      refine ⟨?_, ?_, ?_⟩
      · intro v hv hfits
        rw [(finish_readSource hmax hv).1 v rfl, if_neg (not_lt.mpr hfits)]
      · intro v hv hlarge
        rw [(finish_readSource hmax hv).1 v rfl, if_pos hlarge]
      · intro err herr
        exact (finish_readSource hmax herr).2 err rfl
  · rw [toInt_limitFor]
    split <;> omega
  · rw [toInt_limitFor]
    split <;> omega
  · intro tag payload s s' hunmark hreader hs'
    have hsize : ¬(0 < max ∧ max.toInt < body.length) := by
      intro hlarge
      rw [decodeValueReads, if_pos hlarge] at hs'
      cases hs'
    rw [decodeValueReads_of_le hsize] at hs'
    by_cases htag : tag = gzipTag
    · simp only [openBody, hunmark, if_pos htag, hreader, Sum.elim_inr] at hs'
      cases hs'
      exact readSource_consumed hmax
    · simp only [openBody, hunmark, if_neg htag, Sum.elim_inl] at hs'
      cases hs'

/-- A list that is read as far as there is room, with the signal in a read of its own. -/
def listSource : Source UInt8 (Bytes × Signal) where
  read := fun s n =>
    if s.1 = [] then ⟨[], some s.2, s⟩ else ⟨s.1.take n, none, (s.1.drop n, s.2)⟩
  pending := Prod.fst
  signal := Prod.snd
  together := fun _ => false
  got_le := by
    intro s n
    split
    · exact Nat.zero_le n
    · exact List.length_take_le n s.1
  delivers := by
    intro s n
    split
    · rfl
    · exact (List.take_append_drop n s.1).symm
  advances := by
    intro s n hn hstop
    split at hstop
    · contradiction
    · rename_i hne
      simp [hne, hn.ne']
  ended := by
    intro s n hstop
    split at hstop
    · rename_i hnil
      simp [hnil]
    · contradiction
  stop_eq := by
    intro s n g hstop
    split at hstop
    · exact (Option.some.inj hstop).symm
    · contradiction
  signal_next := by
    intro s n _
    split <;> rfl
  together_next := fun _ _ _ => rfl
  timing := by
    intro s n _ hne _
    rw [if_neg hne]
    simp

/-- A gzip with three kinds of streams: stored bytes, bytes with a bad checksum, and twenty bytes
from none. -/
def streamingGzip : GzipReads (Bytes × Signal) where
  compress := fun v => 0 :: v
  newReader := fun payload =>
    match payload with
    | 0 :: v => some (v, .eof)
    | 1 :: v => some (v, .fail)
    | [2] => some (List.replicate 20 7, .eof)
    | _ => none
  source := listSource
  inverts := fun v => ⟨(v, .eof), rfl, rfl, rfl⟩

/-- Memory for every slice. -/
def ampleAllocator : Allocator maxInt where
  grow := fun cap => if cap < maxInt then some maxInt else none
  lt_grow := by
    intro cap cap' h
    split at h
    · cases h
      assumption
    · contradiction
  grow_le := by
    intro cap cap' h
    split at h
    · cases h
      exact le_rfl
    · contradiction

/-- With a limit of nine bytes three stored bytes decode, a bad checksum is an error, and a body of
six bytes that expands to twenty is too large. -/
theorem bounded_decoding_agrees_nine :
    (0 : Int64) < 9 ∧
    (decodeValueReads streamingGzip ampleAllocator 9 (ascii "CMP1g" ++ [0, 1, 2, 3])).result =
      some (.ok [1, 2, 3]) ∧
    (decodeValueReads streamingGzip ampleAllocator 9 (ascii "CMP1g" ++ [2])).result =
      some (.error .valueTooLarge) ∧
    (∃ err, (decodeValueReads streamingGzip ampleAllocator 9 (ascii "CMP1g" ++ [1, 2])).result =
      some (.error err)) := by
  have hample : ∀ cap < maxInt, ampleAllocator.grow cap ≠ none := by
    intro cap hcap
    simp [ampleAllocator, hcap]
  have hunbounded : ∀ payload, (∀ s, openBody streamingGzip (ascii "CMP1g" ++ payload) = .inr s →
      s.1.length < maxInt) →
      (decodeValueReads streamingGzip ampleAllocator 0 (ascii "CMP1g" ++ payload)).result =
        some (decodeValue streamingGzip.toGzip 0 (ascii "CMP1g" ++ payload)) :=
    fun payload hfits => decodeValueReads_returns hample hfits
  refine ⟨by decide, ?_, ?_, ?_⟩
  · apply ((bounded_decoding_agrees streamingGzip ampleAllocator _ (by decide)).2.1 (by decide)).1
    · rw [hunbounded]
      · rfl
      · rintro s ⟨⟩
        decide
    · decide
  · apply ((bounded_decoding_agrees streamingGzip ampleAllocator _ (by decide)).2.1
      (by decide)).2.1 (List.replicate 20 7)
    · rw [hunbounded]
      · rfl
      · rintro s ⟨⟩
        decide
    · decide
  · apply ((bounded_decoding_agrees streamingGzip ampleAllocator _ (by decide)).2.1
      (by decide)).2.2 .corruptCompression
    rw [hunbounded]
    · rfl
    · rintro s ⟨⟩
      decide

end Shaping
end GoforjCache
