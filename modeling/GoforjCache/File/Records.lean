import GoforjCache.File.Store

/-!
# Files - Records of three generations

A record file has one of three formats: `CFR2` with the key, `CFR1` without it, and JSON.
`decodeFileRecord` tells them apart by their first bytes.  Here the slices that it takes are
checked as Go checks them, so a missing result stands for a panic.

Main results:

- Theorem `decodeFileRecordChecked_eq`: no slice is out of range, for any bytes.
- Theorem `fileRecord_round_trip`: what the decoder makes of each of the three formats.
-/

namespace GoforjCache
namespace File

open Foundation

/-! ## Slices -/

/-- The slice expression `data[lo:hi]`; `none` is the panic of an index out of range. -/
def slice (data : Bytes) (lo hi : Int) : Option Bytes :=
  if 0 ≤ lo ∧ lo ≤ hi ∧ hi ≤ data.length then some ((data.take hi.toNat).drop lo.toNat) else none

/-- `binary.BigEndian.Uint64`, which panics on fewer than eight bytes. -/
def uint64Checked (data : Bytes) : Option UInt64 :=
  if 8 ≤ data.length then some (BigEndian.uint64 (data.take 8)) else none

/-- `binary.BigEndian.Uint32`, which panics on fewer than four bytes. -/
def uint32Checked (data : Bytes) : Option UInt32 :=
  if 4 ≤ data.length then some (BigEndian.uint32 (data.take 4)) else none

/-- The test for a format: enough bytes, and its magic number in front. -/
def hasMagic (data magic : Bytes) (least : Nat) : Option Bool :=
  if least ≤ data.length then (slice data 0 4).map fun start => decide (start = magic)
  else some false

/-- `decodeFileRecord` with checked slices. -/
def decodeFileRecordChecked (unmarshal : Bytes → Option FileRecord) (data : Bytes) :
    Option (Except CacheError FileRecord) := do
  if ← hasMagic data fileRecordMagicV2 16 then
    let expiresAt ← uint64Checked (← slice data 4 12)
    let keyLen : Int := (← uint32Checked (← slice data 12 16)).toNat
    let offset : Int := 16
    if keyLen < 0 ∨ keyLen > data.length - offset then
      return .error .invalidFileRecord
    else
      let key ← slice data offset (offset + keyLen)
      let value ← slice data (offset + keyLen) data.length
      return .ok ⟨key, expiresAt.toInt64, value⟩
  else if ← hasMagic data fileRecordMagic 12 then
    let expiresAt ← uint64Checked (← slice data 4 12)
    let value ← slice data 12 data.length
    return .ok ⟨[], expiresAt.toInt64, value⟩
  else
    match unmarshal data with
    | some record => return .ok record
    | none => return .error .fileRecordJSON

theorem slice_natCast (data : Bytes) {lo hi : Nat} (hle : lo ≤ hi) (hhi : hi ≤ data.length) :
    slice data lo hi = some ((data.drop lo).take (hi - lo)) := by
  rw [slice, if_pos (by omega), Int.toNat_natCast, Int.toNat_natCast, List.drop_take]

/-- The test for a format does not panic. -/
theorem hasMagic_eq (data : Bytes) {magic : Bytes} {least : Nat} (hleast : 4 ≤ least) :
    hasMagic data magic least = some (decide (least ≤ data.length ∧ data.take 4 = magic)) := by
  unfold hasMagic
  split
  · rename_i hlength
    have hslice : slice data 0 4 = some (data.take 4) :=
      slice_natCast data (Nat.zero_le 4) (hleast.trans hlength)
    simp [hslice, hlength]
  · rename_i hshort
    simp [hshort]

variable {data : Bytes}

/-- The expiration of a binary record. -/
theorem expiresAt_checked (h : 12 ≤ data.length) :
    (slice data 4 12).bind uint64Checked = some (BigEndian.uint64 ((data.drop 4).take 8)) := by
  have hslice : slice data 4 12 = some ((data.drop 4).take 8) := slice_natCast data (by decide) h
  have hlength : ((data.drop 4).take 8).length = 8 := by
    rw [List.length_take, List.length_drop]
    omega
  rw [hslice, Option.bind_some, uint64Checked, if_pos hlength.ge, List.take_take, Nat.min_self]

/-- The length of the key of a binary record. -/
theorem keyLen_checked (h : 16 ≤ data.length) :
    (slice data 12 16).bind uint32Checked = some (BigEndian.uint32 ((data.drop 12).take 4)) := by
  have hslice : slice data 12 16 = some ((data.drop 12).take 4) := slice_natCast data (by decide) h
  have hlength : ((data.drop 12).take 4).length = 4 := by
    rw [List.length_take, List.length_drop]
    omega
  rw [hslice, Option.bind_some, uint32Checked, if_pos hlength.ge, List.take_take, Nat.min_self]

/-- What is left of the bytes from a position on. -/
theorem slice_rest (data : Bytes) {lo : Nat} (h : lo ≤ data.length) :
    slice data lo data.length = some (data.drop lo) := by
  rw [slice_natCast data h le_rfl, ← List.length_drop, List.take_length]

/-- No slice of the decoder is out of range, whatever the bytes are. -/
theorem decodeFileRecordChecked_eq (unmarshal : Bytes → Option FileRecord) (data : Bytes) :
    decodeFileRecordChecked unmarshal data = some (decodeFileRecord unmarshal data) := by
  unfold decodeFileRecordChecked decodeFileRecord
  simp only [Option.bind_eq_bind, Option.pure_def, hasMagic_eq data (by decide : 4 ≤ 16),
    hasMagic_eq data (by decide : 4 ≤ 12), Option.bind_some, decide_eq_true_eq,
    ← Option.bind_assoc]
  split
  · rename_i hbinary
    rw [expiresAt_checked (by omega), Option.bind_some, keyLen_checked hbinary.1, Option.bind_some]
    generalize (BigEndian.uint32 ((data.drop 12).take 4)).toNat = keyLen
    by_cases hlong : keyLen > data.length - 16
    · rw [if_pos (by omega), if_pos hlong]
    · have hkey : slice data (16 : Nat) (16 + keyLen : Nat) =
          some ((data.drop 16).take (16 + keyLen - 16)) :=
        slice_natCast data (Nat.le_add_right 16 keyLen) (by omega)
      have hvalue : slice data (16 + keyLen : Nat) data.length = some (data.drop (16 + keyLen)) :=
        slice_rest data (by omega)
      push_cast at hkey hvalue
      rw [if_neg (by omega), if_neg hlong, hkey, hvalue, Nat.add_sub_cancel_left]
      rfl
  · split
    · rename_i hbinary
      have hvalue : slice data 12 data.length = some (data.drop 12) := slice_rest data hbinary.1
      rw [expiresAt_checked hbinary.1, hvalue]
      rfl
    · cases unmarshal data <;> rfl

/-! ## The three formats -/

/-- A record of the first binary format. -/
def recordV1 (expiresAt : Int64) (value : Bytes) : Bytes :=
  fileRecordMagic ++ BigEndian.putUint64 expiresAt.toUInt64 ++ value

/-- A record of the first binary format has no key. -/
theorem decodeFileRecord_recordV1 (unmarshal : Bytes → Option FileRecord) (expiresAt : Int64)
    (value : Bytes) :
    decodeFileRecord unmarshal (recordV1 expiresAt value) = .ok ⟨[], expiresAt, value⟩ := by
  have hmagic : fileRecordMagic.length = 4 := rfl
  have hdata : recordV1 expiresAt value =
      fileRecordMagic ++ (BigEndian.putUint64 expiresAt.toUInt64 ++ value) := by
    simp [recordV1]
  have htake : (recordV1 expiresAt value).take 4 = fileRecordMagic := by
    rw [hdata, List.take_left' hmagic]
  have hdrop4 : (recordV1 expiresAt value).drop 4 =
      BigEndian.putUint64 expiresAt.toUInt64 ++ value := by
    rw [hdata, List.drop_left' hmagic]
  have hdrop12 : (recordV1 expiresAt value).drop 12 = value := by
    have hsplit : 12 = 4 + 8 := rfl
    rw [hsplit, ← List.drop_drop, hdrop4, List.drop_left' (BigEndian.length_putUint64 _)]
  have hlength : 12 ≤ (recordV1 expiresAt value).length := by
    simp only [recordV1, List.length_append, hmagic, BigEndian.length_putUint64]
    omega
  have hother : fileRecordMagic ≠ fileRecordMagicV2 := by decide
  rw [decodeFileRecord, if_neg (fun h => hother (htake.symm.trans h.2)), if_pos ⟨hlength, htake⟩,
    hdrop4, hdrop12, List.take_left' (BigEndian.length_putUint64 _), BigEndian.uint64_putUint64]
  rfl

/-- Bytes that begin with an opening brace are not taken for a binary record. -/
theorem decodeFileRecord_json (unmarshal : Bytes → Option FileRecord) (h : data.head? = some 123) :
    decodeFileRecord unmarshal data = (unmarshal data).elim (.error .fileRecordJSON) Except.ok := by
  have hmagic : ∀ magic : Bytes, magic.head? = some 67 → data.take 4 ≠ magic := by
    rintro magic hhead rfl
    cases data with
    | nil => cases h
    | cons b data =>
      cases h
      cases hhead
  rw [decodeFileRecord, if_neg (fun hb => hmagic _ rfl hb.2), if_neg (fun hb => hmagic _ rfl hb.2)]
  cases unmarshal data <;> rfl

/-- The parts of a record of the second binary format make up its bytes. -/
theorem length_of_decodeFileRecord {unmarshal : Bytes → Option FileRecord}
    (hlength : 16 ≤ data.length) (hmagic : data.take 4 = fileRecordMagicV2) {record : FileRecord}
    (h : decodeFileRecord unmarshal data = .ok record) :
    16 + record.key.length + record.value.length = data.length := by
  rw [decodeFileRecord, if_pos ⟨hlength, hmagic⟩] at h
  dsimp only at h
  split at h
  · cases h
  · rename_i hfits
    cases h
    simp only [List.length_take, List.length_drop]
    omega

/--
File records round trip across the formats, for any unmarshalling of JSON.

- What `set` writes for a key shorter than `2 ^ 32` bytes decodes to the key, the
  expiration and the value; so does the same record with any expiration.
- A record of the first binary format decodes to its expiration and its value, without a key.
- Bytes that begin with an opening brace go to the unmarshalling of JSON.
- The decoder gives a result or an error for all bytes; none of its slices is out of range.
- When it takes the bytes for the second binary format and succeeds, the header, the key and the
  value together are as long as the bytes.
-/
theorem fileRecord_round_trip (cfg : Config) :
    (∀ key : Key, key.length < 2 ^ 32 → ∀ expiresAt value,
      decodeFileRecord cfg.unmarshal (recordHeader key expiresAt ++ value) =
        .ok ⟨key, expiresAt, value⟩) ∧
    (∀ key : Key, key.length < 2 ^ 32 → ∀ now random dir value ttl,
      dir.lookup (tempName random) = none →
        ∃ data, (set cfg now random dir key value ttl).lookup (path cfg key) = some (.file data) ∧
          decodeFileRecord cfg.unmarshal data =
            .ok ⟨key, unixNano (now + (cfg.defaultTTL.resolve ttl).toInt), value⟩) ∧
    (∀ expiresAt value,
      decodeFileRecord cfg.unmarshal (recordV1 expiresAt value) = .ok ⟨[], expiresAt, value⟩) ∧
    (∀ data : Bytes, data.head? = some 123 →
      decodeFileRecord cfg.unmarshal data =
        (cfg.unmarshal data).elim (.error .fileRecordJSON) Except.ok) ∧
    (∀ data, decodeFileRecordChecked cfg.unmarshal data =
      some (decodeFileRecord cfg.unmarshal data)) ∧
    ∀ (data : Bytes) (record : FileRecord), 16 ≤ data.length → data.take 4 = fileRecordMagicV2 →
      decodeFileRecord cfg.unmarshal data = .ok record →
        16 + record.key.length + record.value.length = data.length := by
  refine ⟨fun key hkey expiresAt value => ?_, fun key hkey now random dir value ttl hfresh => ?_,
    decodeFileRecord_recordV1 cfg.unmarshal, fun data hbrace => ?_,
    decodeFileRecordChecked_eq cfg.unmarshal, fun data record hlength hmagic h => ?_⟩
  · exact decodeFileRecord_encode_of_lt cfg.unmarshal hkey expiresAt value
  · refine ⟨_, ?_, decodeFileRecord_encode_of_lt cfg.unmarshal hkey _ value⟩
    rw [set_lookup cfg now key value ttl hfresh, if_pos rfl]
  · exact decodeFileRecord_json cfg.unmarshal hbrace
  · exact length_of_decodeFileRecord hlength hmagic h

/-- A store that reads no JSON. -/
def binaryConfig : Config :=
  ⟨⟨fun _ => List.replicate 32 0, fun _ => List.length_replicate⟩, fun _ => none, .normalize 0⟩

/-- One record of each binary format. -/
theorem fileRecord_round_trip_sample :
    decodeFileRecord binaryConfig.unmarshal (recordHeader (ascii "k") 7 ++ ascii "v") =
        .ok ⟨ascii "k", 7, ascii "v"⟩ ∧
      decodeFileRecord binaryConfig.unmarshal (recordV1 7 (ascii "v")) = .ok ⟨[], 7, ascii "v"⟩ :=
  ⟨(fileRecord_round_trip binaryConfig).1 (ascii "k") (by decide) 7 (ascii "v"),
    (fileRecord_round_trip binaryConfig).2.2.1 7 (ascii "v")⟩

end File
end GoforjCache
