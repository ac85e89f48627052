import GoforjCache.Core.Types
import GoforjCache.Foundation.ByteCodec

/-!
# NATS - The value envelope

A bucket without a lifetime of its own stores values in envelopes that carry their expiration
in milliseconds.  Values without an envelope and the older JSON envelopes are still read.

Main results:

- Theorem `decodeEnvelope_encode`: an envelope decodes to what was encoded.
- Theorem `not_expired_within`: an envelope is not expired at any instant up to its
  expiration, even when the 64-bit timestamps wrap.
-/

namespace GoforjCache
namespace Nats

open Foundation

/-- The milliseconds of an instant, without wrapping. -/
def millis (now : Instant) : Int := now / 1000000

/-- `UnixMilli`. -/
def unixMilli (now : Instant) : Int64 := Int64.ofInt (millis now)

/-- `UnixMilli` of an instant whose milliseconds are a 64-bit number. -/
theorem toInt_unixMilli {t : Instant} (hlo : -2 ^ 63 ≤ millis t) (hhi : millis t < 2 ^ 63) :
    (unixMilli t).toInt = millis t :=
  Int64.toInt_ofInt_of_le hlo hhi

/-- `natsEnvelopeMagic`. -/
def natsEnvelopeMagic : Bytes := ascii "NCV1"

/-- `natsEnvelopeMarker`. -/
def natsEnvelopeMarker : Bytes := ascii "cache-v1"

/-- `envelope`. -/
structure Envelope where
  marker : Bytes
  value : Bytes
  expiresAt : Int64
deriving DecidableEq

/-- The condition under which the code takes an envelope for expired. -/
def Envelope.expired (env : Envelope) (now : Instant) : Bool :=
  decide (0 < env.expiresAt) && decide (env.expiresAt < unixMilli now)

/-- `encodeEnvelope` at an instant. -/
def encodeEnvelope (d : DefaultTTL) (now : Instant) (value : Bytes) (ttl : Duration) : Bytes :=
  natsEnvelopeMagic ++
    BigEndian.putUint64 (unixMilli (now + (d.resolve ttl).toInt)).toUInt64 ++ value

/-- `decodeEnvelope`, over `json.Unmarshal` into an `envelope`.  The result
`none` says that the value has no envelope. -/
def decodeEnvelope (unmarshal : Bytes → Option Envelope) (body : Bytes) :
    Except CacheError (Option Envelope) :=
  if 12 ≤ body.length ∧ body.take 4 = natsEnvelopeMagic then
    .ok (some ⟨natsEnvelopeMarker, body.drop 12, (BigEndian.uint64 ((body.drop 4).take 8)).toInt64⟩)
  else
    match body with
    | 0x7b :: _ =>
      match unmarshal body with
      | none => .error .natsEnvelope
      | some env => if env.marker ≠ natsEnvelopeMarker then .ok none else .ok (some env)
    | _ => .ok none

/-- An envelope decodes to what was encoded. -/
theorem decodeEnvelope_encode (unmarshal : Bytes → Option Envelope) (d : DefaultTTL)
    (now : Instant) (value : Bytes) (ttl : Duration) :
    decodeEnvelope unmarshal (encodeEnvelope d now value ttl) =
      .ok (some ⟨natsEnvelopeMarker, value, unixMilli (now + (d.resolve ttl).toInt)⟩) := by
  have hmagic : natsEnvelopeMagic.length = 4 := rfl
  have hbody : encodeEnvelope d now value ttl = natsEnvelopeMagic ++
      (BigEndian.putUint64 (unixMilli (now + (d.resolve ttl).toInt)).toUInt64 ++ value) := by
    rw [encodeEnvelope, List.append_assoc]
  have hlength : (encodeEnvelope d now value ttl).length = 12 + value.length := by
    rw [hbody, List.length_append, List.length_append, BigEndian.length_putUint64, hmagic]
    omega
  have htake : (encodeEnvelope d now value ttl).take 4 = natsEnvelopeMagic := by
    rw [hbody, List.take_left' hmagic]
  have hdrop4 : (encodeEnvelope d now value ttl).drop 4 =
      BigEndian.putUint64 (unixMilli (now + (d.resolve ttl).toInt)).toUInt64 ++ value := by
    rw [hbody, List.drop_left' hmagic]
  have hdrop12 : (encodeEnvelope d now value ttl).drop 12 = value := by
    have hsplit : 12 = 4 + 8 := rfl
    rw [hsplit, ← List.drop_drop, hdrop4, List.drop_left' (BigEndian.length_putUint64 _)]
  unfold decodeEnvelope
  rw [if_pos ⟨by omega, htake⟩, hdrop12, hdrop4,
    List.take_left' (BigEndian.length_putUint64 _), BigEndian.uint64_putUint64]
  rfl

/-- An envelope made at `t` is not expired at any later instant up to its expiration.
When the written timestamp wraps it is not positive, and the code takes it for one that never
expires. -/
theorem not_expired_within {t now : Instant} {lifetime : Int64} (hlo : t ≤ now)
    (hhi : millis now ≤ millis (t + lifetime.toInt)) (marker value : Bytes) :
    (Envelope.mk marker value (unixMilli (t + lifetime.toInt))).expired now = false := by
  have hmax := lifetime.toInt_lt
  simp only [Envelope.expired, unixMilli, millis, Int64.lt_iff_toInt_lt, Int64.toInt_ofInt,
    Int64.toInt_zero, Bool.and_eq_false_iff, decide_eq_false_iff_not] at *
  simp only [Int.bmod, Int64.size]
  unfold Instant at *
  omega

end Nats
end GoforjCache
