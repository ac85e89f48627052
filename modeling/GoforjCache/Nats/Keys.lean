import GoforjCache.Core.Types
import GoforjCache.Foundation.Base64
import GoforjCache.Foundation.Words

/-!
# NATS - Keys of the bucket

A JetStream key is a subject, so the NATS store encodes the prefix and the key in URL-safe base64
and joins them with dots.  The empty key has a text of its own.

Main results:

- Theorem `decodeCacheKey_encodeKeyPart`: the text of a key is decoded to it.
- Theorem `cacheKey_inj`: bucket keys of different prefixes or keys differ.
- Theorem `scope_cacheKey_iff`: a bucket key begins with the scope of its own prefix only.
-/

namespace GoforjCache
namespace Nats

open Foundation

/-- `encodeKeyPart`. -/
def encodeKeyPart (part : Bytes) : Bytes :=
  if part = [] then ascii "_" else Base64.encode part

/-- `decodeCacheKey`; `none` is an error. -/
def decodeCacheKey (part : Bytes) : Option Key :=
  if part = ascii "_" then some [] else Base64.decode part

/-- `scopePrefixStr`. -/
def scopePrefix (p : Bytes) : Bytes := ascii "p." ++ encodeKeyPart p ++ ascii ".k."

/-- `cacheKey` of a store with a prefix. -/
def cacheKey (p : Bytes) (key : Key) : Key := scopePrefix p ++ encodeKeyPart key

/-- The text of a key is decoded to it.  The text of a key that is not empty is longer than that of
the empty one. -/
theorem decodeCacheKey_encodeKeyPart (key : Key) :
    decodeCacheKey (encodeKeyPart key) = some key := by
  unfold encodeKeyPart
  split
  · rename_i hempty
    rw [hempty, decodeCacheKey, if_pos rfl]
  · rename_i hkey
    have hlength := Base64.two_le_length_encode hkey
    have hne : Base64.encode key ≠ ascii "_" := by
      intro heq
      rw [heq] at hlength
      exact absurd hlength (by decide)
    rw [decodeCacheKey, if_neg hne, Base64.decode_encode]

theorem encodeKeyPart_injective : Function.Injective encodeKeyPart := by
  intro a b h
  have hdecode := congrArg decodeCacheKey h
  rw [decodeCacheKey_encodeKeyPart, decodeCacheKey_encodeKeyPart] at hdecode
  exact Option.some.inj hdecode

theorem dot_notMem_encodeKeyPart (part : Bytes) : 46 ∉ encodeKeyPart part := by
  unfold encodeKeyPart
  split
  · decide
  · intro hdot
    exact absurd (Base64.mem_encode hdot) (by decide)

/-- What follows the first part of a bucket key. -/
theorem scopePrefix_append (p t : Bytes) :
    scopePrefix p ++ t = ascii "p." ++ (encodeKeyPart p ++ 46 :: (ascii "k." ++ t)) := by
  simp only [scopePrefix, List.append_assoc]
  rfl

/-- Texts that begin with a scope name its prefix. -/
theorem scopePrefix_append_inj {p q s t : Bytes} (h : scopePrefix p ++ s = scopePrefix q ++ t) :
    p = q ∧ s = t := by
  rw [scopePrefix_append, scopePrefix_append] at h
  obtain ⟨hpart, hrest⟩ := Words.append_cons_inj_of_notMem_left (dot_notMem_encodeKeyPart p)
    (dot_notMem_encodeKeyPart q) (List.append_cancel_left h)
  exact ⟨encodeKeyPart_injective hpart, List.append_cancel_left hrest⟩

/-- Bucket keys of different prefixes or keys differ. -/
theorem cacheKey_inj {p q : Bytes} {k l : Key} : cacheKey p k = cacheKey q l ↔ p = q ∧ k = l := by
  constructor
  · intro h
    obtain ⟨hsame, hkey⟩ := scopePrefix_append_inj h
    exact ⟨hsame, encodeKeyPart_injective hkey⟩
  · rintro ⟨rfl, rfl⟩
    rfl

theorem cacheKey_injective (p : Bytes) : Function.Injective (cacheKey p) :=
  fun _ _ h => (cacheKey_inj.mp h).2

/-- A bucket key begins with the scope of its own prefix only. -/
theorem scope_cacheKey_iff {p q : Bytes} {l : Key} : scopePrefix p <+: cacheKey q l ↔ p = q := by
  constructor
  · rintro ⟨t, ht⟩
    exact (scopePrefix_append_inj ht).1
  · rintro rfl
    exact List.prefix_append _ _

theorem drop_scope_cacheKey (p : Bytes) (l : Key) :
    (cacheKey p l).drop (scopePrefix p).length = encodeKeyPart l :=
  List.drop_left

end Nats
end GoforjCache
