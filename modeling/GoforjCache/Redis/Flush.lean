import GoforjCache.Foundation.Glob
import GoforjCache.Redis.Store

/-!
# Redis - Flush and the pattern of its prefix

`Flush` iterates with `SCAN` over the keys that match `prefix:*` and deletes each
page of them.  A full iteration lists only keys that match, and every matching key that exists
throughout; it may list keys more than once and split them into pages in any way.  The prefix is
part of the pattern, so its bytes `*`, `?`, `[` and backslash are read as parts of a
pattern.

Main results:

- Theorem `flushPages_apply`: a successful iteration deletes the listed keys.
- Theorem `flush_exact_iff`: a successful `Flush` always deletes exactly the keys of the
  store if and only if the prefix has none of the four bytes.
- Theorem `flush_pattern_misses`: the store with the prefix `[ab]` keeps its own key and
  deletes a key of the store with the prefix `a`.
-/

namespace GoforjCache
namespace Redis

open Foundation

/-! ## The iteration -/

/-- The keys of a page. -/
def Page.listed : Page → List Key
  | .failed _ => []
  | .keys ks _ => ks

/-- The keys of all pages. -/
def listed (pages : List Page) : List Key := pages.flatMap Page.listed

/-- The pages are a full iteration for a pattern.  Nothing but `Flush` changes the keyspace
meanwhile, so an entry that is left at the end existed throughout. -/
structure ScanOf (pattern : Bytes) (now : Instant) (t : Keyspace) (pages : List Page) : Prop where
  sound : ∀ k ∈ listed pages, Glob.globMatch pattern k = true
  complete : ∀ k, Glob.globMatch pattern k = true → (t.find now k).isSome = true →
    ((flushPages pages t).1.find now k).isSome = true → k ∈ listed pages

/-- A successful iteration deletes the listed keys. -/
theorem flushPages_apply {pages : List Page} {t : Keyspace} (h : (flushPages pages t).2 = .ok ())
    (k : Key) : (flushPages pages t).1 k = if k ∈ listed pages then none else t k := by
  induction pages generalizing t with
  | nil => rfl
  | cons page pages ih =>
    cases page with
    | failed code => cases h
    | keys ks refused =>
      by_cases hks : ks = []
      · simp only [flushPages, if_pos hks] at h ⊢
        rw [ih h]
        simp [listed, Page.listed, hks]
      · cases refused with
        | some code => simp [flushPages, hks] at h
        | none =>
          simp only [flushPages, if_neg hks] at h ⊢
          rw [ih h, delCommand]
          by_cases hk : k ∈ ks <;> simp [listed, Page.listed, hk]

/-- The keys of a store. -/
def Owned (cfg : Config) (k : Key) : Prop := ∃ key, cacheKey cfg key = k

theorem owned_iff {cfg : Config} {k : Key} : Owned cfg k ↔ cfg.keyPrefix ++ [58] <+: k := Iff.rfl

/-- The keyspace after a `Flush`: the entries of the store are gone, and all others are as
before. -/
def Exact (cfg : Config) (now : Instant) (t t' : Keyspace) : Prop :=
  ∀ k, (Owned cfg k → t'.find now k = none) ∧ (¬ Owned cfg k → t' k = t k)

/-- Every successful `Flush` of a store with the prefix deletes exactly the keys of the
store. -/
def FlushesExactly (p : Bytes) : Prop :=
  ∀ (svc : Service) (cfg : Config) (now : Instant) (t : Keyspace), cfg.keyPrefix = p →
    ScanOf (cacheKey cfg (ascii "*")) now t svc.pages → (flush svc cfg t).2 = .ok () →
      Exact cfg now t (flush svc cfg t).1

/-! ## The pattern -/

/-- The pattern matches exactly the keys of the store. -/
def PatternExact (cfg : Config) : Prop :=
  ∀ k, Glob.globMatch (cacheKey cfg (ascii "*")) k = true ↔ Owned cfg k

theorem patternExact_iff (cfg : Config) :
    PatternExact cfg ↔ ∀ b ∈ cfg.keyPrefix, ¬ Glob.Special b := by
  have hpattern : cacheKey cfg (ascii "*") = cfg.keyPrefix ++ [58, 42] := by
    rw [cacheKey, List.append_assoc]
    rfl
  rw [PatternExact, hpattern]
  exact Glob.matches_own_iff cfg.keyPrefix (by decide)

/-- An exact pattern lists every entry of the store and no other one. -/
theorem exact_of_scan {pages : List Page} {cfg : Config} {now : Instant} {t : Keyspace}
    (hpattern : PatternExact cfg) (hscan : ScanOf (cacheKey cfg (ascii "*")) now t pages)
    (hok : (flushPages pages t).2 = .ok ()) : Exact cfg now t (flushPages pages t).1 := by
  intro k
  constructor
  · intro howned
    by_contra hleft
    have hafter : ((flushPages pages t).1.find now k).isSome = true := by
      rwa [Option.isSome_iff_ne_none]
    have hnot : k ∉ listed pages := by
      intro hlisted
      rw [Keyspace.find, flushPages_apply hok, if_pos hlisted] at hafter
      cases hafter
    have hbefore : (t.find now k).isSome = true := by
      rwa [Keyspace.find, flushPages_apply hok, if_neg hnot] at hafter
    exact hnot (hscan.complete k ((hpattern k).mpr howned) hbefore hafter)
  · intro hforeign
    have hnot : k ∉ listed pages :=
      fun hlisted => hforeign ((hpattern k).mp (hscan.sound k hlisted))
    rw [flushPages_apply hok, if_neg hnot]

/-- A keyspace with one entry that does not expire. -/
def lone (k : Key) : Keyspace := fun k' => if k' = k then some ⟨[], none⟩ else none

theorem find_lone (k k' : Key) (now : Instant) : ((lone k).find now k').isSome = true ↔ k' = k := by
  by_cases h : k' = k <;> simp [Keyspace.find, lone, h, Entry.live, Option.filter]

/-- The iteration that lists one key if it matches. -/
def loneScan (pattern : Bytes) (k : Key) : List Page :=
  [.keys (if Glob.globMatch pattern k then [k] else []) none]

theorem mem_loneScan {pattern : Bytes} {k k' : Key} :
    k' ∈ listed (loneScan pattern k) ↔ Glob.globMatch pattern k = true ∧ k' = k := by
  by_cases h : Glob.globMatch pattern k = true <;> simp [listed, loneScan, Page.listed, h]

theorem scanOf_lone (pattern : Bytes) (k : Key) (now : Instant) :
    ScanOf pattern now (lone k) (loneScan pattern k) where
  sound := by
    intro k' hlisted
    obtain ⟨hmatch, rfl⟩ := mem_loneScan.mp hlisted
    exact hmatch
  complete := by
    intro k' hmatch hfind _
    obtain rfl := (find_lone k k' now).mp hfind
    exact mem_loneScan.mpr ⟨hmatch, rfl⟩

theorem flushPages_lone (pattern : Bytes) (k : Key) (t : Keyspace) :
    (flushPages (loneScan pattern k) t).2 = .ok () := by
  by_cases h : Glob.globMatch pattern k = true <;> simp [flushPages, loneScan, h]

/-- A store that flushes exactly has an exact pattern: a keyspace with one entry tells whether the
pattern matches its key. -/
theorem patternExact_of_flushes {p : Bytes} (h : FlushesExactly p) (ttl : DefaultTTL) :
    PatternExact ⟨.plain, p, ttl⟩ := by
  intro k
  let cfg : Config := ⟨.plain, p, ttl⟩
  let pattern := cacheKey cfg (ascii "*")
  have hok := flushPages_lone pattern k (lone k)
  have hexact := h ⟨fun _ => none, loneScan pattern k⟩ cfg 0 (lone k) rfl
    (scanOf_lone pattern k 0) hok k
  have happly : (flush ⟨fun _ => none, loneScan pattern k⟩ cfg (lone k)).1 k =
      if Glob.globMatch pattern k = true then none else lone k k := by
    refine (flushPages_apply hok k).trans ?_
    simp only [mem_loneScan, and_true]
  constructor
  · intro hmatch
    by_contra hforeign
    have hkept := hexact.2 hforeign
    rw [happly, if_pos hmatch] at hkept
    simp [lone] at hkept
  · intro howned
    by_contra hmatch
    have hgone := hexact.1 howned
    rw [Keyspace.find, happly, if_neg hmatch] at hgone
    simp [lone, Entry.live, Option.filter] at hgone

/-- A successful `Flush` always deletes exactly the keys of the store if and only if no byte of
the prefix has a meaning of its own in a pattern. -/
theorem flush_exact_iff (p : Bytes) : FlushesExactly p ↔ ∀ b ∈ p, ¬ Glob.Special b := by
  constructor
  · intro h
    exact (patternExact_iff _).mp (patternExact_of_flushes h (.normalize 0))
  · intro hplain svc cfg now t hp hscan hok
    cases hclient : cfg.client with
    | missing => simp [flush, Config.withClient, hclient] at hok
    | _ =>
      simp only [flush, Config.withClient, hclient] at hok ⊢
      exact exact_of_scan ((patternExact_iff cfg).mpr (hp ▸ hplain)) hscan hok

/-- The store with the prefix `[ab]`. -/
def setConfig : Config := .new .scripted (ascii "[ab]") 0

/-- A key of that store and a key of the store with the prefix `a`. -/
def mixedKeyspace : Keyspace := fun k =>
  if k = ascii "[ab]:k" ∨ k = ascii "a:k" then some ⟨ascii "v", none⟩ else none

/-- The iteration for the pattern `[ab]:*` over the two keys. -/
def mixedService : Service := ⟨fun _ => none, [.keys [ascii "a:k"] none]⟩

theorem scanOf_mixed :
    ScanOf (cacheKey setConfig (ascii "*")) 0 mixedKeyspace mixedService.pages where
  sound := by decide
  complete := by
    intro k hmatch hfind _
    have hk : k = ascii "[ab]:k" ∨ k = ascii "a:k" := by
      by_contra hk
      simp [Keyspace.find, mixedKeyspace, hk] at hfind
    rcases hk with rfl | rfl
    · exact absurd hmatch (by decide)
    · decide

/-- A successful `Flush` keeps the only key of the store and deletes the key of another one. -/
theorem flush_pattern_misses :
    ScanOf (cacheKey setConfig (ascii "*")) 0 mixedKeyspace mixedService.pages ∧
      (flush mixedService setConfig mixedKeyspace).2 = .ok () ∧
      Owned setConfig (ascii "[ab]:k") ∧ ¬ Owned setConfig (ascii "a:k") ∧
      (flush mixedService setConfig mixedKeyspace).1 (ascii "[ab]:k") = some ⟨ascii "v", none⟩ ∧
      mixedKeyspace (ascii "a:k") = some ⟨ascii "v", none⟩ ∧
      (flush mixedService setConfig mixedKeyspace).1 (ascii "a:k") = none := by
  refine ⟨scanOf_mixed, rfl, ⟨ascii "k", by decide⟩, ?_, by decide, by decide, by decide⟩
  rw [owned_iff]
  decide

end Redis
end GoforjCache
