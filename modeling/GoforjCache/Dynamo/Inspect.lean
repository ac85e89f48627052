import GoforjCache.Core.Inspect
import GoforjCache.Dynamo.Store

/-!
# DynamoDB - Inspection

`ListPage` of the DynamoDB store reads the whole table with `Scan`, skips the expired
items, takes the prefix off the keys that have it, and keeps the keys of other stores as they are.
The entries are filtered, sorted and cut into pages.

Main results:

- Theorem `Inspection.keptKeys_perm_iff`: a call collects the keys to be listed if and only if
  the filter keeps no live item of another store.
- Theorem `Inspection.lists_iff`: the same for what the pages list.
-/

namespace GoforjCache
namespace Dynamo

open Foundation Foundation.Paging Inspect

/-! ## The operation -/

/-- The errors of `ListPage`. -/
inductive ListError where
  | service (err : CacheError)
  | cursor (err : InvalidCursor)
deriving DecidableEq

/-- The items of all pages of a `Scan`, unless one of them fails. -/
def scanAll : List (Except CacheError (List (Key × Attributes))) →
    Except CacheError (List (Key × Attributes))
  | [] => .ok []
  | .error err :: _ => .error err
  | .ok items :: pages => (scanAll pages).map (items ++ ·)

/-- The entry of an item: the key as `Flush` takes it. -/
def entryOf (cfg : Config) (r : Key × Attributes) : CacheEntry where
  key := flushKey cfg r.1
  sizeBytes := (r.2.v.map List.length).getD 0
  expiresAt := r.2.ea

/-- The loop over the items. -/
def collect (cfg : Config) (now : Instant) (items : List (Key × Attributes)) : List CacheEntry :=
  (items.filter fun r => !r.2.expired now).map (entryOf cfg)

/-- `dynamoStore.ListPage`, with the pages of the `Scan` that it runs. -/
def listPage (S : KeySort) (pages : List (Except CacheError (List (Key × Attributes))))
    (cfg : Config) (now : Instant) (opts : ListPageOptions) : Except ListError ListPageResult :=
  match scanAll pages with
  | .error err => .error (.service err)
  | .ok items =>
    match decodeOffsetCursor opts.cursor with
    | .error err => .error (.cursor err)
    | .ok offset =>
      .ok (sliceEntries (filterAndSortEntries S (collect cfg now items) (listFilterTerm opts))
        offset opts.limit)

/-! ## Keys of the store -/

/-- The key that is taken from an item of the store. -/
theorem flushKey_own (cfg : Config) (key : Key) : flushKey cfg (cacheKey cfg key) = key := by
  by_cases hscope : cfg.keyPrefix = []
  · rw [cacheKey, if_pos hscope, flushKey, if_neg fun h => h.1 hscope]
  · have hfull : cacheKey cfg key = (cfg.keyPrefix ++ ascii ":") ++ key := by
      rw [cacheKey, if_neg hscope]
    rw [hfull, flushKey, if_pos ⟨hscope, List.isPrefixOf_iff_prefix.mpr (List.prefix_append _ _)⟩,
      List.drop_left]

/-- The key of an item is one of the store, or stays as it is. -/
theorem own_or_foreign (cfg : Config) (k : Key) :
    k = cacheKey cfg (flushKey cfg k) ∨ (flushKey cfg k = k ∧ ∀ key, k ≠ cacheKey cfg key) := by
  by_cases hown : ∃ key, k = cacheKey cfg key
  · left
    rcases hown with ⟨key, rfl⟩
    rw [flushKey_own]
  · right
    refine ⟨?_, fun key heq => hown ⟨key, heq⟩⟩
    unfold flushKey
    split
    · rename_i h
      rcases List.isPrefixOf_iff_prefix.mp h.2 with ⟨key, hkey⟩
      refine absurd ⟨key, ?_⟩ hown
      rw [cacheKey, if_neg h.1, hkey]
    · rfl

/-! ## Following the cursors -/

/-- What a client meets that follows the cursors: in every call a full `Scan` of one table,
split into pages and ordered as the service likes. -/
structure Inspection where
  sort : Nat → KeySort
  table : Table
  pages : Nat → List (Except CacheError (List (Key × Attributes)))
  items : Nat → List (Key × Attributes)
  scanned : ∀ i, scanAll (pages i) = .ok (items i)
  distinct : ∀ i, ((items i).map Prod.fst).Nodup
  complete : ∀ i k item, (k, item) ∈ items i ↔ table k = some item
  short : ∀ i, (items i).length < 2 ^ 62

section Following

variable (I : Inspection) (cfg : Config) (now : Instant) (opts : ListPageOptions)

/-- The page of a call. -/
def Inspection.page (i : Nat) (cursor : Bytes) : Except ListError ListPageResult :=
  listPage (I.sort i) (I.pages i) cfg now { opts with cursor }

/-- The item of a key exists and has not expired. -/
def Inspection.live (k : Key) : Bool := (I.table k).any fun item => !item.expired now

/-- The key is live, and the filter keeps it. -/
def Inspection.wanted (key : Key) : Bool :=
  keeps (listFilterTerm opts) key && I.live now (cacheKey cfg key)

/-- A live item of another store whose whole key the filter keeps. -/
def Inspection.Foreign : Prop :=
  ∃ k, I.live now k = true ∧ (∀ key, k ≠ cacheKey cfg key) ∧ keeps (listFilterTerm opts) k = true

theorem Inspection.page_eq (i : Nat) (cursor : Bytes) (offset : Nat)
    (hcursor : decodeOffsetCursor cursor = .ok offset) :
    I.page cfg now opts i cursor = .ok (sliceEntries (filterAndSortEntries (I.sort i)
      (collect cfg now (I.items i)) (listFilterTerm opts)) offset opts.limit) := by
  unfold Inspection.page listPage
  rw [I.scanned i]
  dsimp only
  rw [hcursor]
  rfl

/-- The items whose entries a call keeps. -/
def Inspection.kept (i : Nat) : List (Key × Attributes) :=
  (I.items i).filter fun r => keeps (listFilterTerm opts) (flushKey cfg r.1) && !r.2.expired now

theorem Inspection.keptKeys_eq (i : Nat) :
    keptKeys (listFilterTerm opts) (collect cfg now (I.items i)) =
      (I.kept cfg now opts i).map fun r => flushKey cfg r.1 := by
  rw [keptKeys, collect, List.filter_map, List.filter_filter, List.map_map]
  rfl

variable {I cfg now opts}

/-- The kept items are the live ones whose key the filter keeps. -/
theorem Inspection.mem_kept {i : Nat} {k : Key} :
    (∃ item, (k, item) ∈ I.kept cfg now opts i) ↔
      I.live now k = true ∧ keeps (listFilterTerm opts) (flushKey cfg k) = true := by
  unfold Inspection.kept Inspection.live
  constructor
  · rintro ⟨item, hitem⟩
    rcases List.mem_filter.mp hitem with ⟨hmem, htest⟩
    rcases Bool.and_eq_true_iff.mp htest with ⟨hkeeps, hexpired⟩
    rw [(I.complete i k item).mp hmem]
    exact ⟨hexpired, hkeeps⟩
  · rintro ⟨hlive, hkeeps⟩
    rcases (Option.any_eq_true _ _).mp hlive with ⟨item, hitem, hexpired⟩
    exact ⟨item, List.mem_filter.mpr
      ⟨(I.complete i k item).mpr hitem, Bool.and_eq_true_iff.mpr ⟨hkeeps, hexpired⟩⟩⟩

/-- A call collects the keys to be listed if and only if the filter keeps no live item of another
store. -/
theorem Inspection.keptKeys_perm_iff {keys : List Key} (hnodup : keys.Nodup)
    (hkeys : ∀ key, key ∈ keys ↔ I.wanted cfg now opts key = true) (i : Nat) :
    (keptKeys (listFilterTerm opts) (collect cfg now (I.items i))).Perm keys ↔
      ¬I.Foreign cfg now opts := by
  rw [I.keptKeys_eq]
  constructor
  · rintro hperm ⟨k, hlive, hforeign, hkeeps⟩
    -- the key is listed for the item of the other store, and once more for that of the store
    have hsame : flushKey cfg k = k := by
      rcases own_or_foreign cfg k with hown | hother
      · exact absurd hown (hforeign _)
      · exact hother.1
    rcases I.mem_kept.mpr ⟨hlive, by rw [hsame]; exact hkeeps⟩ with ⟨item, hitem⟩
    have hlisted : k ∈ keys := by
      rw [← hperm.mem_iff]
      exact List.mem_map.mpr ⟨_, hitem, hsame⟩
    have howned : keeps (listFilterTerm opts) (flushKey cfg (cacheKey cfg k)) = true := by
      rw [flushKey_own]
      exact hkeeps
    rcases I.mem_kept.mpr ⟨(Bool.and_eq_true_iff.mp ((hkeys k).mp hlisted)).2, howned⟩ with
      ⟨item', hitem'⟩
    have heq := List.inj_on_of_nodup_map (hperm.nodup_iff.mpr hnodup) hitem hitem'
      (by dsimp only; rw [hsame, flushKey_own])
    exact hforeign k (congrArg Prod.fst heq)
  · intro hnone
    have hown : ∀ r ∈ I.kept cfg now opts i, r.1 = cacheKey cfg (flushKey cfg r.1) := by
      intro r hr
      rcases own_or_foreign cfg r.1 with hown | ⟨hsame, hforeign⟩
      · exact hown
      · rcases I.mem_kept.mp ⟨r.2, hr⟩ with ⟨hlive, hkeeps⟩
        rw [hsame] at hkeeps
        exact absurd ⟨r.1, hlive, hforeign, hkeeps⟩ hnone
    have hdistinct : ((I.kept cfg now opts i).map fun r => flushKey cfg r.1).Nodup := by
      refine List.Nodup.map_on (fun x hx y hy heq => ?_) ((I.distinct i).of_map _ |>.filter _)
      have hfull : x.1 = y.1 := by
        rw [hown x hx, hown y hy, heq]
      exact List.inj_on_of_nodup_map (I.distinct i) (List.mem_of_mem_filter hx)
        (List.mem_of_mem_filter hy) hfull
    refine (List.perm_ext_iff_of_nodup hdistinct hnodup).mpr fun key => ?_
    rw [hkeys, List.mem_map]
    constructor
    · rintro ⟨r, hr, rfl⟩
      rcases I.mem_kept.mp ⟨r.2, hr⟩ with ⟨hlive, hkeeps⟩
      rw [hown r hr] at hlive
      exact Bool.and_eq_true_iff.mpr ⟨hkeeps, hlive⟩
    · intro hwanted
      rcases Bool.and_eq_true_iff.mp hwanted with ⟨hkeeps, hlive⟩
      rcases I.mem_kept.mpr ⟨hlive, by rw [flushKey_own]; exact hkeeps⟩ with ⟨item, hitem⟩
      exact ⟨_, hitem, flushKey_own cfg key⟩

/-- The pages list each live key of the store that contains the term once, and nothing else, if and
only if the filter keeps no live item of another store. -/
theorem Inspection.lists_iff {keys : List Key} (hnodup : keys.Nodup)
    (hkeys : ∀ key, key ∈ keys ↔ I.wanted cfg now opts key = true) :
    ListsKeys (I.page cfg now opts) keys ↔ ¬I.Foreign cfg now opts := by
  rw [← I.keptKeys_perm_iff hnodup hkeys 0]
  refine listsKeys_iff (I.page_eq cfg now opts) ?_ (fun i => ?_) keys
  · rw [collect, List.length_map]
    exact (List.length_filter_le _ _).trans_lt (I.short 0)
  · -- two scans of one table have the same items
    have hitems : (I.items i).Perm (I.items 0) :=
      (List.perm_ext_iff_of_nodup ((I.distinct i).of_map _) ((I.distinct 0).of_map _)).mpr
        fun r => (I.complete i r.1 r.2).trans (I.complete 0 r.1 r.2).symm
    rw [I.keptKeys_eq, I.keptKeys_eq]
    exact (hitems.filter _).map _

end Following

end Dynamo
end GoforjCache
