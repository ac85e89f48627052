import GoforjCache.Core.Types
import GoforjCache.Foundation.Decimal
import GoforjCache.Foundation.Paging
import GoforjCache.Foundation.Words

/-!
# Core - Inspection helpers

The helpers that the drivers share for `ListPage`: the limit and the cursor of a page, the
filter term, the filter and the order of the entries, and their cut into pages.

Main results:

- Theorem `decodeOffsetCursor_encode`: a cursor leads back to its offset.
- Theorem `keys_filterAndSortEntries`: the keys of the sorted entries do not depend on the
  order of equal keys.
- Theorem `lists_sliceEntries`: the pages of `SliceEntries` list the entries, each of them
  once.
- Theorem `offset_paging_enumerates`: following the cursors of the helpers lists the entries
  whose key contains the filter, in the order of their keys.
-/

namespace GoforjCache
namespace Inspect

open Foundation Foundation.Paging Foundation.Decimal

/-! ## Options and cursors -/

/-- `ListPageOptions`.  The field `Prefix` is an older name of `Query`. -/
structure ListPageOptions where
  query : Bytes
  keyPrefix : Bytes
  cursor : Bytes
  limit : Int64

/-- `invalid cache list cursor %q`. -/
structure InvalidCursor where
  cursor : Bytes
deriving DecidableEq

/-- `ListPageResult`. -/
abbrev ListPageResult := Page Bytes CacheEntry

/-- The pages of a client that follows the cursors with the same options otherwise. -/
def walk {α : Type} (page : ListPageOptions → Except InvalidCursor (Page Bytes α))
    (opts : ListPageOptions) : Nat → Bytes → Except InvalidCursor (Page Bytes α) :=
  fun _ cursor => page { opts with cursor }

/-- `NormalizeListLimit`. -/
def normalizeListLimit (limit : Int64) : Nat :=
  if limit ≤ 0 then 100 else if 500 < limit then 500 else limit.toInt.toNat

/-- `DecodeOffsetCursor`. -/
def decodeOffsetCursor (cursor : Bytes) : Except InvalidCursor Nat :=
  let text := Words.trimSpace cursor
  if text = [] then .ok 0
  else
    match parseInt text with
    | none => .error ⟨text⟩
    | some offset => if offset < 0 then .error ⟨text⟩ else .ok offset.toInt.toNat

/-- `EncodeOffsetCursor` of an offset that is not negative. -/
def encodeOffsetCursor (offset : Nat) : Bytes :=
  if offset = 0 then [] else formatNat offset

/-- `ListFilterTerm`. -/
def listFilterTerm (opts : ListPageOptions) : Bytes :=
  let query := Words.trimSpace opts.query
  if query ≠ [] then query else Words.trimSpace opts.keyPrefix

theorem normalizeListLimit_pos (limit : Int64) : 0 < normalizeListLimit limit := by
  unfold normalizeListLimit
  split
  · decide
  · rename_i hpos
    split
    · decide
    · have hint : 0 < limit.toInt := Int64.lt_iff_toInt_lt.mp (Int64.not_le.mp hpos)
      omega

/-- The first page has the empty cursor. -/
theorem decodeOffsetCursor_nil : decodeOffsetCursor [] = .ok 0 := rfl

/-- A cursor leads back to its offset. -/
theorem decodeOffsetCursor_encode {offset : Nat} (h : offset < 2 ^ 63) :
    decodeOffsetCursor (encodeOffsetCursor offset) = .ok offset := by
  unfold encodeOffsetCursor
  split
  · rename_i hzero
    rw [hzero, decodeOffsetCursor_nil]
  · have hprintable : Words.Printable (formatNat offset) := by
      intro b hb
      have hdigit := mem_formatNat hb
      exact ⟨UInt8.le_trans (by decide) hdigit.1, UInt8.lt_of_le_of_lt hdigit.2 (by decide)⟩
    have hint : (Int64.ofInt offset).toInt = offset := Int64.toInt_ofInt_of_le (by omega) (by omega)
    have hnonneg : ¬Int64.ofInt offset < 0 := by
      rw [Int64.lt_iff_toInt_lt, hint, Int64.toInt_zero]
      omega
    unfold decodeOffsetCursor
    dsimp only
    rw [Words.trimSpace_of_printable hprintable, if_neg (formatNat_ne_nil offset),
      parseInt_formatNat h]
    dsimp only
    rw [if_neg hnonneg, hint, Int.toNat_natCast]

/-- The filter term has no white space around it. -/
theorem trimSpace_listFilterTerm (opts : ListPageOptions) :
    Words.trimSpace (listFilterTerm opts) = listFilterTerm opts := by
  unfold listFilterTerm
  dsimp only
  split
  · exact Words.trimSpace_trimSpace _
  · exact Words.trimSpace_trimSpace _

/-! ## Filter and order -/

/-- `strings.TrimPrefix`. -/
def trimPrefix (text start : Bytes) : Bytes :=
  if start.isPrefixOf text then text.drop start.length else text

theorem trimPrefix_append (start text : Bytes) : trimPrefix (start ++ text) start = text := by
  rw [trimPrefix, if_pos (List.isPrefixOf_iff_prefix.mpr (List.prefix_append start text)),
    List.drop_left]

/-- The filter keeps the key. -/
def keeps (filter : Bytes) (key : Key) : Bool := decide (filter = []) || decide (filter <:+: key)

/-- A sorting function for the keys of entries: `sort.Slice` promises no order of entries with
equal keys. -/
structure KeySort where
  sort : List CacheEntry → List CacheEntry
  perm : ∀ entries, (sort entries).Perm entries
  sorted : ∀ entries, (sort entries).Pairwise fun a b => a.key ≤ b.key

/-- Such a function. -/
def mergeKeySort : KeySort where
  sort := fun entries => entries.mergeSort fun a b => decide (a.key ≤ b.key)
  perm := fun entries => List.mergeSort_perm entries _
  sorted := fun entries => by
    have hsorted : (entries.mergeSort fun a b => decide (a.key ≤ b.key)).Pairwise
        fun a b => decide (a.key ≤ b.key) = true := by
      apply List.pairwise_mergeSort
      · intro a b c hab hbc
        exact decide_eq_true (List.le_trans (of_decide_eq_true hab) (of_decide_eq_true hbc))
      · intro a b
        rw [Bool.or_eq_true, decide_eq_true_eq, decide_eq_true_eq]
        exact List.le_total a.key b.key
    exact hsorted.imp fun h => of_decide_eq_true h

/-- `FilterAndSortEntries`. -/
def filterAndSortEntries (S : KeySort) (entries : List CacheEntry) (filter : Bytes) :
    List CacheEntry :=
  let filter := Words.trimSpace filter
  S.sort (entries.filter fun e => keeps filter e.key)

variable {keys : List Key} {entries : List CacheEntry}

/-- Keys in their strict order are distinct. -/
theorem nodup_of_sorted (h : keys.Pairwise (· < ·)) : keys.Nodup := by
  refine h.imp fun {a b} hlt heq => ?_
  rw [heq] at hlt
  exact List.lt_irrefl b hlt

theorem keys_eq_of_perm {xs ys : List Key} (hperm : xs.Perm ys) (hx : xs.Pairwise (· ≤ ·))
    (hy : ys.Pairwise (· ≤ ·)) : xs = ys :=
  hperm.eq_of_pairwise (fun _ _ _ _ hab hba => List.le_antisymm hab hba) hx hy

/-- The keys of the sorted entries do not depend on the order of equal keys. -/
theorem keys_filterAndSortEntries (S : KeySort) {filter : Bytes}
    (hperm : ((entries.filter fun e => keeps (Words.trimSpace filter) e.key).map
      CacheEntry.key).Perm keys) (hsorted : keys.Pairwise (· ≤ ·)) :
    (filterAndSortEntries S entries filter).map CacheEntry.key = keys := by
  refine keys_eq_of_perm (((S.perm _).map _).trans hperm) ?_ hsorted
  exact List.pairwise_map.mpr (S.sorted _)

/-- Entries with distinct keys have one order only. -/
theorem sort_eq_self (S : KeySort) (hsorted : entries.Pairwise fun a b => a.key < b.key) :
    S.sort entries = entries := by
  have hle : entries.Pairwise fun a b => a.key ≤ b.key := hsorted.imp fun hlt => List.le_of_lt hlt
  have hnodup : (entries.map CacheEntry.key).Nodup :=
    nodup_of_sorted (List.pairwise_map.mpr hsorted)
  exact (S.perm entries).eq_of_pairwise
    (fun a b ha hb hab hba => List.inj_on_of_nodup_map hnodup ((S.perm entries).mem_iff.mp ha) hb
      (List.le_antisymm hab hba)) (S.sorted entries) hle

/-! ## Pages -/

/-- `SliceEntries`. -/
def sliceEntries (entries : List CacheEntry) (offset : Nat) (limit : Int64) : ListPageResult :=
  let limit := normalizeListLimit limit
  let start := min offset entries.length
  let stop := min (start + limit) entries.length
  { items := (entries.take stop).drop start
    hasMore := decide (stop < entries.length)
    nextCursor := if stop < entries.length then encodeOffsetCursor stop else [] }

/-- The pages of `SliceEntries` list the entries, each of them once, as far as `f` tells
the entries of different calls apart. -/
theorem lists_sliceEntries {α ε : Type} (f : CacheEntry → α) {entries : Nat → List CacheEntry}
    {xs : List α} (hsame : ∀ i, (entries i).map f = xs) (hlength : xs.length < 2 ^ 63)
    (limit : Int64) {page : Nat → Bytes → Except ε (Page Bytes α)}
    (hpage : ∀ i cursor offset, decodeOffsetCursor cursor = .ok offset →
      page i cursor = .ok ((sliceEntries (entries i) offset limit).map f)) :
    Lists page 0 [] xs := by
  have hpos := normalizeListLimit_pos limit
  have hstart : encodeOffsetCursor 0 = [] := rfl
  rw [← hstart]
  refine lists_slices hpos (fun i o ho => ?_) 0
  have hentries : (entries i).length = xs.length := by
    rw [← hsame i, List.length_map]
  refine ⟨_, hpage i _ o (decodeOffsetCursor_encode (by omega)), ?_, ?_, ?_⟩
  · change ((((entries i).take _).drop _).map f) = _
    rw [hentries, Nat.min_eq_left ho, List.map_drop, List.map_take, hsame, List.drop_take]
    apply List.take_eq_take_iff.mpr
    rw [List.length_drop]
    omega
  · change decide (min (min o (entries i).length + normalizeListLimit limit)
      (entries i).length < (entries i).length) = _
    rw [hentries, Nat.min_eq_left ho]
    apply decide_eq_decide.mpr
    omega
  · intro hmore
    have hlt : min (min o (entries i).length + normalizeListLimit limit)
        (entries i).length < (entries i).length := of_decide_eq_true hmore
    change (if _ then encodeOffsetCursor _ else []) = _
    rw [if_pos hlt]
    congr 1
    omega

/-- A page has at most as many entries as the limit says. -/
theorem length_sliceEntries_le (entries : List CacheEntry) (offset : Nat) (limit : Int64) :
    (sliceEntries entries offset limit).items.length ≤ normalizeListLimit limit := by
  simp only [sliceEntries, List.length_drop, List.length_take]
  omega

/-- A page has a cursor exactly when there are more entries. -/
theorem nextCursor_sliceEntries (entries : List CacheEntry) (offset : Nat) (limit : Int64) :
    (sliceEntries entries offset limit).nextCursor ≠ [] ↔
      (sliceEntries entries offset limit).hasMore = true := by
  have hpos := normalizeListLimit_pos limit
  simp only [sliceEntries, decide_eq_true_eq]
  split
  · rename_i hmore
    refine iff_of_true ?_ hmore
    -- the page before the cursor is not empty, so the cursor is not that of the first page
    rw [encodeOffsetCursor, if_neg (by omega)]
    exact formatNat_ne_nil _
  · rename_i hlast
    simp [hlast]

/-! ## Offset paging -/

/-- The page that the helpers make of a list of entries, a filter, a limit and a cursor. -/
def helperPage (S : KeySort) (entries : List CacheEntry) (filter : Bytes) (limit : Int64)
    (cursor : Bytes) : Except InvalidCursor ListPageResult :=
  (decodeOffsetCursor cursor).map fun offset =>
    sliceEntries (filterAndSortEntries S entries filter) offset limit

/-- The filter keeps the keys that contain its text; every key contains the empty one. -/
theorem keeps_iff {filter : Bytes} {key : Key} : keeps filter key = true ↔ filter <:+: key := by
  rw [keeps, Bool.or_eq_true, decide_eq_true_eq, decide_eq_true_eq]
  constructor
  · rintro (rfl | hinfix)
    · exact List.nil_infix
    · exact hinfix
  · exact Or.inr

/-- The entries that are left after filtering and sorting. -/
theorem mem_filterAndSortEntries (S : KeySort) (entries : List CacheEntry) (filter : Bytes)
    (e : CacheEntry) : e ∈ filterAndSortEntries S entries filter ↔
      e ∈ entries ∧ Words.trimSpace filter <:+: e.key := by
  unfold filterAndSortEntries
  rw [(S.perm _).mem_iff, List.mem_filter, keeps_iff]

/-- Entries with distinct keys are sorted strictly. -/
theorem pairwise_filterAndSortEntries (S : KeySort) (hkeys : (entries.map CacheEntry.key).Nodup)
    (filter : Bytes) :
    (filterAndSortEntries S entries filter).Pairwise fun a b => a.key < b.key := by
  unfold filterAndSortEntries
  have hnodup : ((entries.filter fun e => keeps (Words.trimSpace filter) e.key).map
      CacheEntry.key).Nodup := hkeys.sublist (List.filter_sublist.map _)
  have hdistinct := List.pairwise_map.mp (((S.perm _).map CacheEntry.key).nodup_iff.mpr hnodup)
  refine (hdistinct.and (S.sorted _)).imp fun ⟨hne, hle⟩ => ?_
  by_contra hnot
  exact hne (List.le_antisymm hle (List.not_lt.mp hnot))

/--
Offset paging enumerates everything exactly once.  Take any list of entries with distinct keys, any
filter text and any limit.  Following the cursors from the empty one while there are more entries
ends without a cursor error, and the pages together are the entries whose key contains the trimmed
filter, in the strict order of their keys.  Every page, whatever its cursor, has at most as many
entries as the normalized limit, and a cursor exactly when there are more entries.  The bound on the
length, which no slice of entries comes near, keeps the offsets within the machine integers.
-/
theorem offset_paging_enumerates (S : KeySort) {entries : List CacheEntry}
    (hkeys : (entries.map CacheEntry.key).Nodup) (hslice : entries.length + 500 < 2 ^ 63)
    (filter : Bytes) (limit : Int64) :
    (∃ listed, Lists (fun _ => helperPage S entries filter limit) 0 [] listed ∧
      (∀ e, e ∈ listed ↔ e ∈ entries ∧ Words.trimSpace filter <:+: e.key) ∧
      listed.Pairwise fun a b => a.key < b.key) ∧
    ∀ cursor p, helperPage S entries filter limit cursor = .ok p →
      p.items.length ≤ normalizeListLimit limit ∧ (p.nextCursor ≠ [] ↔ p.hasMore = true) := by
  constructor
  · have hlength : (filterAndSortEntries S entries filter).length < 2 ^ 63 := by
      have hle : (filterAndSortEntries S entries filter).length ≤ entries.length := by
        rw [filterAndSortEntries, (S.perm _).length_eq]
        exact List.length_filter_le _ _
      omega
    refine ⟨filterAndSortEntries S entries filter, ?_, mem_filterAndSortEntries S entries filter,
      pairwise_filterAndSortEntries S hkeys filter⟩
    refine lists_sliceEntries id (fun _ => List.map_id _) hlength limit
      fun i cursor offset hcursor => ?_
    rw [helperPage, hcursor, Page.map, List.map_id]
    rfl
  · intro cursor p hpage
    unfold helperPage at hpage
    cases hcursor : decodeOffsetCursor cursor with
    | error err =>
      rw [hcursor] at hpage
      cases hpage
    | ok offset =>
      rw [hcursor] at hpage
      cases hpage
      exact ⟨length_sliceEntries_le _ _ _, nextCursor_sliceEntries _ _ _⟩

/-- Three entries. -/
def threeEntries : List CacheEntry :=
  [⟨ascii "user:b", 1, none⟩, ⟨ascii "job", 2, none⟩, ⟨ascii "user:a", 3, none⟩]

/-- Two of them are found, one on a page. -/
theorem offset_paging_enumerates_two :
    ∃ listed, Lists (fun _ => helperPage mergeKeySort threeEntries (ascii " user ") 1) 0 [] listed ∧
      ∀ e, e ∈ listed ↔ e ∈ threeEntries ∧ Words.trimSpace (ascii " user ") <:+: e.key := by
  have hkeys : (threeEntries.map CacheEntry.key).Nodup := by decide
  rcases (offset_paging_enumerates mergeKeySort hkeys (by decide) (ascii " user ") 1).1 with
    ⟨listed, hlists, hmem, -⟩
  exact ⟨listed, hlists, hmem⟩

/-! ## Entries that are collected, filtered and sorted in every call -/

/-- The keys of the entries that the filter keeps. -/
def keptKeys (term : Bytes) (entries : List CacheEntry) : List Key :=
  (entries.filter fun e => keeps term e.key).map CacheEntry.key

/-- Repetitions aside, the filter keeps what is to be listed. -/
theorem filter_perm_iff {p : Key → Bool} {all : List Key} (hnodup : keys.Nodup)
    (hkeys : ∀ key, key ∈ keys ↔ p key = true) :
    (all.filter p).Perm keys ↔ ∀ key ∈ keys, all.count key = 1 := by
  rw [List.perm_iff_count]
  constructor
  · intro h key hkey
    rw [← List.count_filter ((hkeys key).mp hkey), h, List.count_eq_one_of_mem hnodup hkey]
  · intro h key
    by_cases hkey : key ∈ keys
    · rw [List.count_filter ((hkeys key).mp hkey), h key hkey, List.count_eq_one_of_mem hnodup hkey]
    · rw [List.count_eq_zero_of_not_mem hkey, List.count_eq_zero]
      exact fun hmem => hkey ((hkeys key).mpr (List.of_mem_filter hmem))

/-- Following the cursors from the start lists the keys, each of them as often as it is there. -/
def ListsKeys {ε : Type} (page : Nat → Bytes → Except ε ListPageResult) (keys : List Key) : Prop :=
  ∃ listed : List Key, listed.Perm keys ∧
    Lists (fun i cursor => (page i cursor).map (Page.map CacheEntry.key)) 0 [] listed

section Collected

variable {ε : Type} {page : Nat → Bytes → Except ε ListPageResult} {S : Nat → KeySort}
  {entries : Nat → List CacheEntry} {opts : ListPageOptions}
  (hpage : ∀ i cursor offset, decodeOffsetCursor cursor = .ok offset →
    page i cursor = .ok (sliceEntries
      (filterAndSortEntries (S i) (entries i) (listFilterTerm opts)) offset opts.limit))

include hpage

/-- Calls that all collect the same keys, in any order, list them. -/
theorem lists_collected (hlength : (entries 0).length < 2 ^ 62)
    (hsame : ∀ i, (keptKeys (listFilterTerm opts) (entries i)).Perm
      (keptKeys (listFilterTerm opts) (entries 0))) :
    ListsKeys page (keptKeys (listFilterTerm opts) (entries 0)) := by
  let sorted := (filterAndSortEntries (S 0) (entries 0) (listFilterTerm opts)).map CacheEntry.key
  have hperm : sorted.Perm (keptKeys (listFilterTerm opts) (entries 0)) := by
    have hsort := ((S 0).perm ((entries 0).filter fun e =>
      keeps (Words.trimSpace (listFilterTerm opts)) e.key)).map CacheEntry.key
    rw [trimSpace_listFilterTerm] at hsort
    unfold sorted filterAndSortEntries
    rw [trimSpace_listFilterTerm]
    exact hsort
  have hkeys : ∀ i, (filterAndSortEntries (S i) (entries i) (listFilterTerm opts)).map
      CacheEntry.key = sorted := by
    intro i
    refine keys_filterAndSortEntries (S i) ?_ (List.pairwise_map.mpr ((S 0).sorted _))
    rw [trimSpace_listFilterTerm]
    exact (hsame i).trans hperm.symm
  have hshort : sorted.length < 2 ^ 63 := by
    have hkept : (keptKeys (listFilterTerm opts) (entries 0)).length ≤ (entries 0).length := by
      rw [keptKeys, List.length_map]
      exact List.length_filter_le _ _
    rw [hperm.length_eq]
    omega
  refine ⟨sorted, hperm, ?_⟩
  refine lists_sliceEntries CacheEntry.key hkeys hshort opts.limit fun i cursor offset hcursor => ?_
  rw [hpage i cursor offset hcursor]
  rfl

/-- They list nothing else. -/
theorem listsKeys_iff (hlength : (entries 0).length < 2 ^ 62)
    (hsame : ∀ i, (keptKeys (listFilterTerm opts) (entries i)).Perm
      (keptKeys (listFilterTerm opts) (entries 0))) (keys : List Key) :
    ListsKeys page keys ↔ (keptKeys (listFilterTerm opts) (entries 0)).Perm keys := by
  rcases lists_collected hpage hlength hsame with ⟨collected, hcollected, hlists⟩
  constructor
  · rintro ⟨listed, hperm, hlisted⟩
    rw [hlists.unique hlisted] at hcollected
    exact hcollected.symm.trans hperm
  · intro hperm
    exact ⟨collected, hcollected.trans hperm, hlists⟩

end Collected

end Inspect
end GoforjCache
