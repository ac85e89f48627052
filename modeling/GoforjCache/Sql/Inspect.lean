import GoforjCache.Core.Inspect
import GoforjCache.Foundation.Like
import GoforjCache.Sql.Store

/-!
# SQL - Inspection

`ListPage` of the SQL store asks the database for one row more than the limit, from an offset
on, and skips the expired ones among them.  If any of them is skipped, the page is taken for the
last one.  The filter term is part of a `LIKE` pattern, with its `%` and `_`, which the databases
read in their own ways, and without a term the query selects the rows of all stores.

Main results:

- Theorem `lists_queryPage`: what the pages list.
- Theorem `reference_eq`: what the shared helpers list.
- Theorem `sql_inspection_iff`: when the pages list the live rows of the store that contain the
  term.
- Theorem `agrees_of_literal`: they do with a literal term and without expired rows.
- Theorem `inspection_differs`: an expired row hides what comes after it, rows of other stores
  are listed, wildcards and letters of the other case match keys that do not contain them, and an
  escape matches no key that contains it.
-/

namespace GoforjCache
namespace Sql

open Foundation Foundation.Paging Inspect
open Nats (unixMilli)

/-! ## The query -/

/-- The table in the order of its keys. -/
structure OrderedTable where
  rows : List (Key × Row)
  sorted : rows.Pairwise fun a b => a.1 < b.1

/-- Letters in lower case. -/
def lower (b : UInt8) : UInt8 := if 65 ≤ b ∧ b ≤ 90 then b + 32 else b

/-- How the databases read patterns for the columns of `ensureSchema`.  A backslash escapes the next
byte in Postgres and in MySQL, where keys are binary; SQLite does not tell the cases of ASCII
letters apart. -/
def DriverName.dialect : DriverName → Like.Dialect
  | postgres | pgx => ⟨some 92, id, true⟩
  | mysql => ⟨some 92, id, false⟩
  | sqlite => ⟨none, lower, true⟩

/-- The pattern of the query. -/
def likePattern (cfg : Config) (filter : Bytes) : Bytes :=
  if cfg.keyPrefix = [] then ascii "%" ++ filter ++ ascii "%"
  else cfg.keyPrefix ++ ascii ":%" ++ filter ++ ascii "%"

/-- The `WHERE` clause: there is none without a term. -/
def selects (cfg : Config) (filter : Bytes) (k : Key) : Bool :=
  decide (filter = []) || Like.like cfg.driverName.dialect (likePattern cfg filter) k

/-- The rows of the query without `LIMIT` and `OFFSET`. -/
def selected (cfg : Config) (t : OrderedTable) (filter : Bytes) : List (Key × Row) :=
  t.rows.filter fun r => selects cfg filter r.1

/-- The row is not skipped: the condition is not that of `Get`. -/
def Row.shown (row : Row) (now : Instant) : Bool :=
  !(decide (0 < row.ea) && decide (row.ea < unixMilli now))

/-- The entry of a row. -/
def entryOf (cfg : Config) (r : Key × Row) : CacheEntry where
  key := trimPrefix r.1 (cfg.keyPrefix ++ ascii ":")
  sizeBytes := r.2.v.length
  expiresAt := if 0 < r.2.ea then some r.2.ea else none

/-- The page, with the rows of its entries. -/
def queryPage (cfg : Config) (now : Instant) (t : OrderedTable) (opts : ListPageOptions) :
    Except InvalidCursor (Page Bytes (Key × Row)) :=
  let limit := normalizeListLimit opts.limit
  (decodeOffsetCursor opts.cursor).map fun offset =>
    let fetched := ((selected cfg t (listFilterTerm opts)).drop offset).take (limit + 1)
    let rows := fetched.filter fun r => r.2.shown now
    if limit < rows.length then ⟨rows.take limit, encodeOffsetCursor (offset + limit), true⟩
    else ⟨rows, [], false⟩

/-- `sqlStore.ListPage`. -/
def listPage (cfg : Config) (now : Instant) (t : OrderedTable) (opts : ListPageOptions) :
    Except InvalidCursor ListPageResult :=
  (queryPage cfg now t opts).map (Page.map (entryOf cfg))

/-! ## What is to be listed -/

/-- The row belongs to the store and is live. -/
def ownLive (cfg : Config) (now : Instant) (r : Key × Row) : Bool :=
  (cfg.keyPrefix ++ ascii ":").isPrefixOf r.1 && !r.2.expired now

/-- The row is one to be listed: the key without the prefix contains the term. -/
def wanted (cfg : Config) (now : Instant) (term : Bytes) (r : Key × Row) : Bool :=
  keeps term (entryOf cfg r).key && ownLive cfg now r

/-- The entries that the shared helpers make of the live rows of the store. -/
def reference (S : KeySort) (cfg : Config) (now : Instant) (t : OrderedTable)
    (opts : ListPageOptions) : List CacheEntry :=
  filterAndSortEntries S ((t.rows.filter (ownLive cfg now)).map (entryOf cfg)) (listFilterTerm opts)

/-- The page of the shared helpers. -/
def referencePage (S : KeySort) (cfg : Config) (now : Instant) (t : OrderedTable)
    (opts : ListPageOptions) : Except InvalidCursor ListPageResult :=
  (decodeOffsetCursor opts.cursor).map fun offset =>
    sliceEntries (reference S cfg now t opts) offset opts.limit

/-! ## The condition -/

/-- The query asks for the key: there is no term, or the database matches the key. -/
def Asked (cfg : Config) (term : Bytes) (k : Key) : Prop :=
  term = [] ∨ Like.like cfg.driverName.dialect
    (cfg.keyPrefix ++ ascii ":%" ++ term ++ ascii "%") k = true

instance (cfg : Config) (term : Bytes) : DecidablePred (Asked cfg term) :=
  fun _ => inferInstanceAs (Decidable (_ ∨ _))

/-- The expiration of the row is past, unless it has none. -/
def Lapsed (now : Instant) (row : Row) : Prop := 0 < row.ea ∧ row.ea < unixMilli now

/-- The number of rows before the key that the query asks for. -/
def rank (cfg : Config) (t : OrderedTable) (term : Bytes) (k : Key) : Nat :=
  t.rows.countP fun r => decide (r.1 < k) && decide (Asked cfg term r.1)

/-- A page ends between a lapsed row that the query asks for and the key. -/
def Hidden (cfg : Config) (now : Instant) (t : OrderedTable) (opts : ListPageOptions) (k : Key) :
    Prop :=
  let term := listFilterTerm opts
  let limit := normalizeListLimit opts.limit
  ∃ e ∈ t.rows, Asked cfg term e.1 ∧ Lapsed now e.2 ∧
    ∃ pages, 0 < pages ∧ rank cfg t term e.1 ≤ pages * limit ∧ pages * limit < rank cfg t term k

/-- The conditions under which the pages agree with the shared helpers. -/
structure Agrees (cfg : Config) (now : Instant) (t : OrderedTable) (opts : ListPageOptions) :
    Prop where
  /-- Of what the query asks for, only lapsed and hidden rows are not to be listed. -/
  confined : ∀ r ∈ t.rows, Asked cfg (listFilterTerm opts) r.1 → ¬Lapsed now r.2 →
    ¬Hidden cfg now t opts r.1 → wanted cfg now (listFilterTerm opts) r = true
  /-- The query asks for every row that is to be listed. -/
  asked : ∀ r ∈ t.rows, wanted cfg now (listFilterTerm opts) r = true →
    Asked cfg (listFilterTerm opts) r.1
  /-- No row that is to be listed is hidden. -/
  reached : ∀ r ∈ t.rows, wanted cfg now (listFilterTerm opts) r = true → ¬Hidden cfg now t opts r.1

/-! ## Rows -/

section Rows

variable {cfg : Config} {now : Instant} {t : OrderedTable}

/-- The keys of a table are distinct. -/
theorem OrderedTable.nodup (t : OrderedTable) : (t.rows.map Prod.fst).Nodup :=
  nodup_of_sorted (List.pairwise_map.mpr t.sorted)

variable {r : Key × Row} {term : Bytes}

/-- The full key of a row of the store. -/
theorem full_of_ownLive (hscope : cfg.keyPrefix ≠ []) (h : ownLive cfg now r = true) :
    r.1 = cacheKey cfg (entryOf cfg r).key := by
  rcases List.isPrefixOf_iff_prefix.mp (Bool.and_eq_true_iff.mp h).1 with ⟨key, hkey⟩
  rw [entryOf, ← hkey, trimPrefix_append, cacheKey, if_neg hscope]

theorem selects_iff (hscope : cfg.keyPrefix ≠ []) (term : Bytes) (k : Key) :
    selects cfg term k = true ↔ Asked cfg term k := by
  unfold selects Asked likePattern
  rw [if_neg hscope, Bool.or_eq_true, decide_eq_true_eq]

theorem mem_selected (hscope : cfg.keyPrefix ≠ []) :
    r ∈ selected cfg t term ↔ r ∈ t.rows ∧ Asked cfg term r.1 := by
  rw [selected, List.mem_filter, selects_iff hscope]

theorem shown_iff (row : Row) : row.shown now = true ↔ ¬Lapsed now row := by
  unfold Row.shown Lapsed
  simp only [Bool.not_eq_true', Bool.and_eq_false_iff, decide_eq_false_iff_not, not_and_or]

/-- A row to be listed has not lapsed. -/
theorem not_lapsed_of_wanted (h : wanted cfg now term r = true) : ¬Lapsed now r.2 := by
  have hlive := (Bool.and_eq_true_iff.mp (Bool.and_eq_true_iff.mp h).2).2
  rintro ⟨-, hpast⟩
  rw [Row.expired, decide_eq_true hpast] at hlive
  cases hlive

/-- The rank of a selected row is its position. -/
theorem rank_eq (hscope : cfg.keyPrefix ≠ []) {i : Nat} (h : (selected cfg t term)[i]? = some r) :
    rank cfg t term r.1 = i := by
  have hasymm : ∀ a b : Key × Row, a.1 < b.1 → ¬b.1 < a.1 := fun _ _ => List.lt_asymm
  have hcount := countP_before hasymm (t.sorted.filter _) h
  rw [List.countP_filter] at hcount
  rw [← hcount, rank]
  apply List.countP_congr
  intro e _
  rw [Bool.and_eq_true, Bool.and_eq_true, decide_eq_true_eq, decide_eq_true_eq, selects_iff hscope]

/-- The hidden ones among the selected rows are out of reach of the pages. -/
theorem hidden_iff (hscope : cfg.keyPrefix ≠ []) {opts : ListPageOptions} {i : Nat}
    (h : (selected cfg t (listFilterTerm opts))[i]? = some r) :
    Hidden cfg now t opts r.1 ↔ reach (fun r => r.2.shown now) (normalizeListLimit opts.limit)
      (selected cfg t (listFilterTerm opts)) < i := by
  rw [reach_lt_iff (normalizeListLimit_pos _) (List.getElem?_eq_some_iff.mp h).1, Hidden]
  have hskipped : ∀ row : Row, Lapsed now row ↔ row.shown now = false := by
    intro row
    rw [← Bool.not_eq_true, shown_iff, not_not]
  simp only [rank_eq hscope h, hskipped]
  constructor
  · rintro ⟨e, he, hasked, hlapsed, pages, hpos, hle, hlt⟩
    rcases List.mem_iff_getElem?.mp ((mem_selected hscope).mpr ⟨he, hasked⟩) with ⟨j, hj⟩
    rw [rank_eq hscope hj] at hle
    exact ⟨j, e, hj, hlapsed, pages, hpos, hle, hlt⟩
  · rintro ⟨j, e, hj, hlapsed, pages, hpos, hle, hlt⟩
    rcases (mem_selected hscope).mp (List.mem_of_getElem? hj) with ⟨he, hasked⟩
    rw [← rank_eq hscope hj] at hle
    exact ⟨e, he, hasked, hlapsed, pages, hpos, hle, hlt⟩

/-- The rows to be listed are among the selected ones, if the query asks for them. -/
theorem filter_wanted_selected (hscope : cfg.keyPrefix ≠ [])
    (hasked : ∀ r ∈ t.rows, wanted cfg now term r = true → Asked cfg term r.1) :
    t.rows.filter (wanted cfg now term) = (selected cfg t term).filter (wanted cfg now term) := by
  unfold selected
  rw [List.filter_filter]
  apply List.filter_congr
  intro r hr
  cases hwanted : wanted cfg now term r with
  | false => rfl
  | true => exact ((selects_iff hscope _ _).mpr (hasked r hr hwanted)).symm

/-- When the rows that the pages come to and do not skip are those to be listed. -/
theorem visible_eq_wanted_iff (hscope : cfg.keyPrefix ≠ []) (opts : ListPageOptions) :
    visible (fun r => r.2.shown now) (normalizeListLimit opts.limit)
        (selected cfg t (listFilterTerm opts)) =
      t.rows.filter (wanted cfg now (listFilterTerm opts)) ↔ Agrees cfg now t opts := by
  have hnodup : (selected cfg t (listFilterTerm opts)).Nodup := (t.nodup.of_map _).filter _
  have hrows := visible_eq_filter_iff (p := fun r : Key × Row => r.2.shown now)
    (q := wanted cfg now (listFilterTerm opts)) (normalizeListLimit opts.limit) hnodup
  constructor
  · intro heq
    have hasked : ∀ r ∈ t.rows, wanted cfg now (listFilterTerm opts) r = true →
        Asked cfg (listFilterTerm opts) r.1 := by
      intro r hr hwanted
      have hvisible := List.mem_filter.mpr ⟨hr, hwanted⟩
      rw [← heq] at hvisible
      have hselected := List.mem_of_mem_take (List.mem_of_mem_filter hvisible)
      exact ((mem_selected hscope).mp hselected).2
    rw [filter_wanted_selected hscope hasked] at heq
    have hrow := hrows.mp heq
    refine ⟨?_, hasked, ?_⟩
    · intro r hr hask hlapsed hhidden
      rcases List.mem_iff_getElem?.mp ((mem_selected hscope).mpr ⟨hr, hask⟩) with ⟨i, hi⟩
      rw [hidden_iff hscope hi, Nat.not_lt] at hhidden
      exact (hrow i r hi).mp ⟨(shown_iff _).mpr hlapsed, hhidden⟩
    · intro r hr hwanted
      have hmem := (mem_selected hscope).mpr ⟨hr, hasked r hr hwanted⟩
      rcases List.mem_iff_getElem?.mp hmem with ⟨i, hi⟩
      rw [hidden_iff hscope hi, Nat.not_lt]
      exact ((hrow i r hi).mpr hwanted).2
  · intro hagrees
    rw [filter_wanted_selected hscope hagrees.asked]
    refine hrows.mpr fun i r hi => ?_
    rcases (mem_selected hscope).mp (List.mem_of_getElem? hi) with ⟨hr, hask⟩
    rw [shown_iff, ← Nat.not_lt, ← hidden_iff hscope hi]
    constructor
    · rintro ⟨hlapsed, hhidden⟩
      exact hagrees.confined r hr hask hlapsed hhidden
    · intro hwanted
      exact ⟨not_lapsed_of_wanted hwanted, hagrees.reached r hr hwanted⟩

/-- The order of keys does not depend on a common prefix. -/
theorem lt_of_append_lt {p a b : Bytes} (h : p ++ a < p ++ b) : a < b := by
  by_contra hle
  exact List.not_lt.mpr (List.append_left_le (List.not_lt.mp hle)) h

/-- What the shared helpers list are the entries of the rows to be listed. -/
theorem reference_eq (S : KeySort) (hscope : cfg.keyPrefix ≠ []) (opts : ListPageOptions) :
    reference S cfg now t opts =
      (t.rows.filter (wanted cfg now (listFilterTerm opts))).map (entryOf cfg) := by
  unfold reference filterAndSortEntries
  dsimp only
  rw [trimSpace_listFilterTerm, List.filter_map, List.filter_filter]
  apply sort_eq_self
  refine List.pairwise_map.mpr ((t.sorted.filter _).imp_of_mem fun {a b} ha hb hlt => ?_)
  have hown : ∀ r ∈ t.rows.filter (wanted cfg now (listFilterTerm opts)),
      r.1 = cacheKey cfg (entryOf cfg r).key :=
    fun r hr =>
      have hwanted : wanted cfg now (listFilterTerm opts) r = true := List.of_mem_filter hr
      full_of_ownLive hscope (Bool.and_eq_true_iff.mp hwanted).2
  rw [hown a ha, hown b hb, cacheKey, if_neg hscope, cacheKey, if_neg hscope] at hlt
  exact lt_of_append_lt hlt

end Rows

/-! ## Main results -/

variable {t : OrderedTable} {cfg : Config}

/-- What the pages list. -/
theorem lists_queryPage (cfg : Config) (hsize : t.rows.length < 2 ^ 62) (now : Instant)
    (opts : ListPageOptions) :
    Lists (walk (queryPage cfg now t) opts) 0 []
      (visible (fun r => r.2.shown now) (normalizeListLimit opts.limit)
        (selected cfg t (listFilterTerm opts))) := by
  have hstart : encodeOffsetCursor 0 = [] := rfl
  rw [← hstart]
  refine lists_visible (normalizeListLimit_pos opts.limit) (fun i o ho => ?_) 0
  have hlength : (selected cfg t (listFilterTerm opts)).length ≤ t.rows.length :=
    List.length_filter_le _ _
  let rows := kept (fun r => r.2.shown now) (normalizeListLimit opts.limit)
    (selected cfg t (listFilterTerm opts)) o
  have hpage : walk (queryPage cfg now t) opts i (encodeOffsetCursor o) =
      .ok (if normalizeListLimit opts.limit < rows.length then
        ⟨rows.take (normalizeListLimit opts.limit),
          encodeOffsetCursor (o + normalizeListLimit opts.limit), true⟩
        else ⟨rows, [], false⟩) := by
    unfold walk queryPage
    dsimp only
    rw [decodeOffsetCursor_encode (by omega)]
    rfl
  refine ⟨_, hpage, fun hle => ?_, fun hlt => ?_⟩
  · rw [if_neg (Nat.not_lt.mpr hle)]
    exact ⟨rfl, rfl⟩
  · rw [if_pos hlt]
    exact ⟨rfl, rfl, rfl⟩

/-- What the pages of the shared helpers list. -/
theorem lists_referencePage (S : KeySort) (hscope : cfg.keyPrefix ≠ [])
    (hsize : t.rows.length < 2 ^ 62) (now : Instant) (opts : ListPageOptions) :
    Lists (walk (referencePage S cfg now t) opts) 0 [] (reference S cfg now t opts) := by
  have hlength : (reference S cfg now t opts).length < 2 ^ 62 := by
    rw [reference_eq S hscope, List.length_map]
    exact (List.length_filter_le _ _).trans_lt hsize
  refine lists_sliceEntries id (fun _ => List.map_id (reference S cfg now t opts)) (by omega)
    opts.limit fun i cursor offset hcursor => ?_
  have hpage : walk (referencePage S cfg now t) opts i cursor =
      .ok (sliceEntries (reference S cfg now t opts) offset opts.limit) := by
    unfold walk referencePage
    dsimp only
    rw [hcursor]
    rfl
  rw [hpage, Page.map, List.map_id]

/--
SQL inspection agrees with the shared helpers exactly under one condition.  Take any table, any
options and any instant.

- Following the cursors ends.
- It lists the live rows of the store whose key without the prefix contains the term, in the order
  of their keys and each of them once, if and only if the query asks for them, no page ends between
  one of them and a row before it that is asked for and has lapsed, and whatever else is asked for
  has lapsed or is hidden in this way.
- Then the listed entries are those that the shared helpers list.
-/
theorem sql_inspection_iff (S : KeySort) {cfg : Config} (hscope : cfg.keyPrefix ≠ [])
    {t : OrderedTable} (hsize : t.rows.length < 2 ^ 62) (now : Instant) (opts : ListPageOptions) :
    (∃ rows, Lists (walk (queryPage cfg now t) opts) 0 [] rows) ∧
    (Lists (walk (queryPage cfg now t) opts) 0 []
        (t.rows.filter (wanted cfg now (listFilterTerm opts))) ↔ Agrees cfg now t opts) ∧
    (Agrees cfg now t opts →
      Lists (walk (listPage cfg now t) opts) 0 [] (reference S cfg now t opts) ∧
        Lists (walk (referencePage S cfg now t) opts) 0 [] (reference S cfg now t opts)) := by
  have hvisible := lists_queryPage cfg hsize now opts
  have hiff : Lists (walk (queryPage cfg now t) opts) 0 []
      (t.rows.filter (wanted cfg now (listFilterTerm opts))) ↔ Agrees cfg now t opts := by
    rw [← visible_eq_wanted_iff hscope]
    constructor
    · intro hlists
      exact hvisible.unique hlists
    · intro heq
      exact heq ▸ hvisible
  refine ⟨⟨_, hvisible⟩, hiff, fun hagrees => ⟨?_, lists_referencePage S hscope hsize now opts⟩⟩
  rw [reference_eq S hscope]
  exact (hiff.mpr hagrees).map (entryOf cfg) fun _ _ => rfl

/-- With a literal prefix and term, the query asks for the rows of the store that contain the
term. -/
theorem asked_iff {term : Bytes} (hliteral : Like.Literal cfg.driverName.dialect cfg.keyPrefix)
    (hterm : Like.Literal cfg.driverName.dialect term) (hnil : term ≠ []) {r : Key × Row}
    (hkey : Like.Folded cfg.driverName.dialect r.1) :
    Asked cfg term r.1 ↔
      cfg.keyPrefix ++ ascii ":" <+: r.1 ∧ keeps term (entryOf cfg r).key = true := by
  have hcolon : Like.Literal cfg.driverName.dialect (ascii ":") := by
    cases cfg.driverName <;> decide +kernel
  have hstart := List.forall_mem_append.mpr ⟨hliteral, hcolon⟩
  have hpattern : cfg.keyPrefix ++ ascii ":%" ++ term ++ ascii "%" =
      (cfg.keyPrefix ++ ascii ":") ++ 37 :: (term ++ [37]) := by
    simp [ascii]
  rw [Asked, or_iff_right hnil, hpattern, Like.like_within_iff hstart hterm hkey]
  constructor
  · rintro ⟨rest, hrest, hwithin⟩
    refine ⟨⟨rest, hrest.symm⟩, Bool.or_eq_true_iff.mpr (Or.inr (decide_eq_true ?_))⟩
    rwa [entryOf, hrest, trimPrefix_append]
  · rintro ⟨⟨rest, hrest⟩, hkeeps⟩
    refine ⟨rest, hrest.symm, ?_⟩
    rw [entryOf, ← hrest, trimPrefix_append] at hkeeps
    exact (Bool.or_eq_true_iff.mp hkeeps).elim (fun h => absurd (of_decide_eq_true h) hnil)
      of_decide_eq_true

/-- The pages agree with the shared helpers if the prefix and the term are literal, the keys have no
letters of the other case, there is a term or no row of another store, and no row that the query
asks for has expired. -/
theorem agrees_of_literal {now : Instant} {opts : ListPageOptions}
    (hliteral : Like.Literal cfg.driverName.dialect cfg.keyPrefix)
    (hterm : Like.Literal cfg.driverName.dialect (listFilterTerm opts))
    (hkeys : ∀ r ∈ t.rows, Like.Folded cfg.driverName.dialect r.1)
    (hown : listFilterTerm opts = [] → ∀ r ∈ t.rows, cfg.keyPrefix ++ ascii ":" <+: r.1)
    (hlive : ∀ r ∈ t.rows, Asked cfg (listFilterTerm opts) r.1 → r.2.expired now = false) :
    Agrees cfg now t opts := by
  have hhidden : ∀ k, ¬Hidden cfg now t opts k := by
    rintro k ⟨e, he, hasked, ⟨-, hpast⟩, -⟩
    cases (decide_eq_true hpast).symm.trans (hlive e he hasked)
  refine ⟨fun r hr hasked _ _ => ?_, fun r hr hwanted => ?_, fun r _ _ => hhidden r.1⟩
  · have hown' : cfg.keyPrefix ++ ascii ":" <+: r.1 ∧
        keeps (listFilterTerm opts) (entryOf cfg r).key = true := by
      by_cases hnil : listFilterTerm opts = []
      · exact ⟨hown hnil r hr, Bool.or_eq_true_iff.mpr (Or.inl (decide_eq_true hnil))⟩
      · exact (asked_iff hliteral hterm hnil (hkeys r hr)).mp hasked
    rw [wanted, ownLive, hown'.2, List.isPrefixOf_iff_prefix.mpr hown'.1, hlive r hr hasked]
    rfl
  · rcases Bool.and_eq_true_iff.mp hwanted with ⟨hkeeps, hlive'⟩
    have hstore := List.isPrefixOf_iff_prefix.mp (Bool.and_eq_true_iff.mp hlive').1
    by_cases hnil : listFilterTerm opts = []
    · exact Or.inl hnil
    · exact (asked_iff hliteral hterm hnil (hkeys r hr)).mpr ⟨hstore, hkeeps⟩

/-! ## Samples -/

/-- The store with the prefix `app`. -/
def appStore : Config := Config.sqlite (ascii "app")

/-- The options with a query and a limit. -/
def asking (query : Bytes) (limit : Int64) : ListPageOptions := ⟨query, [], [], limit⟩

/-- A row with a value of one byte that expires after so many milliseconds. -/
def rowUntil (ea : Int64) : Row := ⟨ascii "v", ea⟩

/-- Three rows of the store, one of which has expired, and one of another store. -/
def mixedRows : OrderedTable where
  rows := [(ascii "app:a", rowUntil 500), (ascii "app:ab", rowUntil 5000),
    (ascii "app:b", rowUntil 5000), (ascii "web:b", rowUntil 5000)]
  sorted := by decide

/-- The two rows that contain the term, one on each page. -/
theorem sql_inspection_mixedRows :
    Lists (walk (listPage appStore 1000000000 mixedRows) (asking (ascii "b") 1)) 0 []
        (reference mergeKeySort appStore 1000000000 mixedRows (asking (ascii "b") 1)) ∧
      (reference mergeKeySort appStore 1000000000 mixedRows (asking (ascii "b") 1)).map
        CacheEntry.key = [ascii "ab", ascii "b"] := by
  have hagrees : Agrees appStore 1000000000 mixedRows (asking (ascii "b") 1) :=
    agrees_of_literal (by decide +kernel) (by decide +kernel) (by decide) (by decide)
      (by decide +kernel)
  refine ⟨((sql_inspection_iff mergeKeySort (by decide) (by decide) _ _).2.2 hagrees).1, ?_⟩
  rw [reference_eq mergeKeySort (by decide)]
  rfl

/-- The first of three rows has expired. -/
def expiredFirst : OrderedTable where
  rows := [(ascii "app:a", rowUntil 500), (ascii "app:b", rowUntil 5000),
    (ascii "app:c", rowUntil 5000)]
  sorted := by decide

/-- A row of the store, and one of another store. -/
def withForeign : OrderedTable where
  rows := [(ascii "app:ab", rowUntil 5000), (ascii "web:k", rowUntil 5000)]
  sorted := by decide

/-- The same store on Postgres. -/
def postgresStore : Config where
  driverName := .postgres
  keyPrefix := ascii "app"
  defaultTTL := DefaultTTL.normalize 0
  refuses := fun _ _ => none
  duplicate := ⟨1, ascii "duplicate key value"⟩
  duplicate_recognised := by decide

/-- A row whose key contains a backslash. -/
def withBackslash : OrderedTable where
  rows := [(ascii "app:" ++ [97, 92, 98], rowUntil 5000)]
  sorted := by decide

/-- With pages of one entry, the expired row ends the listing before the third row.  Without a term,
the row of the other store is listed.  The terms `_` and, on SQLite, `B` match a key without that
byte, and on Postgres a backslash does not match a key that contains it. -/
theorem inspection_differs :
    (Lists (walk (listPage appStore 1000000000 expiredFirst) (asking [] 1)) 0 []
        [⟨ascii "b", 1, some 5000⟩] ∧
      reference mergeKeySort appStore 1000000000 expiredFirst (asking [] 1) =
        [⟨ascii "b", 1, some 5000⟩, ⟨ascii "c", 1, some 5000⟩]) ∧
    (Lists (walk (listPage appStore 1000000000 withForeign) (asking [] 5)) 0 []
        [⟨ascii "ab", 1, some 5000⟩, ⟨ascii "web:k", 1, some 5000⟩] ∧
      reference mergeKeySort appStore 1000000000 withForeign (asking [] 5) =
        [⟨ascii "ab", 1, some 5000⟩]) ∧
    (∀ query ∈ [ascii "_", ascii "B"],
      Lists (walk (listPage appStore 1000000000 withForeign) (asking query 5)) 0 []
        [⟨ascii "ab", 1, some 5000⟩] ∧
      reference mergeKeySort appStore 1000000000 withForeign (asking query 5) = []) ∧
    (Lists (walk (listPage postgresStore 1000000000 withBackslash) (asking [92] 5)) 0 [] [] ∧
      reference mergeKeySort postgresStore 1000000000 withBackslash (asking [92] 5) =
        [⟨[97, 92, 98], 1, some 5000⟩]) := by
  have hexpired : walk (listPage appStore 1000000000 expiredFirst) (asking [] 1) 0 [] =
      .ok ⟨[⟨ascii "b", 1, some 5000⟩], [], false⟩ := rfl
  have hforeign : walk (listPage appStore 1000000000 withForeign) (asking [] 5) 0 [] =
      .ok ⟨[⟨ascii "ab", 1, some 5000⟩, ⟨ascii "web:k", 1, some 5000⟩], [], false⟩ := rfl
  have hmatched : ∀ query ∈ [ascii "_", ascii "B"],
      walk (listPage appStore 1000000000 withForeign) (asking query 5) 0 [] =
        .ok ⟨[⟨ascii "ab", 1, some 5000⟩], [], false⟩ := by decide +kernel
  have hmissed : walk (listPage postgresStore 1000000000 withBackslash) (asking [92] 5) 0 [] =
      .ok ⟨[], [], false⟩ := rfl
  refine ⟨⟨Lists.last hexpired rfl, ?_⟩, ⟨Lists.last hforeign rfl, ?_⟩,
    fun query hquery => ⟨Lists.last (hmatched query hquery) rfl, ?_⟩,
    ⟨Lists.last hmissed rfl, ?_⟩⟩
  · rw [reference_eq mergeKeySort (by decide)]
    rfl
  · rw [reference_eq mergeKeySort (by decide)]
    rfl
  · rw [reference_eq mergeKeySort (by decide)]
    revert query
    decide +kernel
  · rw [reference_eq mergeKeySort (by decide)]
    rfl

end Sql
end GoforjCache
