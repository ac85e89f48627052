import GoforjCache.Dynamo.Inspect
import GoforjCache.Redis.Inspect

/-!
# Drivers - What inspection lists

A client that follows the cursors of `ListPage` is to see every live key of the prefix that
contains the term, each of them once, and nothing else.  The Redis store lists a key as often as the
iteration of `SCAN` does, and the DynamoDB store lists the keys of other stores, whose prefix
it does not take off.

Main results:

- Theorem `inspection_once_iff`: under which conditions the two stores list what they are to
  list.
- Theorem `repeated_and_foreign`: a key that is listed twice, and a key of another store that
  is listed.
-/

namespace GoforjCache
namespace Drivers

open Foundation Foundation.Paging Inspect

/--
The Redis and the DynamoDB store list what they are to list under one condition each.  Take any
contents of the backends, any split into pages, any order and any options.

- The pages of the Redis store list each live key of the store that contains the term once, and
  nothing else, if every iteration lists each of them once.
- For iterations that are all alike, only then.
- The pages of the DynamoDB store list each live key of the store that contains the term once, and
  nothing else, if and only if the filter keeps the key of no live item of another store.
-/
theorem inspection_once_iff (opts : ListPageOptions) {redis : Redis.Config} {now : Instant}
    (R : Redis.Inspection redis now) {redisKeys : List Key} (hredis : redisKeys.Nodup)
    (hredisKeys : ∀ key, key ∈ redisKeys ↔ R.wanted opts key = true) (dynamo : Dynamo.Config)
    (now' : Instant) (D : Dynamo.Inspection) {dynamoKeys : List Key} (hdynamo : dynamoKeys.Nodup)
    (hdynamoKeys : ∀ key, key ∈ dynamoKeys ↔ D.wanted dynamo now' opts key = true) :
    ((∀ i, R.Once redisKeys i) → ListsKeys (R.page opts) redisKeys) ∧
    ((∀ i, (R.scan i).Perm (R.scan 0)) → (ListsKeys (R.page opts) redisKeys ↔ R.Once redisKeys 0)) ∧
    (ListsKeys (D.page dynamo now' opts) dynamoKeys ↔ ¬D.Foreign dynamo now' opts) :=
  ⟨R.lists_of_once opts hredis hredisKeys,
    fun hsame => R.lists_iff_once opts hsame hredis hredisKeys,
    D.lists_iff hdynamo hdynamoKeys⟩

/-! ## Samples -/

/-- The options with a term and a limit. -/
def asking (query : Bytes) (limit : Int64) : ListPageOptions := ⟨query, [], [], limit⟩

/-- The Redis store with the prefix `app`. -/
def redisStore : Redis.Config := .new .plain (ascii "app") 0

/-- A keyspace with these keys of that store. -/
def keyspaceOf (keys : List Key) : Redis.Keyspace := fun k =>
  if k ∈ keys.map (ascii "app:" ++ ·) then some ⟨ascii "v", none⟩ else none

theorem mem_own {keys : List Key} {key : Key} :
    ascii "app:" ++ key ∈ keys.map (ascii "app:" ++ ·) ↔ key ∈ keys :=
  List.mem_map_of_injective (List.append_right_injective (ascii "app:"))

theorem find_keyspaceOf (keys : List Key) (k : Key) :
    ((keyspaceOf keys).find 0 k).isSome = true ↔ k ∈ keys.map (ascii "app:" ++ ·) := by
  by_cases h : k ∈ keys.map (ascii "app:" ++ ·)
  · rw [Redis.Keyspace.find, keyspaceOf, if_pos h]
    exact iff_of_true rfl h
  · rw [Redis.Keyspace.find, keyspaceOf, if_neg h]
    exact iff_of_false Bool.false_ne_true h

/-- An iteration over that keyspace lists its keys. -/
theorem scanLists_keyspaceOf {keys ks : List Key}
    (h : ∀ k, k ∈ ks ↔ k ∈ keys.map (ascii "app:" ++ ·)) :
    Redis.ScanLists redisStore 0 (keyspaceOf keys) ks := by
  have hexact := (Redis.patternExact_iff redisStore).mpr (by decide +kernel)
  constructor
  · intro k hk
    rcases List.mem_map.mp ((h k).mp hk) with ⟨key, -, rfl⟩
    exact (hexact _).mpr ⟨key, rfl⟩
  · intro k _ hlive
    exact (h k).mpr ((find_keyspaceOf keys k).mp hlive)

theorem scanAll_keys (pages : List (List Key)) :
    Redis.scanAll (pages.map fun ks => .keys ks none) = .ok pages.flatten := by
  induction pages with
  | nil => rfl
  | cons ks pages ih =>
    rw [List.map_cons, Redis.scanAll, ih]
    rfl

/-- A client that follows the cursors while the iterations list these pages. -/
def iterating (keys : List Key) (pages : Nat → List (List Key))
    (hshort : ∀ i, (pages i).flatten.length < 2 ^ 62) : Redis.Inspection redisStore 0 where
  sort _ := mergeKeySort
  svc i := ⟨fun _ => none, (pages i).map fun ks => .keys ks none⟩
  keyspace _ := keyspaceOf keys
  scan i := (pages i).flatten
  client := by decide
  willing _ := rfl
  scanned i := scanAll_keys (pages i)
  short := hshort
  unchanged _ := rfl

/-- The keys of the store that contain the term are to be listed. -/
theorem wanted_iterating (keys : List Key) {pages : Nat → List (List Key)}
    (hshort : ∀ i, (pages i).flatten.length < 2 ^ 62) (opts : ListPageOptions) (key : Key) :
    key ∈ keys.filter (keeps (listFilterTerm opts)) ↔
      (iterating keys pages hshort).wanted opts key = true := by
  rw [List.mem_filter, Redis.Inspection.wanted, Bool.and_eq_true, and_comm]
  refine and_congr_right fun _ => ?_
  exact mem_own.symm.trans (find_keyspaceOf keys (ascii "app:" ++ key)).symm

/-- The DynamoDB store with the prefix `app`. -/
def dynamoStore : Dynamo.Config := ⟨ascii "app", DefaultTTL.normalize 0⟩

/-- An item that does not expire. -/
def lasting : Dynamo.Attributes := ⟨some (ascii "v"), none⟩

/-- The full keys of a table with keys of the store and others. -/
def tableKeys (own foreign : List Key) : List Key := own.map (ascii "app:" ++ ·) ++ foreign

theorem scanAll_ok (pages : List (List Key)) :
    Dynamo.scanAll (pages.map fun ks => .ok (ks.map (·, lasting))) =
      .ok (pages.flatten.map (·, lasting)) := by
  induction pages with
  | nil => rfl
  | cons ks pages ih =>
    rw [List.map_cons, Dynamo.scanAll, ih, List.flatten_cons, List.map_append]
    rfl

/-- A client that follows the cursors over a table with these keys. -/
def scanning (own foreign : List Key) (pages : Nat → List (List Key))
    (hnodup : (tableKeys own foreign).Nodup) (hshort : (tableKeys own foreign).length < 2 ^ 62)
    (hpages : ∀ i, (pages i).flatten.Perm (tableKeys own foreign)) : Dynamo.Inspection where
  sort _ := mergeKeySort
  table k := if k ∈ tableKeys own foreign then some lasting else none
  pages i := (pages i).map fun ks => .ok (ks.map (·, lasting))
  items i := (pages i).flatten.map (·, lasting)
  scanned i := scanAll_ok (pages i)
  distinct i := by
    have hfst : ((pages i).flatten.map (·, lasting)).map Prod.fst = (pages i).flatten := by
      rw [List.map_map]
      exact List.map_id _
    rw [hfst]
    exact (hpages i).nodup_iff.mpr hnodup
  complete i k item := by
    have hitem : (k, item) ∈ (pages i).flatten.map (·, lasting) ↔
        k ∈ tableKeys own foreign ∧ lasting = item := by
      rw [← (hpages i).mem_iff, List.mem_map]
      constructor
      · rintro ⟨_, hk, heq⟩
        cases heq
        exact ⟨hk, rfl⟩
      · rintro ⟨hk, rfl⟩
        exact ⟨k, hk, rfl⟩
    rw [hitem]
    by_cases hk : k ∈ tableKeys own foreign <;> simp [hk]
  short i := by
    rw [List.length_map, (hpages i).length_eq]
    exact hshort

section Tables

variable {own foreign : List Key} {pages : Nat → List (List Key)}
  {hnodup : (tableKeys own foreign).Nodup} {hshort : (tableKeys own foreign).length < 2 ^ 62}
  {hpages : ∀ i, (pages i).flatten.Perm (tableKeys own foreign)}

theorem live_scanning (k : Key) :
    (scanning own foreign pages hnodup hshort hpages).live 0 k = true ↔
      k ∈ tableKeys own foreign := by
  unfold Dynamo.Inspection.live scanning
  by_cases hk : k ∈ tableKeys own foreign
  · simp only [if_pos hk]
    exact iff_of_true rfl hk
  · simp only [if_neg hk]
    exact iff_of_false Bool.false_ne_true hk

variable (hforeign : ∀ k ∈ foreign, ¬ascii "app:" <+: k) (opts : ListPageOptions)

include hforeign

/-- The keys of the store that contain the term are to be listed. -/
theorem wanted_scanning (key : Key) :
    key ∈ own.filter (keeps (listFilterTerm opts)) ↔
      (scanning own foreign pages hnodup hshort hpages).wanted dynamoStore 0 opts key = true := by
  have hkey : Dynamo.cacheKey dynamoStore key = ascii "app:" ++ key := rfl
  rw [List.mem_filter, Dynamo.Inspection.wanted, Bool.and_eq_true, and_comm, live_scanning, hkey,
    tableKeys, List.mem_append, mem_own]
  refine and_congr_right fun _ => (or_iff_left fun h => ?_).symm
  exact hforeign _ h (List.prefix_append _ _)

/-- What is kept of other stores is what contains the term. -/
theorem foreign_scanning :
    (scanning own foreign pages hnodup hshort hpages).Foreign dynamoStore 0 opts ↔
      ∃ k ∈ foreign, keeps (listFilterTerm opts) k = true := by
  constructor
  · rintro ⟨k, hlive, hother, hkeeps⟩
    rcases List.mem_append.mp ((live_scanning k).mp hlive) with hown | hk
    · rcases List.mem_map.mp hown with ⟨key, -, heq⟩
      exact absurd heq.symm (hother key)
    · exact ⟨k, hk, hkeeps⟩
  · rintro ⟨k, hk, hkeeps⟩
    refine ⟨k, (live_scanning k).mpr (List.mem_append_right _ hk), ?_, hkeeps⟩
    rintro key rfl
    exact hforeign _ hk (List.prefix_append _ _)

end Tables

/-! ### Three keys -/

/-- Three keys of the store, on two pages or on three. -/
def twoOrders (i : Nat) : List (List Key) :=
  if i % 2 = 0 then [[ascii "app:a", ascii "app:ab"], [ascii "app:b"]]
  else [[ascii "app:b", ascii "app:ab"], [], [ascii "app:a"]]

theorem twoOrders_perm (i : Nat) :
    (twoOrders i).flatten.Perm ([ascii "a", ascii "ab", ascii "b"].map (ascii "app:" ++ ·)) := by
  unfold twoOrders
  split <;> decide

/-- Iterations over the three keys. -/
def threeKeys : Redis.Inspection redisStore 0 :=
  iterating [ascii "a", ascii "ab", ascii "b"] twoOrders fun i => by
    rw [(twoOrders_perm i).length_eq]
    decide

/-- A table with the three keys and an item of another store. -/
def mixedTable : Dynamo.Inspection :=
  scanning [ascii "a", ascii "ab", ascii "b"] [ascii "web:b"]
    (fun i => twoOrders i ++ [[ascii "web:b"]]) (by decide) (by decide) fun i => by
      rw [List.flatten_append]
      exact (twoOrders_perm i).append_right _

/-- No iteration repeats a key, and the item of the other store does not contain the term: both
stores list the two keys that do, one on each page. -/
theorem inspection_once_term :
    ListsKeys (threeKeys.page (asking (ascii "a") 1)) [ascii "a", ascii "ab"] ∧
      ListsKeys (mixedTable.page dynamoStore 0 (asking (ascii "a") 1))
        [ascii "a", ascii "ab"] := by
  have hforeign : ∀ k ∈ [ascii "web:b"], ¬ascii "app:" <+: k := by decide
  have hwanted := wanted_iterating [ascii "a", ascii "ab", ascii "b"] threeKeys.short
    (asking (ascii "a") 1)
  have hresult := inspection_once_iff (asking (ascii "a") 1) threeKeys (by decide) hwanted
    dynamoStore 0 mixedTable (by decide) (wanted_scanning hforeign (asking (ascii "a") 1))
  refine ⟨hresult.1 fun i => ?_, hresult.2.2.mpr ?_⟩
  · have hperm := twoOrders_perm i
    exact threeKeys.once_of_nodup _ hwanted (by decide +kernel)
      (scanLists_keyspaceOf fun k => hperm.mem_iff) (hperm.nodup_iff.mpr (by decide))
  · rw [mixedTable, foreign_scanning hforeign]
    decide

/-! ### A repeated key and a foreign one -/

/-- Iterations that list the only key twice. -/
def repeatedKey : Redis.Inspection redisStore 0 :=
  iterating [ascii "k"] (fun _ => [[ascii "app:k", ascii "app:k"]]) fun _ => by decide

/-- A table with one key of the store and one of another store. -/
def sharedTable : Dynamo.Inspection :=
  scanning [ascii "k"] [ascii "web:k"] (fun _ => [[ascii "app:k", ascii "web:k"]]) (by decide)
    (by decide) fun _ => by decide

/-- An iteration that lists the only key twice, as it may, makes the Redis store list it twice.  The
DynamoDB store lists its key and that of another store. -/
theorem repeated_and_foreign :
    (Redis.ScanLists redisStore 0 (keyspaceOf [ascii "k"]) (repeatedKey.scan 0) ∧
      (∀ key, key ∈ [ascii "k"] ↔ repeatedKey.wanted (asking [] 1) key = true) ∧
      ListsKeys (repeatedKey.page (asking [] 1)) [ascii "k", ascii "k"] ∧
      ¬ListsKeys (repeatedKey.page (asking [] 1)) [ascii "k"]) ∧
    ((∀ key, key ∈ [ascii "k"] ↔ sharedTable.wanted dynamoStore 0 (asking [] 1) key = true) ∧
      ListsKeys (sharedTable.page dynamoStore 0 (asking [] 1)) [ascii "k", ascii "web:k"] ∧
      ¬ListsKeys (sharedTable.page dynamoStore 0 (asking [] 1)) [ascii "k"]) := by
  have hforeign : ∀ k ∈ [ascii "web:k"], ¬ascii "app:" <+: k := by decide
  have hredis : ∀ key, key ∈ [ascii "k"] ↔ repeatedKey.wanted (asking [] 1) key = true :=
    wanted_iterating [ascii "k"] repeatedKey.short (asking [] 1)
  have hdynamo : ∀ key, key ∈ [ascii "k"] ↔
      sharedTable.wanted dynamoStore 0 (asking [] 1) key = true :=
    @wanted_scanning [ascii "k"] _ _ _ _ _ hforeign (asking [] 1)
  refine ⟨⟨scanLists_keyspaceOf fun k => ?_, hredis, ?_, ?_⟩, hdynamo, ?_, ?_⟩
  · exact (List.mem_cons.trans (or_iff_right_of_imp fun h => List.mem_singleton.mpr h))
  · exact lists_collected (repeatedKey.page_eq _) (by decide) fun _ => List.Perm.refl _
  · rw [repeatedKey.lists_iff_once _ (fun _ => List.Perm.refl _) (by decide) hredis]
    intro honce
    exact absurd (honce (ascii "k") (List.mem_singleton_self _)) (by decide)
  · exact lists_collected (sharedTable.page_eq _ _ _) (by decide) fun _ => List.Perm.refl _
  · rw [sharedTable.lists_iff (by decide) hdynamo, not_not, sharedTable, foreign_scanning hforeign]
    decide

end Drivers
end GoforjCache
