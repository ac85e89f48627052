import GoforjCache.Dynamo.Store

/-!
# DynamoDB - Bulk deletion

`DeleteMany` sends its keys in batches of 25, and `Flush` sends the keys of every page of
`Scan` the same way.  The service rejects a batch that names a key twice, and a batch that it
accepts may stay partly unprocessed.  The store neither removes repeated keys from a batch nor looks
at what stayed unprocessed.

Main results:

- Theorem `deleteBatches_eq`: `DeleteMany` sends the batches of its keys, one after the
  other.
- Theorem `flushPages_eq`: `Flush` sends the batches of all pages, up to a `Scan` that fails.
- Theorem `bulk_deletion_iff`: both are complete exactly when no batch names a key twice and
  every deletion is processed.
- Theorem `bulk_deletion_fails`: a repeated key, a foreign item and an unprocessed request each
  break it.
-/

namespace GoforjCache
namespace Dynamo

open Foundation

/-! ## Batches -/

/-- The batches of a list of keys, at most `fuel` of them. -/
def batches : Nat → List Key → List (List Key)
  | 0, _ => []
  | fuel + 1, keys =>
    if keys = [] then [] else keys.take maxBatch :: batches fuel (keys.drop maxBatch)

/-- The calls of a bulk deletion in turn: a batch of keys, or a `Scan` that fails. -/
abbrev Calls := List (Except CacheError (List Key))

/-- The batches of `DeleteMany`, by the full text of the keys. -/
def deleteNames (cfg : Config) (keys : List Key) : Calls :=
  (batches keys.length keys).map fun batch => .ok (batch.map (cacheKey cfg))

/-- The batches of `Flush`, from the pages of `Scan`. -/
def flushNames (cfg : Config) (pages : List (Except CacheError (List Key))) : Calls :=
  pages.flatMap fun
    | .error err => [.error err]
    | .ok ks => deleteNames cfg (ks.map (flushKey cfg))

/-- Calls made one after the other, from the `n`-th batch on; the first error ends it. -/
def sendBatches (svc : Service) : Nat → Table → Calls → Table × Option CacheError
  | _, t, [] => (t, none)
  | _, t, .error err :: _ => (t, some err)
  | n, t, .ok ks :: rest =>
    match batchDelete (svc.batch n) t ks with
    | .error err => (t, some err)
    | .ok t' => sendBatches svc (n + 1) t' rest

variable {fuel : Nat} {keys : List Key}

/-- Fuel for a list is fuel for what is left after a batch. -/
theorem length_drop_maxBatch (hnil : keys ≠ []) (hfuel : keys.length ≤ fuel + 1) :
    (keys.drop maxBatch).length ≤ fuel := by
  have hpos : 0 < keys.length := List.length_pos_iff.mpr hnil
  rw [List.length_drop, maxBatch]
  omega

theorem mem_batches (hfuel : keys.length ≤ fuel) (key : Key) :
    (∃ batch ∈ batches fuel keys, key ∈ batch) ↔ key ∈ keys := by
  induction fuel generalizing keys with
  | zero =>
    have hnil : keys = [] := List.length_eq_zero_iff.mp (by omega)
    simp [hnil, batches]
  | succ fuel ih =>
    by_cases hnil : keys = []
    · simp [hnil, batches]
    · have hrest := length_drop_maxBatch hnil hfuel
      have hsplit : key ∈ keys ↔ key ∈ keys.take maxBatch ∨ key ∈ keys.drop maxBatch := by
        rw [← List.mem_append, List.take_append_drop]
      rw [batches, if_neg hnil, hsplit, ← ih hrest]
      simp only [List.mem_cons, exists_eq_or_imp]

theorem length_batches (hfuel : keys.length ≤ fuel) :
    (batches fuel keys).length = batchCount keys.length := by
  induction fuel generalizing keys with
  | zero =>
    have hzero : keys.length = 0 := by omega
    rw [hzero]
    rfl
  | succ fuel ih =>
    by_cases hnil : keys = []
    · rw [hnil]
      rfl
    · have hpos : 0 < keys.length := List.length_pos_iff.mpr hnil
      rw [batches, if_neg hnil, List.length_cons, ih (length_drop_maxBatch hnil hfuel),
        List.length_drop]
      unfold batchCount maxBatch
      omega

theorem mem_deleteNames {cfg : Config} {k : Key} :
    (∃ ks, .ok ks ∈ deleteNames cfg keys ∧ k ∈ ks) ↔ ∃ key ∈ keys, cacheKey cfg key = k := by
  constructor
  · rintro ⟨ks, hks, hk⟩
    rcases List.mem_map.mp hks with ⟨batch, hbatch, heq⟩
    cases heq
    rcases List.mem_map.mp hk with ⟨key, hkey, heq⟩
    exact ⟨key, (mem_batches le_rfl key).mp ⟨batch, hbatch, hkey⟩, heq⟩
  · rintro ⟨key, hkey, heq⟩
    rcases (mem_batches le_rfl key).mpr hkey with ⟨batch, hbatch, hmem⟩
    exact ⟨_, List.mem_map_of_mem hbatch, List.mem_map.mpr ⟨key, hmem, heq⟩⟩

theorem length_deleteNames (cfg : Config) (keys : List Key) :
    (deleteNames cfg keys).length = batchCount keys.length := by
  rw [deleteNames, List.length_map, length_batches le_rfl]

/-! ## What is sent -/

section Sending

variable {svc : Service} {cfg : Config} {n : Nat} {t : Table}

/-- The loop of `DeleteMany` sends the batches of its keys. -/
theorem deleteBatches_eq (fuel : Nat) (keys : List Key) :
    deleteBatches svc cfg n fuel t keys = sendBatches svc n t
      ((batches fuel keys).map fun batch => .ok (batch.map (cacheKey cfg))) := by
  induction fuel generalizing n t keys with
  | zero => rfl
  | succ fuel ih =>
    by_cases hnil : keys = []
    · rw [hnil]
      rfl
    · rw [deleteBatches, if_neg hnil, batches, if_neg hnil, List.map_cons, sendBatches]
      cases batchDelete (svc.batch n) t ((keys.take maxBatch).map (cacheKey cfg)) with
      | error err => rfl
      | ok t' => exact ih (keys.drop maxBatch)

/-- `DeleteMany` sends the batches of its keys. -/
theorem deleteMany_eq (keys : List Key) :
    deleteMany svc cfg n t keys = sendBatches svc n t (deleteNames cfg keys) :=
  deleteBatches_eq keys.length keys

/-- More calls after the first ones. -/
theorem sendBatches_append (first rest : Calls) :
    sendBatches svc n t (first ++ rest) =
      match sendBatches svc n t first with
      | (t', some err) => (t', some err)
      | (t', none) => sendBatches svc (n + first.length) t' rest := by
  induction first generalizing n t with
  | nil => rfl
  | cons call first ih =>
    cases call with
    | error err => rfl
    | ok ks =>
      rw [List.cons_append, sendBatches, sendBatches]
      cases batchDelete (svc.batch n) t ks with
      | error err => rfl
      | ok t' =>
        dsimp only
        rw [ih, List.length_cons]
        have hcount : n + 1 + first.length = n + (first.length + 1) := by omega
        rw [hcount]

/-- `Flush` makes the calls of all pages. -/
theorem flushPages_eq (pages : List (Except CacheError (List Key))) :
    flushPages svc cfg n pages t = sendBatches svc n t (flushNames cfg pages) := by
  induction pages generalizing n t with
  | nil => rfl
  | cons page pages ih =>
    cases page with
    | error err => rfl
    | ok ks =>
      rw [flushPages, deleteMany_eq, flushNames, List.flatMap_cons, sendBatches_append,
        length_deleteNames, List.length_map]
      rcases sendBatches svc n t (deleteNames cfg (ks.map (flushKey cfg))) with ⟨t', _ | err⟩
      · exact ih
      · rfl

end Sending

/-! ## What the service does with the batches -/

/-- The service does not fail the call itself. -/
def Service.accepts (svc : Service) (n : Nat) : Prop := ∃ unprocessed, svc.batch n = .ok unprocessed

/-- The service processes the deletion of a key in one call. -/
def Service.processes (svc : Service) (n : Nat) (k : Key) : Prop :=
  ∃ unprocessed, svc.batch n = .ok unprocessed ∧ unprocessed k = false

/-- No call that is made fails, from the `n`-th batch on.  A batch that names a key twice is
rejected, so that no call is made after it. -/
def Service.acceptsMade (svc : Service) : Nat → Calls → Prop
  | _, [] => True
  | _, .error _ :: _ => False
  | n, .ok ks :: rest => svc.accepts n ∧ (ks.Nodup → svc.acceptsMade (n + 1) rest)

/-- No batch names a key twice. -/
def Distinct (names : Calls) : Prop := ∀ ks, .ok ks ∈ names → ks.Nodup

/-- Some batch that names the key has its deletion processed. -/
def Processed (svc : Service) (n : Nat) (names : Calls) (k : Key) : Prop :=
  ∃ i ks, names[i]? = some (.ok ks) ∧ k ∈ ks ∧ svc.processes (n + i) k

section Sent

variable {svc : Service} {n : Nat} {t : Table} {k : Key} {ks : List Key} {names : Calls}

/-- One batch succeeds when the service accepts it and it names no key twice. -/
theorem batchDelete_eq_ok {t' : Table} :
    batchDelete (svc.batch n) t ks = .ok t' ↔
      ks.Nodup ∧ ∃ unprocessed, svc.batch n = .ok unprocessed ∧
        t' = fun k => if k ∈ ks ∧ unprocessed k = false then none else t k := by
  unfold batchDelete
  cases svc.batch n with
  | error err =>
    constructor
    · intro h
      cases h
    · rintro ⟨-, _, ⟨⟩, -⟩
  | ok unprocessed =>
    dsimp only
    by_cases hnodup : ks.Nodup
    · rw [if_pos hnodup]
      constructor
      · intro h
        exact ⟨hnodup, unprocessed, rfl, (Except.ok.inj h).symm⟩
      · rintro ⟨-, _, ⟨⟩, rfl⟩
        rfl
    · rw [if_neg hnodup]
      constructor
      · intro h
        cases h
      · rintro ⟨hyes, -⟩
        exact absurd hyes hnodup

theorem distinct_cons : Distinct (.ok ks :: names) ↔ ks.Nodup ∧ Distinct names := by
  simp only [Distinct, List.mem_cons, Except.ok.injEq, forall_eq_or_imp]

theorem processed_cons :
    Processed svc n (.ok ks :: names) k ↔
      (k ∈ ks ∧ svc.processes n k) ∨ Processed svc (n + 1) names k := by
  constructor
  · rintro ⟨i, ks', hks, hk, hprocesses⟩
    cases i with
    | zero =>
      cases hks
      exact Or.inl ⟨hk, hprocesses⟩
    | succ i =>
      rw [show n + (i + 1) = n + 1 + i by omega] at hprocesses
      exact Or.inr ⟨i, ks', hks, hk, hprocesses⟩
  · rintro (⟨hk, hprocesses⟩ | ⟨i, ks', hks, hk, hprocesses⟩)
    · exact ⟨0, ks, rfl, hk, hprocesses⟩
    · refine ⟨i + 1, ks', hks, hk, ?_⟩
      rw [show n + (i + 1) = n + 1 + i by omega]
      exact hprocesses

/-- The calls go through exactly when none that is made fails and no batch names a key twice. -/
theorem sendBatches_eq_none_iff (names : Calls) :
    (sendBatches svc n t names).2 = none ↔ svc.acceptsMade n names ∧ Distinct names := by
  induction names generalizing n t with
  | nil => exact iff_of_true rfl ⟨trivial, fun ks hks => absurd hks List.not_mem_nil⟩
  | cons call names ih =>
    cases call with
    | error err => exact iff_of_false nofun fun h => h.1
    | ok ks =>
      rw [sendBatches, Service.acceptsMade, distinct_cons]
      cases hbatch : batchDelete (svc.batch n) t ks with
      | error err =>
        dsimp only
        constructor
        · intro h
          cases h
        · rintro ⟨⟨⟨unprocessed, haccepts⟩, -⟩, hnodup, -⟩
          have hok := (batchDelete_eq_ok (t := t)).mpr ⟨hnodup, unprocessed, haccepts, rfl⟩
          rw [hbatch] at hok
          cases hok
      | ok t' =>
        rcases batchDelete_eq_ok.mp hbatch with ⟨hnodup, unprocessed, haccepts, -⟩
        dsimp only
        rw [ih]
        constructor
        · rintro ⟨hall, hnames⟩
          exact ⟨⟨⟨unprocessed, haccepts⟩, fun _ => hall⟩, hnodup, hnames⟩
        · rintro ⟨⟨-, hall⟩, -, hnames⟩
          exact ⟨hall hnodup, hnames⟩

/-- After calls that went through, exactly the processed keys have lost their items. -/
theorem sendBatches_table (h : (sendBatches svc n t names).2 = none) :
    (Processed svc n names k → (sendBatches svc n t names).1 k = none) ∧
      (¬Processed svc n names k → (sendBatches svc n t names).1 k = t k) := by
  induction names generalizing n t with
  | nil =>
    constructor
    · rintro ⟨i, ks, hks, -⟩
      cases hks
    · intro _
      rfl
  | cons call names ih =>
    rcases call with err | ks
    · cases h
    rw [sendBatches] at h ⊢
    cases hbatch : batchDelete (svc.batch n) t ks with
    | error err =>
      rw [hbatch] at h
      cases h
    | ok t' =>
      rw [hbatch] at h
      rcases batchDelete_eq_ok.mp hbatch with ⟨-, unprocessed, haccepts, rfl⟩
      rcases ih h with ⟨hgone, hkept⟩
      have hprocesses : svc.processes n k ↔ unprocessed k = false := by
        unfold Service.processes
        rw [haccepts]
        simp
      rw [processed_cons, hprocesses]
      by_cases hrest : Processed svc (n + 1) names k
      · exact ⟨fun _ => hgone hrest, fun hnot => absurd (Or.inr hrest) hnot⟩
      · by_cases hfirst : k ∈ ks ∧ unprocessed k = false
        · constructor
          · intro _
            exact (hkept hrest).trans (if_pos hfirst)
          · intro hnot
            exact absurd (Or.inl hfirst) hnot
        · constructor
          · rintro (hyes | hyes)
            · exact absurd hyes hfirst
            · exact absurd hyes hrest
          · intro _
            exact (hkept hrest).trans (if_neg hfirst)

/-- A key has no item after calls that went through, if it had none or its deletion was
processed. -/
theorem sendBatches_gone_iff (h : (sendBatches svc n t names).2 = none) :
    (sendBatches svc n t names).1 k = none ↔ t k = none ∨ Processed svc n names k := by
  by_cases hprocessed : Processed svc n names k
  · exact ⟨fun _ => Or.inr hprocessed, fun _ => (sendBatches_table h).1 hprocessed⟩
  · rw [(sendBatches_table h).2 hprocessed]
    constructor
    · exact Or.inl
    · rintro (hnone | hyes)
      · exact hnone
      · exact absurd hyes hprocessed

end Sent

/-! ## Completeness -/

/-- The key is one of the store. -/
def Owned (cfg : Config) (k : Key) : Prop := ∃ key, cacheKey cfg key = k

/-- `DeleteMany` is complete: when it returns `nil`, none of the listed keys has an item,
and when the service fails none of the calls that it makes, it returns `nil`. -/
def DeletesAll (svc : Service) (cfg : Config) (t : Table) (keys : List Key) : Prop :=
  ((deleteMany svc cfg 0 t keys).2 = none →
    ∀ key ∈ keys, (deleteMany svc cfg 0 t keys).1 (cacheKey cfg key) = none) ∧
  (svc.acceptsMade 0 (deleteNames cfg keys) → (deleteMany svc cfg 0 t keys).2 = none)

/-- `Flush` is complete: when it returns `nil`, no key of the store that had an item has
one, and when the service fails none of the calls that it makes, it returns `nil`. -/
def FlushesAll (svc : Service) (cfg : Config) (t : Table)
    (pages : List (Except CacheError (List Key))) : Prop :=
  ((flushPages svc cfg 0 pages t).2 = none →
    ∀ k, Owned cfg k → t k ≠ none → (flushPages svc cfg 0 pages t).1 k = none) ∧
  (svc.acceptsMade 0 (flushNames cfg pages) → (flushPages svc cfg 0 pages t).2 = none)

/-- The pages of `Scan` list every item that is there from the beginning to the end. -/
def ScanLists (svc : Service) (cfg : Config) (t : Table)
    (pages : List (Except CacheError (List Key))) : Prop :=
  (flushPages svc cfg 0 pages t).2 = none → ∀ k, t k ≠ none →
    (flushPages svc cfg 0 pages t).1 k ≠ none → ∃ ks, .ok ks ∈ pages ∧ k ∈ ks

variable {cfg : Config} {k : Key}

/-- The full key of the logical key of an item of the store is its own. -/
theorem cacheKey_flushKey (h : Owned cfg k) : cacheKey cfg (flushKey cfg k) = k := by
  rcases h with ⟨key, rfl⟩
  by_cases hempty : cfg.keyPrefix = []
  · unfold flushKey cacheKey
    simp [hempty]
  · have hkey : ∀ key, cacheKey cfg key = cfg.keyPrefix ++ ascii ":" ++ key :=
      fun key => if_neg hempty
    have hpre :
        (cfg.keyPrefix ++ ascii ":").isPrefixOf (cfg.keyPrefix ++ ascii ":" ++ key) = true :=
      List.isPrefixOf_iff_prefix.mpr (List.prefix_append _ _)
    rw [hkey key, flushKey, if_pos ⟨hempty, hpre⟩, List.drop_left, hkey]

/-- What `Flush` names is the key of an item that a page lists. -/
theorem mem_flushNames_iff {pages : List (Except CacheError (List Key))} :
    (∃ names, .ok names ∈ flushNames cfg pages ∧ k ∈ names) ↔
      ∃ ks, .ok ks ∈ pages ∧ ∃ k' ∈ ks, cacheKey cfg (flushKey cfg k') = k := by
  have hpage : ∀ ks : List Key, (∃ key ∈ ks.map (flushKey cfg), cacheKey cfg key = k) ↔
      ∃ k' ∈ ks, cacheKey cfg (flushKey cfg k') = k := by
    intro ks
    simp only [List.mem_map, exists_exists_and_eq_and]
  constructor
  · rintro ⟨names, hnames, hk⟩
    rcases List.mem_flatMap.mp hnames with ⟨err | ks, hks, hmem⟩
    · cases List.mem_singleton.mp hmem
    · exact ⟨ks, hks, (hpage ks).mp (mem_deleteNames.mp ⟨names, hmem, hk⟩)⟩
  · rintro ⟨ks, hks, hk⟩
    rcases mem_deleteNames.mpr ((hpage ks).mpr hk) with ⟨names, hnames, hmem⟩
    exact ⟨names, List.mem_flatMap.mpr ⟨.ok ks, hks, hnames⟩, hmem⟩

/-- The keys that the batches of `Flush` name are keys of the store. -/
theorem owned_of_named {pages : List (Except CacheError (List Key))} {names : List Key}
    (hnames : .ok names ∈ flushNames cfg pages) (hk : k ∈ names) : Owned cfg k := by
  rcases mem_flushNames_iff.mp ⟨names, hnames, hk⟩ with ⟨-, -, k', -, heq⟩
  exact ⟨flushKey cfg k', heq⟩

/-- The condition on the calls: unless one that is made fails, no batch names a key twice, and every
named key that has an item has its deletion processed. -/
def Cleared (svc : Service) (t : Table) (names : Calls) : Prop :=
  svc.acceptsMade 0 names →
    Distinct names ∧ ∀ ks, .ok ks ∈ names → ∀ k ∈ ks, t k ≠ none → Processed svc 0 names k

section Complete

variable {svc : Service} {cfg : Config} {t : Table}

/-- The condition in terms of what is sent: when the calls go through, no named key has an item, and
when none that is made fails, they go through. -/
theorem cleared_iff (names : Calls) :
    Cleared svc t names ↔
      ((sendBatches svc 0 t names).2 = none →
        ∀ ks, .ok ks ∈ names → ∀ k ∈ ks, (sendBatches svc 0 t names).1 k = none) ∧
      (svc.acceptsMade 0 names → (sendBatches svc 0 t names).2 = none) := by
  constructor
  · intro hcleared
    constructor
    · intro hnil ks hks k hk
      rw [sendBatches_gone_iff hnil]
      by_cases hitem : t k = none
      · exact Or.inl hitem
      · have haccepts := ((sendBatches_eq_none_iff names).mp hnil).1
        exact Or.inr ((hcleared haccepts).2 ks hks k hk hitem)
    · intro haccepts
      exact (sendBatches_eq_none_iff names).mpr ⟨haccepts, (hcleared haccepts).1⟩
  · rintro ⟨hgone, hreturns⟩ haccepts
    have hnil := hreturns haccepts
    refine ⟨((sendBatches_eq_none_iff names).mp hnil).2, ?_⟩
    intro ks hks k hk hitem
    exact ((sendBatches_gone_iff hnil).mp (hgone hnil ks hks k hk)).resolve_left hitem

/-- When `DeleteMany` is complete. -/
theorem deletesAll_iff (keys : List Key) :
    DeletesAll svc cfg t keys ↔ Cleared svc t (deleteNames cfg keys) := by
  rw [cleared_iff, DeletesAll, deleteMany_eq]
  refine and_congr_left fun _ => forall_congr' fun hnil => ?_
  constructor
  · intro hgone ks hks k hk
    rcases mem_deleteNames.mp ⟨ks, hks, hk⟩ with ⟨key, hkey, rfl⟩
    exact hgone key hkey
  · intro hgone key hkey
    rcases mem_deleteNames.mpr ⟨key, hkey, rfl⟩ with ⟨ks, hks, hk⟩
    exact hgone ks hks _ hk

/-- When `Flush` is complete. -/
theorem flushesAll_iff {pages : List (Except CacheError (List Key))}
    (hscan : ScanLists svc cfg t pages) :
    FlushesAll svc cfg t pages ↔ Cleared svc t (flushNames cfg pages) := by
  rw [cleared_iff, FlushesAll]
  unfold ScanLists at hscan
  rw [flushPages_eq] at hscan ⊢
  refine and_congr_left fun _ => forall_congr' fun hnil => ?_
  constructor
  · intro hgone names hnames k hk
    by_cases hitem : t k = none
    · exact (sendBatches_gone_iff hnil).mpr (Or.inl hitem)
    · exact hgone k (owned_of_named hnames hk) hitem
  · intro hgone k howned hitem
    by_contra hleft
    -- an item that is left was listed, so a batch has named it
    rcases hscan hnil k hitem hleft with ⟨ks, hks, hk⟩
    rcases mem_flushNames_iff.mpr ⟨ks, hks, k, hk, cacheKey_flushKey howned⟩ with
      ⟨names, hnames, hmem⟩
    exact hleft (hgone names hnames k hmem)

end Complete

/--
Bulk deletion is complete under one condition on its batches of 25, for every service, every table
and every list of keys or paging of `Scan`: unless the service fails one of the calls that are made,
no batch names a key twice, and every key that is named and has an item has its deletion processed
in a batch that names it.
-/
theorem bulk_deletion_iff (svc : Service) (cfg : Config) (t : Table) :
    (∀ keys, DeletesAll svc cfg t keys ↔ Cleared svc t (deleteNames cfg keys)) ∧
    (∀ pages, ScanLists svc cfg t pages →
      (FlushesAll svc cfg t pages ↔ Cleared svc t (flushNames cfg pages))) :=
  ⟨deletesAll_iff, fun _ hscan => flushesAll_iff hscan⟩

/-! ## Batches that go wrong -/

/-- A store with prefix `app`. -/
def sampleConfig : Config := ⟨ascii "app", DefaultTTL.normalize 0⟩

/-- An item that does not expire. -/
def sampleItem : Attributes := ⟨some (ascii "v"), none⟩

/-- A table with an item under each key of a list. -/
def tableOf (ks : List Key) : Table := fun k => if k ∈ ks then some sampleItem else none

/-- A service that accepts every batch and leaves it unprocessed. -/
def idleService : Service := ⟨fun _ _ => none, fun _ => .ok fun _ => true⟩

/-- Pages that name every item list the table. -/
theorem scanLists_tableOf {svc : Service} {cfg : Config} {ks : List Key}
    {pages : List (Except CacheError (List Key))}
    (h : ∀ k ∈ ks, ∃ page, .ok page ∈ pages ∧ k ∈ page) : ScanLists svc cfg (tableOf ks) pages := by
  intro _ k hitem _
  apply h k
  by_contra hk
  exact hitem (if_neg hk)

/-- A service that processes everything clears batches without repetitions. -/
theorem cleared_willing {t : Table} {names : Calls} (h : Distinct names) :
    Cleared .willing t names := by
  refine fun _ => ⟨h, fun ks hks k hk _ => ?_⟩
  rcases List.getElem?_of_mem hks with ⟨i, hi⟩
  exact ⟨i, ks, hi, hk, _, rfl, rfl⟩

/-- Three items of the store and one of another application, on two pages. -/
def sampleKeys : List Key := [ascii "app:a", ascii "app:b", ascii "web:a", ascii "app:c"]

/-- The pages of `Scan` over them. -/
def samplePages : List (Except CacheError (List Key)) :=
  [.ok [ascii "app:a", ascii "app:b"], .ok [ascii "web:a", ascii "app:c"]]

theorem scanLists_sample : ScanLists .willing sampleConfig (tableOf sampleKeys) samplePages := by
  apply scanLists_tableOf
  intro k hk
  have hpages : k ∈ [ascii "app:a", ascii "app:b"] ∨ k ∈ [ascii "web:a", ascii "app:c"] :=
    List.mem_append.mp hk
  rcases hpages with hfirst | hsecond
  · exact ⟨_, List.mem_cons_self, hfirst⟩
  · exact ⟨_, List.mem_cons_of_mem _ List.mem_cons_self, hsecond⟩

/-- Its batches are processed; the second one names a key that has no item. -/
theorem cleared_sample :
    Cleared .willing (tableOf sampleKeys) (flushNames sampleConfig samplePages) := by
  have hnames : flushNames sampleConfig samplePages =
      [.ok [ascii "app:a", ascii "app:b"], .ok [ascii "app:web:a", ascii "app:c"]] := by
    decide
  rw [hnames]
  apply cleared_willing
  rw [distinct_cons, distinct_cons]
  exact ⟨by decide, by decide, fun ks hks => absurd hks List.not_mem_nil⟩

/-- `DeleteMany` of two keys, and `Flush` of a table that is shared with another application, are
complete. -/
theorem bulk_deletion_shared :
    DeletesAll .willing sampleConfig (tableOf sampleKeys) [ascii "a", ascii "c"] ∧
      FlushesAll .willing sampleConfig (tableOf sampleKeys) samplePages := by
  have hiff := bulk_deletion_iff .willing sampleConfig (tableOf sampleKeys)
  refine ⟨(hiff.1 _).mpr (cleared_willing ?_), (hiff.2 _ scanLists_sample).mpr cleared_sample⟩
  intro ks hks
  cases List.mem_singleton.mp hks
  decide

/-- A service that fails no call and processes everything rejects a list that names a key twice, and
a page with an item of the store and one without a prefix that leads to the same key; and a service
that leaves its requests unprocessed leaves the item of a key after a `DeleteMany` that returns
`nil`. -/
theorem bulk_deletion_fails :
    ¬DeletesAll .willing sampleConfig (tableOf [ascii "app:k"]) [ascii "k", ascii "k"] ∧
    ¬FlushesAll .willing sampleConfig (tableOf [ascii "app:k", ascii "k"])
      [.ok [ascii "app:k", ascii "k"]] ∧
    ¬DeletesAll idleService sampleConfig (tableOf [ascii "app:k"]) [ascii "k"] := by
  refine ⟨?_, ?_, ?_⟩
  · rintro ⟨-, hreturns⟩
    exact absurd (hreturns ⟨⟨_, rfl⟩, fun _ => trivial⟩) (by decide)
  · rintro ⟨-, hreturns⟩
    exact absurd (hreturns ⟨⟨_, rfl⟩, fun _ => trivial⟩) (by decide)
  · rintro ⟨hgone, -⟩
    exact absurd (hgone (by decide) (ascii "k") (List.mem_singleton.mpr rfl)) (by decide)

end Dynamo
end GoforjCache
