import GoforjCache.Nats.Store

/-!
# NATS - Flush and inspection stay in the scope of their prefix

Several stores share a bucket, each with a prefix of its own.  `Flush` and `ListPage` list
all keys of the bucket and pick those that begin with the scope of the store.

Main results:

- Theorem `purgeListed_spec`: `Flush` purges the listed keys of its own store and no
  others.
- Theorem `collect_keys`: `ListPage` reports each listed key of its own store that holds
  something, under the key that the caller knows.
- Theorem `nats_keys_scoped`: the encoding, and both of these.
-/

namespace GoforjCache
namespace Nats

open Foundation

/-- The bucket keys of prefixes and keys. -/
def fullKeys (listed : List (Bytes × Key)) : List Key := listed.map fun x => cacheKey x.1 x.2

variable {cfg : Config}

/-- The test of `Flush` and `ListPage` for a key of the own store. -/
theorem scope_isPrefixOf (q : Bytes) (l : Key) :
    cfg.scope.isPrefixOf (cacheKey q l) = decide (cfg.keyPrefix = q) := by
  rw [Bool.eq_iff_iff, List.isPrefixOf_iff_prefix, decide_eq_true_eq]
  exact scope_cacheKey_iff

/-! ## Flush -/

/-- `Flush` puts no value anywhere. -/
theorem purgeListed_none (ks : List Key) {b : Bucket} {k : Key} (h : (b k).register.value = none) :
    ((purgeListed cfg ks b).1 k).register.value = none := by
  induction ks generalizing b with
  | nil => exact h
  | cons k' ks ih =>
    rw [purgeListed]
    split
    · unfold kvPurge Config.request
      cases cfg.refuses .purge k' with
      | some err => exact h
      | none =>
        apply ih
        by_cases heq : k = k'
        · subst heq
          exact cfg.value_write b k none
        · rw [cfg.write_of_ne heq]
          exact h
    · exact ih h

theorem purgeListed_own (l : Key) (listed : List (Bytes × Key)) (b : Bucket) :
    purgeListed cfg (fullKeys ((cfg.keyPrefix, l) :: listed)) b =
      match cfg.refuses .purge (cfg.cacheKey l) with
      | some err => (b, some err)
      | none => purgeListed cfg (fullKeys listed) (cfg.write b (cfg.cacheKey l) none) := by
  rw [fullKeys, List.map_cons, purgeListed, scope_isPrefixOf, if_pos (decide_eq_true rfl), kvPurge,
    Config.request, Config.cacheKey]
  cases cfg.refuses .purge (cacheKey cfg.keyPrefix l) <;> rfl

/-- A listed key of another store. -/
theorem purgeListed_foreign {q : Bytes} (hforeign : cfg.keyPrefix ≠ q) (l : Key)
    (listed : List (Bytes × Key)) (b : Bucket) :
    purgeListed cfg (fullKeys ((q, l) :: listed)) b = purgeListed cfg (fullKeys listed) b := by
  rw [fullKeys, List.map_cons, purgeListed, scope_isPrefixOf,
    if_neg (fun h => hforeign (of_decide_eq_true h))]
  rfl

/-- `Flush` purges the listed keys of its own store and no others. -/
theorem purgeListed_spec (cfg : Config) (listed : List (Bytes × Key)) (b : Bucket) :
    (∀ k, (∀ l, (cfg.keyPrefix, l) ∈ listed → k ≠ cfg.cacheKey l) →
      (purgeListed cfg (fullKeys listed) b).1 k = b k) ∧
    ((purgeListed cfg (fullKeys listed) b).2 = none → ∀ l, (cfg.keyPrefix, l) ∈ listed →
      ((purgeListed cfg (fullKeys listed) b).1 (cfg.cacheKey l)).register.value = none) := by
  induction listed generalizing b with
  | nil => exact ⟨fun _ _ => rfl, fun _ _ h => by cases h⟩
  | cons x listed ih =>
    obtain ⟨q, l₀⟩ := x
    by_cases hown : cfg.keyPrefix = q
    · subst hown
      rw [purgeListed_own]
      cases cfg.refuses .purge (cfg.cacheKey l₀) with
      | some err => exact ⟨fun _ _ => rfl, fun h => by cases h⟩
      | none =>
        obtain ⟨hothers, hgone⟩ := ih (cfg.write b (cfg.cacheKey l₀) none)
        constructor
        · intro k hk
          dsimp only
          rw [hothers k fun l hl => hk l (List.mem_cons_of_mem _ hl),
            cfg.write_of_ne (hk l₀ List.mem_cons_self)]
        · intro hnil l hl
          rcases List.mem_cons.mp hl with heq | hl
          · cases heq
            exact purgeListed_none _ (cfg.value_write b (cfg.cacheKey l₀) none)
          · exact hgone hnil l hl
    · rw [purgeListed_foreign hown]
      obtain ⟨hothers, hgone⟩ := ih b
      refine ⟨fun k hk => hothers k fun l hl => hk l (List.mem_cons_of_mem _ hl), ?_⟩
      intro hnil l hl
      rcases List.mem_cons.mp hl with heq | hl
      · exact absurd (Prod.mk.inj heq).1 hown
      · exact hgone hnil l hl

/-- On a bucket that refuses nothing every purge is made. -/
theorem purgeListed_ok (h : cfg.Willing) (ks : List Key) (b : Bucket) :
    (purgeListed cfg ks b).2 = none := by
  induction ks generalizing b with
  | nil => rfl
  | cons k ks ih =>
    rw [purgeListed, kvPurge, h.request]
    split <;> exact ih _

/-- `Flush` of a listing: the purges, and then the errors of the listing. -/
theorem flush_keys (b : Bucket) (ks : List Key) (errs : List CacheError) :
    flush cfg b (.keys ks errs) =
      ((purgeListed cfg ks b).1, (purgeListed cfg ks b).2.or errs.head?) := by
  rw [flush]
  generalize purgeListed cfg ks b = r
  rcases r with ⟨b', _ | err⟩ <;> rfl

/-! ## Inspection -/

/-- `Get` finds a value. -/
def hits (cfg : Config) (now : Instant) (b : Bucket) (key : Key) : Bool :=
  match (get cfg now b key).2 with
  | .ok (some _) => true
  | _ => false

/-- `Get` answers from the entry of its key. -/
theorem hits_congr {now : Instant} {b b' : Bucket} {key : Key}
    (h : kvGet cfg b' (cfg.cacheKey key) = kvGet cfg b (cfg.cacheKey key)) :
    hits cfg now b' key = hits cfg now b key := by
  unfold hits get
  rw [h]
  generalize kvGet cfg b (cfg.cacheKey key) = entry
  rcases entry with err | _ | ⟨revision, body⟩
  · rfl
  · rfl
  · dsimp only
    generalize decodeEnvelope cfg.unmarshal body = decoded
    rcases decoded with err | _ | env
    · rfl
    · rfl
    · dsimp only
      cases env.expired now <;> rfl

/-- `Get` leaves the bucket, or purges a key that it misses. -/
theorem get_bucket (now : Instant) (b : Bucket) (key : Key) :
    (get cfg now b key).1 = b ∨
      ((get cfg now b key).1 = cfg.write b (cfg.cacheKey key) none ∧
        hits cfg now b key = false) := by
  unfold hits get
  generalize kvGet cfg b (cfg.cacheKey key) = entry
  rcases entry with err | _ | ⟨revision, body⟩
  · exact Or.inl rfl
  · exact Or.inl rfl
  · dsimp only
    generalize decodeEnvelope cfg.unmarshal body = decoded
    rcases decoded with err | _ | env
    · exact Or.inl rfl
    · exact Or.inl rfl
    · dsimp only
      split
      · unfold tryPurge kvPurge Config.request
        cases cfg.refuses .purge (cfg.cacheKey key) with
        | some err => exact Or.inl rfl
        | none => exact Or.inr ⟨rfl, rfl⟩
      · exact Or.inl rfl

/-- `Get` does not change which keys are found. -/
theorem hits_get (now : Instant) (b : Bucket) (key key' : Key) :
    hits cfg now (get cfg now b key).1 key' = hits cfg now b key' := by
  rcases get_bucket now b key with hsame | ⟨hpurged, hmiss⟩
  · rw [hsame]
  · rw [hpurged]
    by_cases heq : key' = key
    · subst heq
      rw [hmiss]
      unfold hits get kvGet Config.request
      rw [cfg.value_write]
      cases cfg.refuses .get (cfg.cacheKey key') <;> rfl
    · have hne : cfg.cacheKey key' ≠ cfg.cacheKey key :=
        fun h => heq (cacheKey_injective cfg.keyPrefix h)
      apply hits_congr
      rw [kvGet, kvGet, cfg.write_of_ne hne]

/-- A listed key of the own store is decoded and looked up. -/
theorem collect_own (now : Instant) (l : Key) (listed : List (Bytes × Key)) (b : Bucket) :
    ((collect cfg now (fullKeys ((cfg.keyPrefix, l) :: listed)) b).2).map CacheEntry.key =
      (if hits cfg now b l then [l] else []) ++
        ((collect cfg now (fullKeys listed) (get cfg now b l).1).2).map CacheEntry.key := by
  have hdecode : decodeCacheKey ((cacheKey cfg.keyPrefix l).drop cfg.scope.length) = some l := by
    rw [Config.scope, drop_scope_cacheKey, decodeCacheKey_encodeKeyPart]
  rw [fullKeys, List.map_cons, collect, scope_isPrefixOf, if_pos (decide_eq_true rfl), hdecode,
    hits]
  dsimp only
  generalize get cfg now b l = r
  rcases r with ⟨b', err | _ | body⟩ <;> rfl

/-- A listed key of another store is passed over. -/
theorem collect_foreign {q : Bytes} (hforeign : cfg.keyPrefix ≠ q) (now : Instant) (l : Key)
    (listed : List (Bytes × Key)) (b : Bucket) :
    collect cfg now (fullKeys ((q, l) :: listed)) b = collect cfg now (fullKeys listed) b := by
  rw [fullKeys, List.map_cons, collect, scope_isPrefixOf,
    if_neg (fun h => hforeign (of_decide_eq_true h))]
  rfl

/-- `ListPage` reports the listed keys of its own store that hold something, under the keys
that the caller knows. -/
theorem collect_keys (now : Instant) (listed : List (Bytes × Key)) (b : Bucket) :
    ((collect cfg now (fullKeys listed) b).2).map CacheEntry.key =
      (listed.filter fun x => decide (cfg.keyPrefix = x.1) && hits cfg now b x.2).map Prod.snd := by
  induction listed generalizing b with
  | nil => rfl
  | cons x listed ih =>
    obtain ⟨q, l⟩ := x
    by_cases hown : cfg.keyPrefix = q
    · subst hown
      rw [collect_own, ih]
      simp only [hits_get, List.filter_cons, decide_true, Bool.true_and]
      cases hits cfg now b l <;> rfl
    · rw [collect_foreign hown, ih]
      simp only [List.filter_cons, hown, decide_false, Bool.false_and, Bool.false_eq_true,
        if_false]

/-! ## Keys, Flush and inspection -/

/-- Keys are encoded without loss and without collisions, and a bucket key lies in the scope of its
own prefix only.  So `Flush` purges the listed keys of its own store and no others, and
`ListPage` reports those that hold something under the keys that the caller knows. -/
theorem nats_keys_scoped :
    (∀ key, decodeCacheKey (encodeKeyPart key) = some key) ∧
    (∀ (p q : Bytes) (k l : Key), cacheKey p k = cacheKey q l ↔ p = q ∧ k = l) ∧
    (∀ (p q : Bytes) (l : Key), scopePrefix p <+: cacheKey q l ↔ p = q) ∧
    ∀ (cfg : Config) (listed : List (Bytes × Key)) (errs : List CacheError) (now : Instant)
      (b : Bucket),
      let flushed := flush cfg b (.keys (fullKeys listed) errs)
      (∀ k, (∀ l, (cfg.keyPrefix, l) ∈ listed → k ≠ cfg.cacheKey l) → flushed.1 k = b k) ∧
      (flushed.2 = none → ∀ l, (cfg.keyPrefix, l) ∈ listed →
        (flushed.1 (cfg.cacheKey l)).register.value = none) ∧
      (cfg.Willing → flushed.2 = errs.head?) ∧
      ∃ entries, (listEntries cfg now b (.keys (fullKeys listed) [])).2 = .ok entries ∧
        entries.map CacheEntry.key =
          (listed.filter fun x => decide (cfg.keyPrefix = x.1) && hits cfg now b x.2).map
            Prod.snd := by
  refine ⟨decodeCacheKey_encodeKeyPart, fun _ _ _ _ => cacheKey_inj,
    fun _ _ _ => scope_cacheKey_iff, ?_⟩
  intro cfg listed errs now b
  obtain ⟨hothers, hgone⟩ := purgeListed_spec cfg listed b
  dsimp only
  rw [flush_keys]
  refine ⟨hothers, ?_, ?_, _, rfl, collect_keys now listed b⟩
  · intro hnil
    exact hgone (Option.or_eq_none_iff.mp hnil).1
  · intro hwilling
    rw [purgeListed_ok hwilling, Option.none_or]

end Nats
end GoforjCache
