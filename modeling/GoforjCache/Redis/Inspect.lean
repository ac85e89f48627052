import GoforjCache.Core.Inspect
import GoforjCache.Redis.Flush

/-!
# Redis - Inspection

`ListPage` of the Redis store runs a full iteration of `SCAN` over the keys that match
`prefix:*`, takes the prefix off and asks for each of the keys with `Get`.  The entries
that are found are filtered, sorted and cut into pages.  An iteration may list a key more than once,
and then the entry is there more than once.

Main results:

- Theorem `collect_eq`: a call collects the live keys among those that the iteration lists.
- Theorem `Inspection.lists_of_once`: the pages list each live key of the store that contains
  the term once, if the iterations list each of them once.
- Theorem `Inspection.lists_iff_once`: for iterations that are all alike, only then.
- Theorem `Inspection.once_of_nodup`: iterations without repetitions do so, unless the prefix
  is a pattern.
-/

namespace GoforjCache
namespace Redis

open Foundation Foundation.Paging Inspect

/-! ## The operation -/

/-- The errors of `ListPage`. -/
inductive ListError where
  | store (err : RedisError)
  | cursor (err : InvalidCursor)
deriving DecidableEq

/-- The keys of all pages of an iteration, unless one of them fails. -/
def scanAll : List Redis.Page → Except RedisError (List Key)
  | [] => .ok []
  | .failed code :: _ => .error (.client code)
  | .keys ks _ :: pages => (scanAll pages).map (ks ++ ·)

/-- The logical key of a listed key. -/
def logicalKey (cfg : Config) (k : Key) : Key := trimPrefix k (cfg.keyPrefix ++ ascii ":")

/-- The loop over the listed keys. -/
def collect (svc : Service) (cfg : Config) (now : Instant) :
    List Key → Keyspace → Keyspace × List CacheEntry
  | [], t => (t, [])
  | k :: ks, t =>
    match get svc cfg now (logicalKey cfg k) t with
    | (t', .ok (some body)) =>
      let rest := collect svc cfg now ks t'
      (rest.1, ⟨logicalKey cfg k, body.length, none⟩ :: rest.2)
    | (t', _) => collect svc cfg now ks t'

/-- `store.ListPage`. -/
def listPage (S : KeySort) (svc : Service) (cfg : Config) (now : Instant) (opts : ListPageOptions)
    (t : Keyspace) : Keyspace × Except ListError ListPageResult :=
  match cfg.client with
  | .missing => (t, .error (.store .unavailable))
  | _ =>
    match scanAll svc.pages with
    | .error err => (t, .error (.store err))
    | .ok ks =>
      let r := collect svc cfg now ks t
      match decodeOffsetCursor opts.cursor with
      | .error err => (r.1, .error (.cursor err))
      | .ok offset =>
        (r.1, .ok (sliceEntries (filterAndSortEntries S r.2 (listFilterTerm opts)) offset
          opts.limit))

/-! ## What a call collects -/

section Collect

variable {svc : Service} {cfg : Config} (now : Instant)

/-- The key is live. -/
def live (cfg : Config) (now : Instant) (t : Keyspace) (key : Key) : Bool :=
  (t.find now (cacheKey cfg key)).isSome

/-- `Get` answers with what can be found, and leaves it there. -/
theorem get_eq (hclient : cfg.client ≠ .missing) (hwilling : svc.refuses .get = none) (key : Key)
    (t : Keyspace) :
    (get svc cfg now key t).2 = .ok ((t.find now (cacheKey cfg key)).map Entry.value) ∧
      (get svc cfg now key t).1.find now = t.find now := by
  have hget : get svc cfg now key t = getCommand now (cacheKey cfg key) t := by
    unfold get Config.withClient Service.command
    rw [hwilling]
    cases hcase : cfg.client with
    | missing => exact absurd hcase hclient
    | plain => rfl
    | scripted => rfl
  rw [hget]
  refine ⟨rfl, ?_⟩
  funext k
  unfold getCommand onKey Keyspace.find
  dsimp only
  by_cases hk : k = cacheKey cfg key
  · rw [hk, Function.update_self, Option.filter_filter]
    simp only [Bool.and_self]
  · rw [Function.update_of_ne hk]

/-- A call collects the live keys among those that are listed. -/
theorem collect_eq (hclient : cfg.client ≠ .missing) (hwilling : svc.refuses .get = none)
    (ks : List Key) (t : Keyspace) :
    (collect svc cfg now ks t).2.map CacheEntry.key =
        (ks.map (logicalKey cfg)).filter (live cfg now t) ∧
      (collect svc cfg now ks t).1.find now = t.find now := by
  induction ks generalizing t with
  | nil => exact ⟨rfl, rfl⟩
  | cons k ks ih =>
    rcases hget : get svc cfg now (logicalKey cfg k) t with ⟨t', reply⟩
    have hspec := get_eq now hclient hwilling (logicalKey cfg k) t
    rw [hget] at hspec
    rcases hspec with ⟨hreply, hfind⟩
    rcases ih t' with ⟨hkeys, hrest⟩
    have hlive : live cfg now t' = live cfg now t := by
      funext key
      rw [live, live, show t'.find now = t.find now from hfind]
    rw [hlive] at hkeys
    rw [show t'.find now = t.find now from hfind] at hrest
    rw [List.map_cons, List.filter_cons]
    unfold collect live
    rw [hget, show reply = _ from hreply]
    cases t.find now (cacheKey cfg (logicalKey cfg k)) with
    | none => exact ⟨hkeys, hrest⟩
    | some e => exact ⟨congrArg (List.cons (logicalKey cfg k)) hkeys, hrest⟩

end Collect

/-! ## Iterations over an unchanged keyspace -/

/-- The keys of a full iteration while nobody changes the keyspace: only keys that match, and every
key that matches and is live. -/
structure ScanLists (cfg : Config) (now : Instant) (t : Keyspace) (ks : List Key) : Prop where
  sound : ∀ k ∈ ks, Glob.globMatch (cacheKey cfg (ascii "*")) k = true
  complete : ∀ k, Glob.globMatch (cacheKey cfg (ascii "*")) k = true →
    (t.find now k).isSome = true → k ∈ ks

theorem logicalKey_cacheKey (cfg : Config) (key : Key) : logicalKey cfg (cacheKey cfg key) = key :=
  trimPrefix_append _ _

/-- With a prefix that is no pattern, an iteration without repetitions lists each live key once. -/
theorem count_logicalKey {cfg : Config} (hplain : ∀ b ∈ cfg.keyPrefix, ¬ Glob.Special b)
    {now : Instant} {t : Keyspace} {ks : List Key} (hscan : ScanLists cfg now t ks)
    (hnodup : ks.Nodup) {key : Key} (hlive : live cfg now t key = true) :
    (ks.map (logicalKey cfg)).count key = 1 := by
  have hexact := (patternExact_iff cfg).mpr hplain
  have hown : ∀ k ∈ ks, k = cacheKey cfg (logicalKey cfg k) := by
    intro k hk
    rcases (hexact k).mp (hscan.sound k hk) with ⟨own, rfl⟩
    rw [logicalKey_cacheKey]
  apply List.count_eq_one_of_mem
  · refine List.Nodup.map_on (fun x hx y hy heq => ?_) hnodup
    rw [hown x hx, hown y hy, heq]
  · have hlisted : cacheKey cfg key ∈ ks :=
      hscan.complete _ ((hexact _).mpr ⟨key, rfl⟩) hlive
    exact List.mem_map.mpr ⟨_, hlisted, logicalKey_cacheKey cfg key⟩

/-! ## Following the cursors -/

/-- What a client meets that follows the cursors: in every call a full iteration, split into pages
and with repetitions as the server likes, over a keyspace in which the same can be found. -/
structure Inspection (cfg : Config) (now : Instant) where
  sort : Nat → KeySort
  svc : Nat → Service
  keyspace : Nat → Keyspace
  scan : Nat → List Key
  client : cfg.client ≠ .missing
  willing : ∀ i, (svc i).refuses .get = none
  scanned : ∀ i, scanAll (svc i).pages = .ok (scan i)
  short : ∀ i, (scan i).length < 2 ^ 62
  unchanged : ∀ i, (keyspace i).find now = (keyspace 0).find now

section Following

variable {cfg : Config} {now : Instant} (I : Inspection cfg now) (opts : ListPageOptions)

/-- The page of a call. -/
def Inspection.page (i : Nat) (cursor : Bytes) : Except ListError ListPageResult :=
  (listPage (I.sort i) (I.svc i) cfg now { opts with cursor } (I.keyspace i)).2

/-- The key is live, and the filter keeps it. -/
def Inspection.wanted (key : Key) : Bool :=
  keeps (listFilterTerm opts) key && live cfg now (I.keyspace 0) key

/-- An iteration lists each of the keys once, as far as the logical keys go. -/
def Inspection.Once (keys : List Key) (i : Nat) : Prop :=
  ∀ key ∈ keys, ((I.scan i).map (logicalKey cfg)).count key = 1

/-- The entries that a call collects. -/
def Inspection.entries (i : Nat) : List CacheEntry :=
  (collect (I.svc i) cfg now (I.scan i) (I.keyspace i)).2

theorem Inspection.page_eq (i : Nat) (cursor : Bytes) (offset : Nat)
    (hcursor : decodeOffsetCursor cursor = .ok offset) :
    I.page opts i cursor = .ok (sliceEntries (filterAndSortEntries (I.sort i) (I.entries i)
      (listFilterTerm opts)) offset opts.limit) := by
  unfold Inspection.page listPage
  cases hclient : cfg.client with
  | missing => exact absurd hclient I.client
  | plain | scripted =>
    dsimp only
    rw [I.scanned i]
    dsimp only
    rw [hcursor]
    rfl

/-- The keys that a call collects. -/
theorem Inspection.keptKeys_entries (i : Nat) :
    keptKeys (listFilterTerm opts) (I.entries i) =
      ((I.scan i).map (logicalKey cfg)).filter (I.wanted opts) := by
  have hkeys := (collect_eq now I.client (I.willing i) (I.scan i) (I.keyspace i)).1
  have hlive : live cfg now (I.keyspace i) = live cfg now (I.keyspace 0) := by
    funext key
    rw [live, live, I.unchanged i]
  have hmap : keptKeys (listFilterTerm opts) (I.entries i) =
      ((I.entries i).map CacheEntry.key).filter (keeps (listFilterTerm opts)) := by
    rw [keptKeys, List.filter_map]
    rfl
  rw [hmap, Inspection.entries, hkeys, hlive, List.filter_filter]
  rfl

theorem Inspection.length_entries (i : Nat) : (I.entries i).length < 2 ^ 62 := by
  have hkeys := (collect_eq now I.client (I.willing i) (I.scan i) (I.keyspace i)).1
  rw [← List.length_map CacheEntry.key, Inspection.entries, hkeys]
  exact (List.length_filter_le _ _).trans_lt ((List.length_map _).trans_lt (I.short i))

variable {keys : List Key}

/-- A call collects the keys to be listed if and only if its iteration lists each of them once. -/
theorem Inspection.keptKeys_perm_iff (hnodup : keys.Nodup)
    (hkeys : ∀ key, key ∈ keys ↔ I.wanted opts key = true) (i : Nat) :
    (keptKeys (listFilterTerm opts) (I.entries i)).Perm keys ↔ I.Once keys i := by
  rw [I.keptKeys_entries, filter_perm_iff hnodup hkeys]
  rfl

/-- The pages list each live key of the store that contains the term once, and nothing else, if
every iteration lists each of them once. -/
theorem Inspection.lists_of_once (hnodup : keys.Nodup)
    (hkeys : ∀ key, key ∈ keys ↔ I.wanted opts key = true) (honce : ∀ i, I.Once keys i) :
    ListsKeys (I.page opts) keys := by
  have hperm := fun i => (I.keptKeys_perm_iff opts hnodup hkeys i).mpr (honce i)
  exact (listsKeys_iff (I.page_eq opts) (I.length_entries 0)
    (fun i => (hperm i).trans (hperm 0).symm) keys).mpr (hperm 0)

/-- For iterations that are all alike, only then. -/
theorem Inspection.lists_iff_once (hsame : ∀ i, (I.scan i).Perm (I.scan 0)) (hnodup : keys.Nodup)
    (hkeys : ∀ key, key ∈ keys ↔ I.wanted opts key = true) :
    ListsKeys (I.page opts) keys ↔ I.Once keys 0 := by
  rw [← I.keptKeys_perm_iff opts hnodup hkeys]
  refine listsKeys_iff (I.page_eq opts) (I.length_entries 0) (fun i => ?_) keys
  rw [I.keptKeys_entries, I.keptKeys_entries]
  exact ((hsame i).map _).filter _

/-- An iteration without repetitions lists each key to be listed once, unless the prefix is a
pattern. -/
theorem Inspection.once_of_nodup (hkeys : ∀ key, key ∈ keys ↔ I.wanted opts key = true)
    (hplain : ∀ b ∈ cfg.keyPrefix, ¬ Glob.Special b) {i : Nat}
    (hscan : ScanLists cfg now (I.keyspace i) (I.scan i)) (hnodup : (I.scan i).Nodup) :
    I.Once keys i := by
  intro key hkey
  have hlive := (Bool.and_eq_true_iff.mp ((hkeys key).mp hkey)).2
  rw [live, ← I.unchanged i] at hlive
  exact count_logicalKey hplain hscan hnodup hlive

end Following

end Redis
end GoforjCache
