import GoforjCache.Core.Inspect
import GoforjCache.File.Equivalence

/-!
# Files - Inspection

`ListPage` of the filesystem store reads every record of the directory, skips those that do not
decode or have no key, removes those whose lifetime has ended, and lists the others.  `Get`
decides on its own whether a record is live: it still returns a record in the nanosecond of its
expiration, in which `ListPage` removes it, and it returns the record of the empty key, which
`ListPage` skips.

Main results:

- Theorem `listPage_eq`: what a page shows and removes.
- Theorem `shownEntries_congr`: a listing depends on what the lookups of the directory show.
- Theorem `listing_agrees_iff`: when the pages list exactly the keys that `Get` finds, and
  when nothing is removed that `Get` would return.
- Theorem `inspection_disagrees`: the empty key, and the nanosecond of the expiration.
-/

namespace GoforjCache
namespace File

open Foundation Foundation.Transition Foundation.Paging
open Inspect (KeySort ListPageOptions ListPageResult InvalidCursor keeps keptKeys listFilterTerm
  filterAndSortEntries decodeOffsetCursor sliceEntries helperPage)

/-! ## The operation -/

/-- `os.DirEntry`. -/
abbrev DirEntry := (_ : Name) × Node

/-- `os.ReadDir`: the entries in the order of their names. -/
def readDir (dir : Dir) : List DirEntry := dir.entries.insertionSort fun a b => a.1 ≤ b.1

/-- `isFileStoreRecord`. -/
def isFileStoreRecord (name : Name) : Bool :=
  !(ascii ".cache-tmp-").isPrefixOf name && isFileStoreEntry name

/-- What is shown of a record; the expiration is in milliseconds. -/
def entryOf (record : FileRecord) : CacheEntry :=
  ⟨record.key, record.value.length,
    if 0 < record.expiresAt then some (record.expiresAt / 1000000) else none⟩

/-- One turn of the loop in `ListPage`. -/
def listEntry (cfg : Config) (now : Instant) (dir : Dir) (entry : DirEntry) :
    Dir × Except CacheError (Option CacheEntry) :=
  if entry.2 = .directory ∨ !isFileStoreRecord entry.1 then (dir, .ok none)
  else
    match readFile dir entry.1 with
    | .error err => (dir, .error err)
    | .ok none => (dir, .ok none)
    | .ok (some data) =>
      match decodeFileRecord cfg.unmarshal data with
      | .error _ => (dir, .ok none)
      | .ok record =>
        if record.key = [] then (dir, .ok none)
        else if 0 < record.expiresAt ∧ record.expiresAt ≤ unixNano now then
          (remove dir entry.1, .ok none)
        else (dir, .ok (some (entryOf record)))

/-- The loop, which ends with the first file that cannot be read. -/
def collectEntries (cfg : Config) (now : Instant) :
    Dir → List DirEntry → Dir × Except CacheError (List CacheEntry)
  | dir, [] => (dir, .ok [])
  | dir, entry :: rest =>
    match listEntry cfg now dir entry with
    | (dir, .error err) => (dir, .error err)
    | (dir, .ok shown) =>
      let r := collectEntries cfg now dir rest
      (r.1, r.2.map fun entries => shown.toList ++ entries)

/-- The errors of `ListPage`. -/
inductive ListError where
  | read (err : CacheError)
  | cursor (err : InvalidCursor)
deriving DecidableEq

/-- `ListPage`. -/
def listPage (cfg : Config) (S : KeySort) (now : Instant) (dir : Dir) (opts : ListPageOptions) :
    Dir × Except ListError ListPageResult :=
  match collectEntries cfg now dir (readDir dir) with
  | (dir, .error err) => (dir, .error (.read err))
  | (dir, .ok entries) =>
    let filtered := filterAndSortEntries S entries (listFilterTerm opts)
    match decodeOffsetCursor opts.cursor with
    | .error err => (dir, .error (.cursor err))
    | .ok offset => (dir, .ok (sliceEntries filtered offset opts.limit))

/-! ## What a page shows and removes -/

/-- The record that `ListPage` sees in an entry. -/
def recordOf (cfg : Config) (entry : DirEntry) : Option FileRecord :=
  match entry.2 with
  | .directory => none
  | .file data =>
    if isFileStoreRecord entry.1 then
      match decodeFileRecord cfg.unmarshal data with
      | .error _ => none
      | .ok record => if record.key = [] then none else some record
    else none

/-- The lifetime of the record has ended, as `ListPage` sees it. -/
def FileRecord.Ended (now : Instant) (record : FileRecord) : Prop :=
  0 < record.expiresAt ∧ record.expiresAt ≤ unixNano now

instance (now : Instant) (record : FileRecord) : Decidable (record.Ended now) :=
  inferInstanceAs (Decidable (_ ∧ _))

/-- The entry is removed. -/
def Swept (cfg : Config) (now : Instant) (entry : DirEntry) : Prop :=
  ∃ record, recordOf cfg entry = some record ∧ record.Ended now

theorem swept_iff {cfg : Config} {now : Instant} {entry : DirEntry} :
    Swept cfg now entry ↔
      (recordOf cfg entry).any (fun record => decide (record.Ended now)) = true := by
  simp [Swept, Option.any_eq_true]

instance (cfg : Config) (now : Instant) (entry : DirEntry) : Decidable (Swept cfg now entry) :=
  decidable_of_iff _ swept_iff.symm

/-- The entry is shown. -/
def shown (cfg : Config) (now : Instant) (entry : DirEntry) : Option CacheEntry :=
  (recordOf cfg entry).bind fun record => if record.Ended now then none else some (entryOf record)

/-- The entries that a listing shows. -/
def shownEntries (cfg : Config) (now : Instant) (dir : Dir) : List CacheEntry :=
  (readDir dir).filterMap (shown cfg now)

variable {cfg : Config} {now : Instant} {dir dir' : Dir} {entry : DirEntry} {name : Name}

/-- One turn of the loop, by the record that it sees. -/
theorem listEntry_eq (h : dir.lookup entry.1 = some entry.2) :
    listEntry cfg now dir entry =
      ((recordOf cfg entry).elim dir fun record =>
          if record.Ended now then remove dir entry.1 else dir,
        .ok (shown cfg now entry)) := by
  obtain ⟨name, node⟩ := entry
  cases node with
  | directory => simp [listEntry, recordOf, shown]
  | file data =>
    have hread : readFile dir name = .ok (some data) := by simp [readFile, h]
    by_cases hname : isFileStoreRecord name = true
    · cases hdecode : decodeFileRecord cfg.unmarshal data with
      | error err => simp [listEntry, recordOf, shown, hname, hread, hdecode]
      | ok record =>
        by_cases hkey : record.key = []
        · simp [listEntry, recordOf, shown, hname, hread, hdecode, hkey]
        · by_cases hended : record.Ended now
          · have hcond : 0 < record.expiresAt ∧ record.expiresAt ≤ unixNano now := hended
            simp [listEntry, recordOf, shown, hname, hread, hdecode, hkey, hended, hcond]
          · have hcond : ¬(0 < record.expiresAt ∧ record.expiresAt ≤ unixNano now) := hended
            simp only [listEntry, recordOf, shown, hname, hread, hdecode, hkey, if_neg hcond]
            simp [hended]
    · simp [listEntry, recordOf, shown, hname]

/-- One turn of the loop removes at most the name of its entry. -/
theorem listEntry_lookup (h : dir.lookup entry.1 = some entry.2) (name : Name) :
    (listEntry cfg now dir entry).1.lookup name =
      if entry.1 = name ∧ Swept cfg now entry then none else dir.lookup name := by
  rw [listEntry_eq h]
  cases hrecord : recordOf cfg entry with
  | none => simp [Swept, hrecord]
  | some record =>
    by_cases hended : record.Ended now
    · have hswept : Swept cfg now entry := ⟨record, hrecord, hended⟩
      simp only [Option.elim_some, if_pos hended, hswept, and_true, remove]
      by_cases hname : entry.1 = name
      · rw [if_pos hname, hname, AList.lookup_erase]
      · rw [if_neg hname, AList.lookup_erase_ne (Ne.symm hname)]
    · have hkept : ¬Swept cfg now entry := by simp [Swept, hrecord, hended]
      simp [hended, hkept]

/-- The loop over entries with different names shows and removes what its turns do. -/
theorem collectEntries_spec {entries : List DirEntry} (hnames : (entries.map Sigma.fst).Nodup)
    (hentries : ∀ e ∈ entries, dir.lookup e.1 = some e.2) :
    (collectEntries cfg now dir entries).2 = .ok (entries.filterMap (shown cfg now)) ∧
      ∀ name, (collectEntries cfg now dir entries).1.lookup name =
        if ∃ e ∈ entries, e.1 = name ∧ Swept cfg now e then none else dir.lookup name := by
  induction entries generalizing dir with
  | nil => simp [collectEntries]
  | cons entry rest ih =>
    have hentry := hentries entry List.mem_cons_self
    have hlookup : ∀ name, (listEntry cfg now dir entry).1.lookup name =
        if entry.1 = name ∧ Swept cfg now entry then none else dir.lookup name :=
      listEntry_lookup hentry
    obtain ⟨hnotin, hrest⟩ := List.nodup_cons.mp hnames
    have hturn : listEntry cfg now dir entry =
        ((listEntry cfg now dir entry).1, .ok (shown cfg now entry)) := by
      rw [listEntry_eq hentry]
    -- the turn leaves the entries behind it in place
    have hkeeps : ∀ e ∈ rest, (listEntry cfg now dir entry).1.lookup e.1 = some e.2 := by
      intro e he
      rw [hlookup, if_neg, hentries e (List.mem_cons_of_mem _ he)]
      rintro ⟨hsame, -⟩
      exact hnotin (hsame ▸ List.mem_map_of_mem he)
    obtain ⟨hitems, hdir⟩ := ih hrest hkeeps
    rw [collectEntries, hturn]
    dsimp only
    refine ⟨?_, ?_⟩
    · rw [hitems]
      cases hshown : shown cfg now entry <;> simp [Except.map, hshown]
    · intro name
      rw [hdir, hlookup]
      by_cases hlater : ∃ e ∈ rest, e.1 = name ∧ Swept cfg now e
      · obtain ⟨e, he, hswept⟩ := hlater
        rw [if_pos ⟨e, he, hswept⟩, if_pos ⟨e, List.mem_cons_of_mem _ he, hswept⟩]
      · rw [if_neg hlater]
        by_cases hhead : entry.1 = name ∧ Swept cfg now entry
        · rw [if_pos hhead, if_pos ⟨entry, List.mem_cons_self, hhead⟩]
        · rw [if_neg hhead, if_neg]
          rintro ⟨e, he, hswept⟩
          rcases List.mem_cons.mp he with rfl | he
          · exact hhead hswept
          · exact hlater ⟨e, he, hswept⟩

/-! ## Reading the directory -/

/-- The entries are those that can be looked up. -/
theorem mem_readDir : entry ∈ readDir dir ↔ dir.lookup entry.1 = some entry.2 := by
  rw [readDir, (List.perm_insertionSort _ _).mem_iff]
  exact AList.mem_lookup_iff.symm

/-- No two entries have one name. -/
theorem nodup_names_readDir (dir : Dir) : ((readDir dir).map Sigma.fst).Nodup := by
  rw [readDir, ((List.perm_insertionSort _ _).map Sigma.fst).nodup_iff]
  exact dir.nodupKeys

/-- The entries are in the order of their names. -/
theorem sorted_readDir (dir : Dir) : (readDir dir).Pairwise fun a b => a.1 < b.1 := by
  have htotal : Std.Total fun a b : DirEntry => a.1 ≤ b.1 := ⟨fun a b => List.le_total a.1 b.1⟩
  have htrans : IsTrans DirEntry fun a b => a.1 ≤ b.1 := ⟨fun _ _ _ => List.le_trans⟩
  have hsorted : (readDir dir).Pairwise fun a b => a.1 ≤ b.1 := List.pairwise_insertionSort _ _
  have hdistinct := List.pairwise_map.mp (nodup_names_readDir dir)
  refine (hdistinct.and hsorted).imp fun ⟨hne, hle⟩ => ?_
  by_contra hnot
  exact hne (List.le_antisymm hle (List.not_lt.mp hnot))

section Named

variable {β : Type} (f : DirEntry → Option β)

/-- What a function makes of the entries, with their names. -/
def named (dir : Dir) : List (Name × β) :=
  (readDir dir).filterMap fun entry => (f entry).map (Prod.mk entry.1)

theorem map_named (dir : Dir) : (named f dir).map Prod.snd = (readDir dir).filterMap f := by
  rw [named, List.map_filterMap]
  congr 1
  funext entry
  cases f entry <;> rfl

theorem mem_named {b : β} :
    (name, b) ∈ named f dir ↔ (dir.lookup name).bind (fun node => f ⟨name, node⟩) = some b := by
  rw [named, List.mem_filterMap, Option.bind_eq_some_iff]
  constructor
  · rintro ⟨entry, hentry, hb⟩
    obtain ⟨b', hf, hpair⟩ := Option.map_eq_some_iff.mp hb
    cases hpair
    exact ⟨entry.2, mem_readDir.mp hentry, hf⟩
  · rintro ⟨node, hlookup, hb⟩
    exact ⟨⟨name, node⟩, mem_readDir.mpr hlookup, by rw [hb]; rfl⟩

theorem sorted_named (dir : Dir) : (named f dir).Pairwise fun a b => a.1 < b.1 := by
  refine List.Pairwise.filterMap _ ?_ (sorted_readDir dir)
  intro a a' hlt b hb b' hb'
  obtain ⟨-, -, rfl⟩ := Option.map_eq_some_iff.mp hb
  obtain ⟨-, -, rfl⟩ := Option.map_eq_some_iff.mp hb'
  exact hlt

/-- What a function makes of the entries depends on what it makes of the lookups. -/
theorem filterMap_readDir_congr (h : ∀ name, (dir.lookup name).bind (fun node => f ⟨name, node⟩) =
    (dir'.lookup name).bind fun node => f ⟨name, node⟩) :
    (readDir dir).filterMap f = (readDir dir').filterMap f := by
  have hnodup : ∀ d, (named f d).Nodup := by
    intro d
    refine (sorted_named f d).imp fun {a b} hlt heq => ?_
    rw [heq] at hlt
    exact List.lt_irrefl b.1 hlt
  have hperm : (named f dir).Perm (named f dir') := by
    refine (List.perm_ext_iff_of_nodup (hnodup dir) (hnodup dir')).mpr ?_
    rintro ⟨name, b⟩
    rw [mem_named, mem_named, h]
  have hsame : named f dir = named f dir' := by
    refine hperm.eq_of_pairwise ?_ (sorted_named f dir) (sorted_named f dir')
    intro a b _ _ hab hba
    exact absurd (List.lt_trans hab hba) (List.lt_irrefl a.1)
  rw [← map_named, hsame, map_named]

end Named

/-- A listing depends on what the lookups of the directory show. -/
theorem shownEntries_congr
    (h : ∀ name, (dir.lookup name).bind (fun node => shown cfg now ⟨name, node⟩) =
      (dir'.lookup name).bind fun node => shown cfg now ⟨name, node⟩) :
    shownEntries cfg now dir = shownEntries cfg now dir' :=
  filterMap_readDir_congr (shown cfg now) h

/-! ## Pages -/

/-- The directory after a listing. -/
def swept (cfg : Config) (now : Instant) (dir : Dir) : Dir :=
  (collectEntries cfg now dir (readDir dir)).1

/-- A listing removes the entries whose lifetime has ended. -/
theorem lookup_swept (cfg : Config) (now : Instant) (dir : Dir) (name : Name) :
    (swept cfg now dir).lookup name = (dir.lookup name).bind fun node =>
      if Swept cfg now ⟨name, node⟩ then none else some node := by
  rw [swept, (collectEntries_spec (nodup_names_readDir dir) fun e he => mem_readDir.mp he).2]
  cases hlookup : dir.lookup name with
  | none => exact ite_self _
  | some node =>
    have hiff : (∃ e ∈ readDir dir, e.1 = name ∧ Swept cfg now e) ↔ Swept cfg now ⟨name, node⟩ := by
      constructor
      · rintro ⟨⟨_, node'⟩, he, rfl, hswept⟩
        rw [mem_readDir, hlookup] at he
        cases he
        exact hswept
      · intro hswept
        exact ⟨⟨name, node⟩, mem_readDir.mpr hlookup, rfl, hswept⟩
    simp only [hiff, Option.bind_some]

/-- What a page shows and removes. -/
theorem listPage_eq (cfg : Config) (S : KeySort) (now : Instant) (dir : Dir)
    (opts : ListPageOptions) :
    listPage cfg S now dir opts = (swept cfg now dir,
      (helperPage S (shownEntries cfg now dir) (listFilterTerm opts) opts.limit
        opts.cursor).mapError .cursor) := by
  have hcollect : (collectEntries cfg now dir (readDir dir)).2 = .ok (shownEntries cfg now dir) :=
    (collectEntries_spec (nodup_names_readDir dir) fun e he => mem_readDir.mp he).1
  have hpair : collectEntries cfg now dir (readDir dir) =
      (swept cfg now dir, .ok (shownEntries cfg now dir)) := Prod.ext rfl hcollect
  rw [listPage, hpair, helperPage]
  dsimp only
  cases decodeOffsetCursor opts.cursor <;> rfl

/-- What is shown does not change when it is listed. -/
theorem shownEntries_swept (cfg : Config) (now : Instant) (dir : Dir) :
    shownEntries cfg now (swept cfg now dir) = shownEntries cfg now dir := by
  apply shownEntries_congr
  intro name
  rw [lookup_swept]
  cases dir.lookup name with
  | none => rfl
  | some node =>
    simp only [Option.bind_some]
    split
    · rename_i hswept
      obtain ⟨record, hrecord, hended⟩ := hswept
      simp [shown, hrecord, hended]
    · rfl

/-! ## What the operations write -/

/-- The file of a key with a record of that key. -/
def HasRecord (cfg : Config) (dir : Dir) (key : Key) (expiresAt : Int64) (value : Bytes) : Prop :=
  dir.lookup (path cfg key) = some (.file (recordHeader key expiresAt ++ value))

/-- Every file was there before, or holds a record of one of the keys. -/
def Written (cfg : Config) (K : Set Key) (dir dir' : Dir) : Prop :=
  ∀ name, dir'.lookup name = dir.lookup name ∨ dir'.lookup name = none ∨
    ∃ key ∈ K, name = path cfg key ∧ ∃ expiresAt value, HasRecord cfg dir' key expiresAt value

variable {K : Set Key} {key : Key} {random : Bytes}

theorem Written.refl (dir : Dir) : Written cfg K dir dir := fun _ => Or.inl rfl

theorem Written.trans {dir'' : Dir} (h : Written cfg K dir dir') (h' : Written cfg K dir' dir'') :
    Written cfg K dir dir'' := by
  intro name
  rcases h' name with hsame | hnone | hrecord
  · rcases h name with hsame' | hnone | ⟨key, hkey, rfl, expiresAt, value, hrecord⟩
    · exact Or.inl (hsame.trans hsame')
    · exact Or.inr (Or.inl (hsame.trans hnone))
    · exact Or.inr (Or.inr ⟨key, hkey, rfl, expiresAt, value, hsame.trans hrecord⟩)
  · exact Or.inr (Or.inl hnone)
  · exact Or.inr (Or.inr hrecord)

/-- A name that is free stays free unless it is the name of a key. -/
theorem Written.fresh (h : Written cfg K dir dir') (hfresh : dir.lookup (tempName random) = none) :
    dir'.lookup (tempName random) = none := by
  rcases h (tempName random) with hsame | hnone | ⟨key, -, hname, -⟩
  · exact hsame.trans hfresh
  · exact hnone
  · exact absurd hname.symm (path_ne_tempName cfg key random)

/-- A removal writes nothing. -/
theorem written_remove (dir : Dir) (name : Name) : Written cfg K dir (remove dir name) := by
  intro name'
  by_cases hname : name' = name
  · rw [hname]
    exact Or.inr (Or.inl (AList.lookup_erase _ _))
  · exact Or.inl (AList.lookup_erase_ne hname)

/-- A read writes nothing. -/
theorem written_get (cfg : Config) (now : Instant) (dir : Dir) (key : Key) :
    Written cfg K dir (get cfg now dir key).1 := by
  unfold get
  split
  · exact Written.refl dir
  · exact Written.refl dir
  · split
    · exact written_remove dir _
    · split
      · exact written_remove dir _
      · exact Written.refl dir

/-- A write puts a record in the file of its key. -/
theorem written_set (hkey : key ∈ K) (hfresh : dir.lookup (tempName random) = none) (value : Bytes)
    (ttl : Duration) : Written cfg K dir (set cfg now random dir key value ttl) := by
  intro name
  by_cases hname : name = path cfg key
  · refine Or.inr (Or.inr ⟨key, hkey, hname, unixNano (now + (cfg.defaultTTL.resolve ttl).toInt),
      value, ?_⟩)
    exact (set_lookup cfg now key value ttl hfresh _).trans (if_pos rfl)
  · exact Or.inl ((set_lookup cfg now key value ttl hfresh name).trans (if_neg hname))

theorem written_add (hkey : key ∈ K) (hfresh : dir.lookup (tempName random) = none) (value : Bytes)
    (ttl : Duration) : Written cfg K dir (add cfg now random dir key value ttl).1 := by
  have hget := written_get (K := K) cfg now dir key
  unfold add
  generalize get cfg now dir key = r at hget ⊢
  obtain ⟨dir', err | body | body⟩ := r
  · exact hget
  · exact hget.trans (written_set hkey (hget.fresh hfresh) value ttl)
  · exact hget

theorem written_increment (hkey : key ∈ K) (hfresh : dir.lookup (tempName random) = none)
    (delta : Int64) (ttl : Duration) :
    Written cfg K dir (increment cfg now random dir key delta ttl).1 := by
  have hget := written_get (K := K) cfg now dir key
  unfold increment
  generalize get cfg now dir key = r at hget ⊢
  obtain ⟨dir', err | body | body⟩ := r
  · exact hget
  · exact hget.trans (written_set hkey (hget.fresh hfresh) _ ttl)
  · dsimp only
    split
    · exact hget.trans (written_set hkey (hget.fresh hfresh) _ ttl)
    · exact hget

theorem written_lockRelease (cfg : Config) (now : Instant) (dir : Dir) (key : Key) (owner : Bytes) :
    Written cfg K dir (lockRelease cfg now dir key owner).1 := by
  have hget := written_get (K := K) cfg now dir key
  unfold lockRelease
  generalize get cfg now dir key = r at hget ⊢
  obtain ⟨dir', err | body | body⟩ := r
  · exact hget
  · exact hget
  · dsimp only
    split
    · exact hget.trans (written_remove _ _)
    · exact hget

/-- A call writes records of its own keys only. -/
theorem written_exec (hfresh : dir.lookup (tempName random) = none) {op : Op}
    (hop : Op.Within K op) : Written cfg K dir (exec cfg now random dir op).1 := by
  cases op with
  | get key => exact written_get cfg now dir key
  | set key value ttl => exact written_set (hop.single rfl) hfresh value ttl
  | add key value ttl => exact written_add (hop.single rfl) hfresh value ttl
  | increment key delta ttl => exact written_increment (hop.single rfl) hfresh delta ttl
  | decrement key delta ttl => exact written_increment (hop.single rfl) hfresh (-delta) ttl
  | delete key => exact written_remove dir _
  | deleteMany keys =>
    intro name
    have hlookup := deleteMany_lookup cfg dir keys name
    by_cases hmem : ∃ key ∈ keys, path cfg key = name
    · exact Or.inr (Or.inl (hlookup.trans (if_pos hmem)))
    · exact Or.inl (hlookup.trans (if_neg hmem))
  | flush =>
    intro name
    have hlookup := flush_lookup dir name
    by_cases hmem : ∃ entry ∈ dir.entries, entry.1 = name ∧ Flushed entry
    · exact Or.inr (Or.inl (hlookup.trans (if_pos hmem)))
    · exact Or.inl (hlookup.trans (if_neg hmem))
  | lockAcquire key owner ttl => exact written_add (hop.single rfl) hfresh owner ttl
  | lockRelease key owner => exact written_lockRelease cfg now dir key owner

/-- A listing writes nothing. -/
theorem written_swept (cfg : Config) (now : Instant) (dir : Dir) :
    Written cfg K dir (swept cfg now dir) := by
  intro name
  rw [lookup_swept]
  cases dir.lookup name with
  | none => exact Or.inl rfl
  | some node =>
    simp only [Option.bind_some]
    split
    · exact Or.inr (Or.inl rfl)
    · exact Or.inl rfl

/-! ## Runs -/

namespace Listing

/-- The directory and the clock. -/
structure World where
  dir : Dir
  now : Instant

/-- A call with the random part of the temporary file it may create, a page of a listing, a step of
the clock, and another program that writes or removes a file. -/
inductive Event where
  | call (op : Op) (random : Bytes)
  | list (S : KeySort) (opts : ListPageOptions)
  | tick (d : Nat)
  | foreign (name : Name) (node : Option Node)

/-- One step.  `createTempFile` only settles on a name that is not taken, and other programs
stay away from the names of the store. -/
def step (cfg : Config) (w : World) : Event → Option World
  | .call op random =>
    match w.dir.lookup (tempName random) with
    | some _ => none
    | none => some { w with dir := (exec cfg w.now random w.dir op).1 }
  | .list S opts => some { w with dir := (listPage cfg S w.now w.dir opts).1 }
  | .tick d => some { w with now := w.now + d }
  | .foreign name node =>
    if isFileStoreEntry name then none
    else
      match node with
      | some node => some { w with dir := w.dir.insert name node }
      | none => some { w with dir := w.dir.erase name }

/-- No file of the store is in the directory. -/
def World.Initial (w : World) : Prop :=
  ∀ name, isFileStoreEntry name = true → w.dir.lookup name = none

/-- The calls of the run name keys of `K` only. -/
def Event.Within (K : Set Key) : Event → Prop
  | .call op _ => Op.Within K op
  | _ => True

/-- Every file with the name of a record is the file of a key and holds a record of it. -/
def Kept (cfg : Config) (K : Set Key) (dir : Dir) : Prop :=
  ∀ name node, isFileStoreEntry name = true → dir.lookup name = some node →
    ∃ key ∈ K, name = path cfg key ∧ ∃ expiresAt value, HasRecord cfg dir key expiresAt value

/-- What writes records only keeps the invariant. -/
theorem Kept.written (h : Kept cfg K dir) (hwritten : Written cfg K dir dir') :
    Kept cfg K dir' := by
  intro name node hname hnode
  rcases hwritten name with hsame | hnone | hrecord
  · obtain ⟨key, hkey, rfl, expiresAt, value, hrecord⟩ := h name node hname (hsame ▸ hnode)
    exact ⟨key, hkey, rfl, expiresAt, value, hsame.trans hrecord⟩
  · rw [hnone] at hnode
    cases hnode
  · exact hrecord

/-- So does a change of another name. -/
theorem Kept.foreign (h : Kept cfg K dir)
    (hsame : ∀ name, isFileStoreEntry name = true → dir'.lookup name = dir.lookup name) :
    Kept cfg K dir' := by
  intro name node hname hnode
  rw [hsame name hname] at hnode
  obtain ⟨key, hkey, rfl, expiresAt, value, hrecord⟩ := h name node hname hnode
  exact ⟨key, hkey, rfl, expiresAt, value, (hsame _ hname).trans hrecord⟩

/-- Every step keeps the invariant. -/
theorem kept_step {w w' : World} {e : Event} (h : Kept cfg K w.dir) (hwithin : e.Within K)
    (hstep : step cfg w e = some w') : Kept cfg K w'.dir := by
  cases e with
  | call op random =>
    simp only [step] at hstep
    split at hstep
    · cases hstep
    · rename_i hfresh
      cases hstep
      exact h.written (written_exec hfresh hwithin)
  | list S opts =>
    cases hstep
    dsimp only
    rw [listPage_eq]
    exact h.written (written_swept cfg w.now w.dir)
  | tick d =>
    cases hstep
    exact h
  | foreign name node =>
    simp only [step] at hstep
    split at hstep
    · cases hstep
    · rename_i hforeign
      have hne : ∀ name', isFileStoreEntry name' = true → name' ≠ name := by
        rintro name' hname rfl
        exact hforeign hname
      split at hstep <;> cases hstep
      · exact h.foreign fun name' hname => AList.lookup_insert_ne (hne name' hname)
      · exact h.foreign fun name' hname => AList.lookup_erase_ne (hne name' hname)

/-- Every reachable directory meets the invariant. -/
theorem kept_run {w₀ w : World} {es : List Event} (hinit : w₀.Initial)
    (hwithin : ∀ e ∈ es, e.Within K) (hrun : run (step cfg) w₀ es = some w) : Kept cfg K w.dir := by
  refine run_preserves_along (fun w e w' hw hG hstep => kept_step hw hG hstep) ?_
    (along_of_forall (fun e he _ => hwithin e he) w₀) hrun
  intro name node hname hnode
  rw [hinit name hname] at hnode
  cases hnode

end Listing

/-! ## Records and their keys -/

theorem isFileStoreRecord_path (cfg : Config) (key : Key) :
    isFileStoreRecord (path cfg key) = true := by
  rw [isFileStoreRecord, isFileStoreEntry_path, Bool.and_true, Bool.not_eq_true']
  by_contra htemp
  obtain ⟨rest, hrest⟩ := List.isPrefixOf_iff_prefix.mp (Bool.not_eq_false _ ▸ htemp)
  exact path_ne_tempName cfg key rest hrest.symm

theorem isFileStoreEntry_of_record (h : isFileStoreRecord name = true) :
    isFileStoreEntry name = true :=
  (Bool.and_eq_true_iff.mp h).2

/-- As much of a key as the header of its record counts. -/
def countedKey (key : Key) : Key := key.take (key.length % 2 ^ 32)

theorem countedKey_of_lt (h : key.length < 2 ^ 32) : countedKey key = key := by
  rw [countedKey, Nat.mod_eq_of_lt h, List.take_length]

theorem length_countedKey_lt (key : Key) : (countedKey key).length < 2 ^ 32 := by
  have hmod : key.length % 2 ^ 32 < 2 ^ 32 := Nat.mod_lt _ (by decide)
  rw [countedKey, List.length_take]
  omega

theorem infix_of_countedKey (key : Key) : countedKey key <:+: key :=
  (List.take_prefix _ key).isInfix

/-- The record that `ListPage` sees in the file of a key. -/
theorem recordOf_path (cfg : Config) (key : Key) (expiresAt : Int64) (value : Bytes) :
    recordOf cfg ⟨path cfg key, .file (recordHeader key expiresAt ++ value)⟩ =
      if countedKey key = [] then none
      else some ⟨countedKey key, expiresAt, key.drop (key.length % 2 ^ 32) ++ value⟩ := by
  simp only [recordOf, isFileStoreRecord_path, if_true, decodeFileRecord_encode]
  rfl

/-- What `Get` returns for the file of a key. -/
theorem get_of_hasRecord {expiresAt : Int64} {value : Bytes}
    (h : HasRecord cfg dir key expiresAt value) :
    (get cfg now dir key).2 = if 0 < expiresAt ∧ expiresAt < unixNano now then .ok none
      else .ok (some (key.drop (key.length % 2 ^ 32) ++ value)) := by
  have hlookup : dir.lookup (path cfg key) = _ := h
  simp only [get, readFile, hlookup, decodeFileRecord_encode]
  split <;> rfl

/-- A file holds one record. -/
theorem HasRecord.expiresAt_eq {expiresAt expiresAt' : Int64} {value value' : Bytes}
    (h : HasRecord cfg dir key expiresAt value) (h' : HasRecord cfg dir key expiresAt' value') :
    expiresAt = expiresAt' := by
  have hsame := Option.some.inj (h.symm.trans h')
  have hdecode := decodeFileRecord_encode cfg.unmarshal key expiresAt value
  rw [Node.file.inj hsame, decodeFileRecord_encode] at hdecode
  exact (FileRecord.mk.inj (Except.ok.inj hdecode)).2.1.symm

/-- `Get` finds the key. -/
def Hit (cfg : Config) (now : Instant) (dir : Dir) (key : Key) : Prop :=
  ∃ value, (get cfg now dir key).2 = .ok (some value)

section Kept

variable (hkept : Listing.Kept cfg K dir)

include hkept

/-- `Get` finds the keys whose record has not passed its expiration. -/
theorem hit_iff (hinj : Set.InjOn cfg.sha256.sum256 K) (hkey : key ∈ K) :
    Hit cfg now dir key ↔ ∃ expiresAt value, HasRecord cfg dir key expiresAt value ∧
      ¬(0 < expiresAt ∧ expiresAt < unixNano now) := by
  constructor
  · rintro ⟨found, hget⟩
    cases hlookup : dir.lookup (path cfg key) with
    | none => simp [get, readFile, hlookup] at hget
    | some node =>
      obtain ⟨key', hkey', hpath, expiresAt, value, hrecord⟩ :=
        hkept (path cfg key) node (isFileStoreEntry_path cfg key) hlookup
      have hsame : key' = key := hinj hkey' hkey (sum256_eq_of_path_eq hpath.symm)
      subst hsame
      refine ⟨expiresAt, value, hrecord, ?_⟩
      intro hdead
      rw [get_of_hasRecord hrecord, if_pos hdead] at hget
      cases hget
  · rintro ⟨expiresAt, value, hrecord, hlive⟩
    exact ⟨_, (get_of_hasRecord hrecord).trans (if_neg hlive)⟩

/-- The keys that are shown are those of the records whose lifetime has not ended, as far as the
records count them. -/
theorem mem_shownEntries_iff {k : Key} :
    k ∈ (shownEntries cfg now dir).map CacheEntry.key ↔
      ∃ key ∈ K, ∃ expiresAt value, HasRecord cfg dir key expiresAt value ∧
        ¬(0 < expiresAt ∧ expiresAt ≤ unixNano now) ∧ countedKey key = k ∧ k ≠ [] := by
  constructor
  · intro hmem
    obtain ⟨shownEntry, hshown, rfl⟩ := List.mem_map.mp hmem
    obtain ⟨⟨name, node⟩, hentry, hshown⟩ := List.mem_filterMap.mp hshown
    obtain ⟨record, hrecordOf, hrecord⟩ := Option.bind_eq_some_iff.mp hshown
    have hname : isFileStoreRecord name = true := by
      by_contra hno
      cases node <;> simp [recordOf, hno] at hrecordOf
    have hlookup := mem_readDir.mp hentry
    obtain ⟨key, hkey, rfl, expiresAt, value, hhas⟩ :=
      hkept name node (isFileStoreEntry_of_record hname) hlookup
    cases hlookup.symm.trans hhas
    rw [recordOf_path] at hrecordOf
    split at hrecordOf
    · cases hrecordOf
    · rename_i hne
      cases hrecordOf
      split at hrecord
      · cases hrecord
      · rename_i hended
        cases hrecord
        exact ⟨key, hkey, expiresAt, value, hhas, hended, rfl, hne⟩
  · rintro ⟨key, hkey, expiresAt, value, hhas, hended, rfl, hne⟩
    have hshown : shown cfg now ⟨path cfg key, .file (recordHeader key expiresAt ++ value)⟩ =
        some (entryOf ⟨countedKey key, expiresAt, key.drop (key.length % 2 ^ 32) ++ value⟩) := by
      rw [shown, recordOf_path, if_neg hne]
      exact if_neg hended
    have hentry : ⟨path cfg key, .file (recordHeader key expiresAt ++ value)⟩ ∈ readDir dir :=
      mem_readDir.mpr hhas
    exact List.mem_map.mpr ⟨_, List.mem_filterMap.mpr ⟨_, hentry, hshown⟩, rfl⟩

end Kept

/-! ## Inspection and reads -/

/-- The pages of a client that follows the cursors at one instant.  Every page sees the directory as
the pages before it have left it. -/
def pages (cfg : Config) (S : Nat → KeySort) (now : Instant) (dir : Dir) (opts : ListPageOptions) :
    Nat → Bytes → Except ListError ListPageResult :=
  fun i cursor => (listPage cfg (S i) now ((swept cfg now)^[i] dir) { opts with cursor }).2

/-- All pages show the same. -/
theorem shownEntries_iterate (cfg : Config) (now : Instant) (dir : Dir) (i : Nat) :
    shownEntries cfg now ((swept cfg now)^[i] dir) = shownEntries cfg now dir := by
  induction i with
  | zero => rfl
  | succ i ih => rw [Function.iterate_succ_apply', shownEntries_swept, ih]

/-- The pages list the keys that are shown and kept by the filter. -/
theorem lists_pages (cfg : Config) (S : Nat → KeySort) (now : Instant) (dir : Dir)
    (opts : ListPageOptions) (hlength : (readDir dir).length < 2 ^ 62) :
    ∃ listed : List Key,
      listed.Perm (keptKeys (listFilterTerm opts) (shownEntries cfg now dir)) ∧
      Lists (fun i cursor => (pages cfg S now dir opts i cursor).map (Page.map CacheEntry.key))
        0 [] listed := by
  have hpage : ∀ i cursor offset, decodeOffsetCursor cursor = .ok offset →
      pages cfg S now dir opts i cursor = .ok (sliceEntries (filterAndSortEntries (S i)
        (shownEntries cfg now dir) (listFilterTerm opts)) offset opts.limit) := by
    intro i cursor offset hcursor
    simp only [pages, listPage_eq, shownEntries_iterate, helperPage, hcursor]
    rfl
  refine Inspect.lists_collected hpage ?_ fun _ => List.Perm.refl _
  exact (List.length_filterMap_le _ _).trans_lt hlength

theorem mem_keptKeys {term : Bytes} {entries : List CacheEntry} {k : Key} :
    k ∈ keptKeys term entries ↔ k ∈ entries.map CacheEntry.key ∧ keeps term k = true := by
  simp only [keptKeys, List.mem_map, List.mem_filter]
  constructor
  · rintro ⟨e, ⟨he, hkeeps⟩, rfl⟩
    exact ⟨⟨e, he, rfl⟩, hkeeps⟩
  · rintro ⟨⟨e, he, rfl⟩, hkeeps⟩
    exact ⟨e, ⟨he, hkeeps⟩, rfl⟩

theorem keeps_of_countedKey {term : Bytes} (h : keeps term (countedKey key) = true) :
    keeps term key = true :=
  Inspect.keeps_iff.mpr ((Inspect.keeps_iff.mp h).trans (infix_of_countedKey key))

/-- The records that `Get` returns and `ListPage` shows: the key is not empty, 32 bits can
count it, and the record does not expire in this very nanosecond. -/
def Plain (now : Instant) (key : Key) (expiresAt : Int64) : Prop :=
  key ≠ [] ∧ key.length < 2 ^ 32 ∧ ¬(0 < expiresAt ∧ expiresAt = unixNano now)

section Agreement

variable (hkept : Listing.Kept cfg K dir) (hinj : Set.InjOn cfg.sha256.sum256 K)

include hkept hinj

/-- A key that is shown comes from a record that `Get` returns, of a key that the filter keeps
too. -/
theorem of_mem_keptKeys {term : Bytes} {k : Key}
    (h : k ∈ keptKeys term (shownEntries cfg now dir)) :
    k.length < 2 ^ 32 ∧ k ≠ [] ∧ ∃ key ∈ K, countedKey key = k ∧ keeps term key = true ∧
      Hit cfg now dir key ∧ ∃ expiresAt value, HasRecord cfg dir key expiresAt value ∧
        ¬(0 < expiresAt ∧ expiresAt ≤ unixNano now) := by
  obtain ⟨hshown, hkeeps⟩ := mem_keptKeys.mp h
  obtain ⟨key, hkey, expiresAt, value, hrecord, hended, rfl, hne⟩ :=
    (mem_shownEntries_iff hkept).mp hshown
  have hlive : ¬(0 < expiresAt ∧ expiresAt < unixNano now) :=
    fun hdead => hended ⟨hdead.1, Int64.le_of_lt hdead.2⟩
  exact ⟨length_countedKey_lt key, hne, key, hkey, rfl, keeps_of_countedKey hkeeps,
    (hit_iff hkept hinj hkey).mpr ⟨expiresAt, value, hrecord, hlive⟩, expiresAt, value, hrecord,
    hended⟩

/-- What `Get` returns is what is shown exactly when all records that it returns are plain. -/
theorem shown_iff_plain (term : Bytes) :
    (∀ key ∈ K, key ∈ keptKeys term (shownEntries cfg now dir) ↔
      keeps term key = true ∧ Hit cfg now dir key) ↔
    ∀ key ∈ K, keeps term key = true → ∀ expiresAt value, HasRecord cfg dir key expiresAt value →
      ¬(0 < expiresAt ∧ expiresAt < unixNano now) → Plain now key expiresAt := by
  constructor
  · intro hagree key hkey hkeeps expiresAt value hrecord hlive
    have hhit : Hit cfg now dir key := (hit_iff hkept hinj hkey).mpr ⟨_, _, hrecord, hlive⟩
    obtain ⟨hshort, hne, key', hkey', hcounted, hkeeps', hhit', expiresAt', value', hrecord',
      hended⟩ := of_mem_keptKeys hkept hinj ((hagree key hkey).mpr ⟨hkeeps, hhit⟩)
    -- the record that shows the key is its own: a longer key would be found and not shown
    have hshort' : key'.length < 2 ^ 32 :=
      (of_mem_keptKeys hkept hinj ((hagree key' hkey').mpr ⟨hkeeps', hhit'⟩)).1
    rw [countedKey_of_lt hshort'] at hcounted
    subst hcounted
    rw [hrecord.expiresAt_eq hrecord']
    exact ⟨hne, hshort, fun hnow => hended ⟨hnow.1, Int64.le_of_eq hnow.2⟩⟩
  · intro hplain key hkey
    constructor
    · intro hmem
      obtain ⟨-, -, key', hkey', hcounted, hkeeps', hhit', -⟩ := of_mem_keptKeys hkept hinj hmem
      obtain ⟨expiresAt, value, hrecord, hlive⟩ := (hit_iff hkept hinj hkey').mp hhit'
      rw [countedKey_of_lt (hplain key' hkey' hkeeps' _ _ hrecord hlive).2.1] at hcounted
      subst hcounted
      exact ⟨hkeeps', hhit'⟩
    · rintro ⟨hkeeps, hhit⟩
      obtain ⟨expiresAt, value, hrecord, hlive⟩ := (hit_iff hkept hinj hkey).mp hhit
      obtain ⟨hne, hshort, hnow⟩ := hplain key hkey hkeeps _ _ hrecord hlive
      refine mem_keptKeys.mpr ⟨(mem_shownEntries_iff hkept).mpr ⟨key, hkey, expiresAt, value,
        hrecord, ?_, countedKey_of_lt hshort, hne⟩, hkeeps⟩
      rintro ⟨hpos, hle⟩
      rcases Int64.lt_or_eq_of_le hle with hlt | heq
      · exact hlive ⟨hpos, hlt⟩
      · exact hnow ⟨hpos, heq⟩

/-- A listing removes nothing that `Get` returns exactly when no record that it can name
expires in this very nanosecond. -/
theorem swept_iff_counted :
    (∀ key ∈ K, Hit cfg now dir key →
      (swept cfg now dir).lookup (path cfg key) = dir.lookup (path cfg key)) ↔
    ∀ key ∈ K, ∀ expiresAt value, HasRecord cfg dir key expiresAt value → 0 < expiresAt →
      expiresAt = unixNano now → countedKey key = [] := by
  have hlookup : ∀ {key expiresAt value}, HasRecord cfg dir key expiresAt value →
      (swept cfg now dir).lookup (path cfg key) =
        if countedKey key ≠ [] ∧ 0 < expiresAt ∧ expiresAt ≤ unixNano now then none
        else dir.lookup (path cfg key) := by
    intro key expiresAt value hrecord
    have hlookup : dir.lookup (path cfg key) = _ := hrecord
    rw [lookup_swept, hlookup, Option.bind_some]
    congr 1
    rw [Swept, recordOf_path]
    by_cases hcounted : countedKey key = []
    · simp [hcounted]
    · simp [hcounted, FileRecord.Ended]
  constructor
  · intro hkeep key hkey expiresAt value hrecord hpos hnow
    by_contra hcounted
    have hlive : ¬(0 < expiresAt ∧ expiresAt < unixNano now) := by
      rw [hnow]
      exact fun hdead => Int64.lt_irrefl hdead.2
    have hsame := hkeep key hkey ((hit_iff hkept hinj hkey).mpr ⟨_, _, hrecord, hlive⟩)
    rw [hlookup hrecord, if_pos ⟨hcounted, hpos, Int64.le_of_eq hnow⟩] at hsame
    cases hsame.trans hrecord
  · intro hnow key hkey hhit
    obtain ⟨expiresAt, value, hrecord, hlive⟩ := (hit_iff hkept hinj hkey).mp hhit
    rw [hlookup hrecord, if_neg]
    rintro ⟨hcounted, hpos, hle⟩
    rcases Int64.lt_or_eq_of_le hle with hlt | heq
    · exact hlive ⟨hpos, hlt⟩
    · exact hcounted (hnow key hkey _ _ hrecord hpos heq)

end Agreement

/--
Inspection and reads of a directory that a run of the store has made, from a directory without files
of the store, with calls on keys of `K`, on which SHA-256 is injective, pages of listings,
steps of the clock and other programs that use other names.  At every instant, for all options,
following the cursors of `ListPage` ends.  The pages together have exactly the keys that the
filter keeps and `Get` finds if and only if every record of such a key that `Get` returns
has a key that is not empty and shorter than `2 ^ 32` bytes, and does not expire in this very
nanosecond.  A page removes no record that `Get` would return if and only if no record whose
key decodes to a nonempty one expires in this very nanosecond.
-/
theorem listing_agrees_iff (hinj : Set.InjOn cfg.sha256.sum256 K) {w₀ w : Listing.World}
    {es : List Listing.Event} (hinit : w₀.Initial) (hwithin : ∀ e ∈ es, e.Within K)
    (hrun : run (Listing.step cfg) w₀ es = some w) (hlength : (readDir w.dir).length < 2 ^ 62)
    (now : Instant) (S : Nat → KeySort) (opts : ListPageOptions) :
    (∃ listed : List Key,
      Lists (fun i cursor => (pages cfg S now w.dir opts i cursor).map (Page.map CacheEntry.key))
        0 [] listed ∧
      ((∀ key ∈ K, key ∈ listed ↔ keeps (listFilterTerm opts) key = true ∧ Hit cfg now w.dir key) ↔
        ∀ key ∈ K, keeps (listFilterTerm opts) key = true → ∀ expiresAt value,
          HasRecord cfg w.dir key expiresAt value →
            ¬(0 < expiresAt ∧ expiresAt < unixNano now) → Plain now key expiresAt)) ∧
    ((∀ key ∈ K, Hit cfg now w.dir key →
        (listPage cfg (S 0) now w.dir opts).1.lookup (path cfg key) = w.dir.lookup (path cfg key)) ↔
      ∀ key ∈ K, ∀ expiresAt value, HasRecord cfg w.dir key expiresAt value → 0 < expiresAt →
        expiresAt = unixNano now → countedKey key = []) := by
  have hkept := Listing.kept_run hinit hwithin hrun
  obtain ⟨listed, hperm, hlists⟩ := lists_pages cfg S now w.dir opts hlength
  refine ⟨⟨listed, hlists, ?_⟩, ?_⟩
  · simp only [hperm.mem_iff]
    exact shown_iff_plain hkept hinj (listFilterTerm opts)
  · rw [listPage_eq]
    exact swept_iff_counted hkept hinj

/-! ## Runs of inspection -/

/-- The SHA-256 of the empty key. -/
def sumOfEmpty : Bytes :=
  [0xe3, 0xb0, 0xc4, 0x42, 0x98, 0xfc, 0x1c, 0x14, 0x9a, 0xfb, 0xf4,
    0xc8, 0x99, 0x6f, 0xb9, 0x24, 0x27, 0xae, 0x41, 0xe4, 0x64, 0x9b,
    0x93, 0x4c, 0xa4, 0x95, 0x99, 0x1b, 0x78, 0x52, 0xb8, 0x55]

/-- SHA-256 on the empty key and the key `k`. -/
def inspectSha256 : Sha256 where
  sum256 := fun b => if b = [] then sumOfEmpty else sampleSha256.sum256 b
  length := by
    intro b
    split
    · rfl
    · exact sampleSha256.length b

/-- A store with the default lifetime; no record of the oldest format is ever read. -/
def inspectConfig : Config := ⟨inspectSha256, fun _ => none, DefaultTTL.normalize 0⟩

/-- An empty directory at the epoch. -/
def emptyListing : Listing.World := ⟨∅, 0⟩

/-- A key that is stored for sixty nanoseconds. -/
def sampleWrites (key : Key) : List Listing.Event := [.call (.set key (ascii "v") 60) [], .tick 10]

/-- The directory after that. -/
def sampleListing (key : Key) : Listing.World :=
  (run (Listing.step inspectConfig) emptyListing (sampleWrites key)).getD emptyListing

/-- No filter, and pages of the default size. -/
def plainOptions : ListPageOptions := ⟨[], [], [], 0⟩

/-- The pages list one key within its lifetime, which `Get` finds. -/
theorem listing_agrees_within_lifetime :
    run (Listing.step inspectConfig) emptyListing (sampleWrites (ascii "k")) =
      some (sampleListing (ascii "k")) ∧
    ∃ listed : List Key,
      Lists (fun i cursor => (pages inspectConfig (fun _ => Inspect.mergeKeySort) 10
        (sampleListing (ascii "k")).dir plainOptions i cursor).map (Page.map CacheEntry.key))
        0 [] listed ∧ ascii "k" ∈ listed := by
  have hrun : run (Listing.step inspectConfig) emptyListing (sampleWrites (ascii "k")) =
      some (sampleListing (ascii "k")) := rfl
  have hinj : Set.InjOn inspectConfig.sha256.sum256 {ascii "k"} := Set.injOn_singleton _ _
  have hwithin : ∀ e ∈ sampleWrites (ascii "k"), e.Within {ascii "k"} := by
    intro e he
    simp only [sampleWrites, List.mem_cons, List.not_mem_nil, or_false] at he
    rcases he with rfl | rfl
    · rintro keys ⟨⟩ key hkey
      exact List.mem_singleton.mp hkey
    · trivial
  have hrecord : HasRecord inspectConfig (sampleListing (ascii "k")).dir (ascii "k") 60
      (ascii "v") := by
    unfold HasRecord
    decide +kernel
  obtain ⟨⟨listed, hlists, hiff⟩, -⟩ := listing_agrees_iff hinj (fun _ _ => rfl) hwithin hrun
    (by decide) 10 (fun _ => Inspect.mergeKeySort) plainOptions
  refine ⟨hrun, listed, hlists, ?_⟩
  have hagree := hiff.mpr (by
    rintro key rfl _ expiresAt value hrecord' _
    rw [← hrecord.expiresAt_eq hrecord']
    exact ⟨by decide, by decide, by decide⟩)
  refine (hagree (ascii "k") rfl).mpr ⟨by decide, ascii "v", ?_⟩
  rw [get_of_hasRecord hrecord]
  decide

/-- Nothing is listed when nothing is shown. -/
theorem lists_nothing (S : Nat → KeySort) {opts : ListPageOptions}
    (h : shownEntries cfg now dir = []) (hlength : (readDir dir).length < 2 ^ 62) :
    Lists (fun i cursor => (pages cfg S now dir opts i cursor).map (Page.map CacheEntry.key))
      0 [] [] := by
  obtain ⟨listed, hperm, hlists⟩ := lists_pages cfg S now dir opts hlength
  rw [h] at hperm
  rw [hperm.eq_nil] at hlists
  exact hlists

/-- The pages do not list the empty key, which `Get` finds.  In the nanosecond in which a
record expires `Get` finds its key, the pages do not list it, and the first of them removes
it. -/
theorem inspection_disagrees :
    (run (Listing.step inspectConfig) emptyListing (sampleWrites []) = some (sampleListing []) ∧
      (get inspectConfig 10 (sampleListing []).dir []).2 = .ok (some (ascii "v")) ∧
      ∀ S, Lists (fun i cursor => (pages inspectConfig S 10 (sampleListing []).dir plainOptions i
        cursor).map (Page.map CacheEntry.key)) 0 [] []) ∧
    (run (Listing.step inspectConfig) emptyListing (sampleWrites (ascii "k")) =
        some (sampleListing (ascii "k")) ∧
      (get inspectConfig 60 (sampleListing (ascii "k")).dir (ascii "k")).2 =
        .ok (some (ascii "v")) ∧
      (∀ S, Lists (fun i cursor => (pages inspectConfig S 60 (sampleListing (ascii "k")).dir
        plainOptions i cursor).map (Page.map CacheEntry.key)) 0 [] []) ∧
      ∀ S, (listPage inspectConfig S 60 (sampleListing (ascii "k")).dir plainOptions).1.lookup
        (path inspectConfig (ascii "k")) = none) := by
  refine ⟨⟨rfl, ?_, ?_⟩, rfl, ?_, ?_, ?_⟩
  · decide +kernel
  · intro S
    exact lists_nothing S (by decide +kernel) (by decide)
  · decide +kernel
  · intro S
    exact lists_nothing S (by decide +kernel) (by decide)
  · intro S
    rw [listPage_eq]
    change (swept inspectConfig 60 (sampleListing (ascii "k")).dir).lookup
      (path inspectConfig (ascii "k")) = none
    decide +kernel

end File
end GoforjCache
