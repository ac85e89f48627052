import GoforjCache.Core.Contract
import GoforjCache.File.Store

/-!
# Files - Removals that fail

The operations of `fileStore` on a filesystem that may refuse to remove a file.  A read drops
the error of its removal.  `Delete`, `DeleteMany` and `Flush` return it, and the two
that remove several files stop there, with the files before it gone.

Main results:

- Theorem `exec_of_no_failure`: without a refusal these are the operations of the store.
- Theorem `removeAll_lookup`: a batch removes the files before the first refusal.
- Theorem `exec_single`: a call on one key leaves other names alone, and keeps what is read
  for its own key unless it reports that it was applied.
-/

namespace GoforjCache
namespace File
namespace Failing

open Foundation

/-! ## Operations -/

/-- What becomes of the removals of a call, one after the other: an error, or the file is gone. -/
abbrev Removals := Nat → Option CacheError

/-- `os.Remove` with its outcome. -/
def tryRemove (refusal : Option CacheError) (dir : Dir) (name : Name) : Dir × Option CacheError :=
  match refusal with
  | none => (remove dir name, none)
  | some err => (dir, some err)

variable (fails : Removals) (cfg : Config) (now : Instant) (random : Bytes)

/-- `get`: the error of the removal is dropped. -/
def get (dir : Dir) (key : Key) : Dir × Except CacheError (Option Bytes) :=
  match readFile dir (path cfg key) with
  | .error err => (dir, .error err)
  | .ok none => (dir, .ok none)
  | .ok (some data) =>
    match decodeFileRecord cfg.unmarshal data with
    | .error err => ((tryRemove (fails 0) dir (path cfg key)).1, .error err)
    | .ok record =>
      if 0 < record.expiresAt ∧ record.expiresAt < unixNano now then
        ((tryRemove (fails 0) dir (path cfg key)).1, .ok none)
      else (dir, .ok (some record.value))

/-- `Add`. -/
def add (dir : Dir) (key : Key) (value : Bytes) (ttl : Duration) : Dir × Except CacheError Bool :=
  match get fails cfg now dir key with
  | (dir, .error err) => (dir, .error err)
  | (dir, .ok (some _)) => (dir, .ok false)
  | (dir, .ok none) => (set cfg now random dir key value ttl, .ok true)

/-- `delete`. -/
def delete (dir : Dir) (key : Key) : Dir × Option CacheError :=
  tryRemove (fails 0) dir (path cfg key)

/-- `LockAcquire`. -/
def lockAcquire (dir : Dir) (key : Key) (owner : Bytes) (ttl : Duration) :
    Dir × Except CacheError Bool :=
  add fails cfg now random dir key owner ttl

/-- `LockRelease`. -/
def lockRelease (dir : Dir) (key : Key) (owner : Bytes) : Dir × Except CacheError Bool :=
  match get fails cfg now dir key with
  | (dir, .error err) => (dir, .error err)
  | (dir, .ok none) => (dir, .ok false)
  | (dir, .ok (some body)) =>
    if body = owner then
      match tryRemove (fails 1) dir (path cfg key) with
      | (dir, some err) => (dir, .error err)
      | (dir, none) => (dir, .ok true)
    else (dir, .ok false)

/-- `Increment`. -/
def increment (dir : Dir) (key : Key) (delta : Int64) (ttl : Duration) :
    Dir × Except CacheError Int64 :=
  let store (dir : Dir) (current : Int64) : Dir × Except CacheError Int64 :=
    let next := current + delta
    (set cfg now random dir key (Decimal.formatInt next) ttl, .ok next)
  match get fails cfg now dir key with
  | (dir, .error err) => (dir, .error err)
  | (dir, .ok none) => store dir 0
  | (dir, .ok (some body)) =>
    match Decimal.parseInt body with
    | some n => store dir n
    | none => (dir, .error (.notNumeric key))

/-- `Decrement`. -/
def decrement (dir : Dir) (key : Key) (delta : Int64) (ttl : Duration) :
    Dir × Except CacheError Int64 :=
  increment fails cfg now random dir key (-delta) ttl

/-- A loop that removes files and stops at the first error. -/
def removeAll : Nat → Dir → List Name → Dir × Option CacheError
  | _, dir, [] => (dir, none)
  | n, dir, name :: names =>
    match tryRemove (fails n) dir name with
    | (dir, some err) => (dir, some err)
    | (dir, none) => removeAll (n + 1) dir names

/-- `DeleteMany`. -/
def deleteMany (dir : Dir) (keys : List Key) : Dir × Option CacheError :=
  removeAll fails 0 dir (keys.map (path cfg))

/-- The files that `Flush` does not skip, in the order of `os.ReadDir`. -/
def flushNames (dir : Dir) : List Name :=
  (dir.entries.filter fun entry => Flushed entry).map Sigma.fst

/-- `Flush`. -/
def flush (dir : Dir) : Dir × Option CacheError := removeAll fails 0 dir (flushNames dir)

/-- Any operation of the contract, at one instant. -/
def exec (dir : Dir) : Op → Dir × Res
  | .get key => let r := get fails cfg now dir key; (r.1, result .value r.2)
  | .set key value ttl => (set cfg now random dir key value ttl, .done)
  | .add key value ttl =>
    let r := add fails cfg now random dir key value ttl; (r.1, result .flag r.2)
  | .increment key delta ttl =>
    let r := increment fails cfg now random dir key delta ttl; (r.1, result .number r.2)
  | .decrement key delta ttl =>
    let r := decrement fails cfg now random dir key delta ttl; (r.1, result .number r.2)
  | .delete key => let r := delete fails cfg dir key; (r.1, .ofError r.2)
  | .deleteMany keys => let r := deleteMany fails cfg dir keys; (r.1, .ofError r.2)
  | .flush => let r := flush fails dir; (r.1, .ofError r.2)
  | .lockAcquire key owner ttl =>
    let r := lockAcquire fails cfg now random dir key owner ttl; (r.1, result .flag r.2)
  | .lockRelease key owner =>
    let r := lockRelease fails cfg now dir key owner; (r.1, result .flag r.2)

/-- No removal fails. -/
def never : Removals := fun _ => none

theorem removeAll_never (n : Nat) (dir : Dir) (names : List Name) :
    removeAll never n dir names = (names.foldl remove dir, none) := by
  induction names generalizing n dir with
  | nil => rfl
  | cons name names ih => exact ih (n + 1) (remove dir name)

theorem foldl_flushEntry (entries : List ((_ : Name) × Node)) (dir : Dir) :
    entries.foldl flushEntry dir =
      ((entries.filter fun entry => Flushed entry).map Sigma.fst).foldl remove dir := by
  induction entries generalizing dir with
  | nil => rfl
  | cons entry entries ih =>
    rw [List.foldl_cons, ih]
    by_cases h : Flushed entry
    · have hturn : flushEntry dir entry = remove dir entry.1 := by
        rw [flushEntry, if_neg (by simp [h.1, h.2])]
      rw [hturn, List.filter_cons_of_pos (by simpa using h)]
      rfl
    · have hturn : flushEntry dir entry = dir := by
        rw [flushEntry, if_pos]
        rw [Flushed, not_and_or] at h
        simpa using h
      rw [hturn, List.filter_cons_of_neg (by simpa using h)]

/-- Without a refusal these are the operations of the store. -/
theorem exec_of_no_failure (dir : Dir) (op : Op) :
    exec never cfg now random dir op = File.exec cfg now random dir op := by
  cases op with
  | deleteMany keys =>
    simp only [exec, deleteMany, removeAll_never, File.exec, File.deleteMany, List.foldl_map]
    rfl
  | flush =>
    simp only [exec, flush, removeAll_never, File.exec, File.flush, flushNames, foldl_flushEntry]
    rfl
  | _ => rfl

/-! ## Batches -/

variable {fails cfg now random} {dir dir' : Dir} {key : Key}

/-- The names before the first refusal. -/
def removed (fails : Removals) : Nat → List Name → List Name
  | _, [] => []
  | n, name :: names =>
    match fails n with
    | some _ => []
    | none => name :: removed fails (n + 1) names

/-- A batch removes the files before the first refusal. -/
theorem removeAll_lookup (fails : Removals) (n : Nat) (dir : Dir) (names : List Name)
    (name : Name) :
    (removeAll fails n dir names).1.lookup name =
      if name ∈ removed fails n names then none else dir.lookup name := by
  induction names generalizing n dir with
  | nil => simp [removeAll, removed]
  | cons first names ih =>
    cases hrefusal : fails n with
    | some err => simp [removeAll, removed, tryRemove, hrefusal]
    | none =>
      simp only [removeAll, removed, tryRemove, hrefusal, ih, List.mem_cons]
      by_cases hname : name = first
      · subst hname
        simp [remove]
      · simp [hname, remove, AList.lookup_erase_ne hname]

/-- A batch without an error has removed all files. -/
theorem removed_of_ok {n : Nat} {names : List Name} (h : (removeAll fails n dir names).2 = none) :
    removed fails n names = names := by
  induction names generalizing n dir with
  | nil => rfl
  | cons first names ih =>
    cases hrefusal : fails n with
    | some err => simp [removeAll, tryRemove, hrefusal] at h
    | none =>
      simp only [removeAll, tryRemove, hrefusal] at h
      simp only [removed, hrefusal, ih h]

/-! ## What is read after a call -/

/-- What `Get` returns. -/
def reads (cfg : Config) (now : Instant) (dir : Dir) (key : Key) :
    Except CacheError (Option Bytes) :=
  (File.get cfg now dir key).2

/-- It depends on the file of the key only. -/
theorem reads_congr (h : dir'.lookup (path cfg key) = dir.lookup (path cfg key)) :
    reads cfg now dir' key = reads cfg now dir key := by
  have hfile : readFile dir' (path cfg key) = readFile dir (path cfg key) := by
    rw [readFile, readFile, h]
  simp only [reads, File.get, hfile]
  split
  · rfl
  · rfl
  · split
    · rfl
    · split <;> rfl

theorem reads_of_missing (h : dir.lookup (path cfg key) = none) :
    reads cfg now dir key = .ok none := by
  simp [reads, File.get, readFile, h]

/-- A refused removal does not show in the answer of a read, which removes at most a file without a
live value. -/
theorem get_spec (fails : Removals) (dir : Dir) (key : Key) :
    (get fails cfg now dir key).2 = reads cfg now dir key ∧
      ((get fails cfg now dir key).1 = dir ∨
        (get fails cfg now dir key).1 = remove dir (path cfg key) ∧
          ∀ v, reads cfg now dir key ≠ .ok (some v)) := by
  have htry : (tryRemove (fails 0) dir (path cfg key)).1 = dir ∨
      (tryRemove (fails 0) dir (path cfg key)).1 = remove dir (path cfg key) := by
    cases fails 0 with
    | some err => exact Or.inl rfl
    | none => exact Or.inr rfl
  unfold reads get File.get
  cases readFile dir (path cfg key) with
  | error err => exact ⟨rfl, Or.inl rfl⟩
  | ok data =>
    cases data with
    | none => exact ⟨rfl, Or.inl rfl⟩
    | some data =>
      dsimp only
      cases decodeFileRecord cfg.unmarshal data with
      | error err => exact ⟨rfl, htry.imp_right fun hgone => ⟨hgone, by simp⟩⟩
      | ok record =>
        dsimp only
        split
        · exact ⟨rfl, htry.imp_right fun hgone => ⟨hgone, by simp⟩⟩
        · exact ⟨rfl, Or.inl rfl⟩

/-- What a call on one key does to the directory: it leaves other names alone, and unless it was
applied, a read of the key that did not fail can be repeated. -/
structure Modest (cfg : Config) (now : Instant) (key : Key) (dir dir' : Dir) (applied : Bool) :
    Prop where
  frame : ∀ name, name ≠ path cfg key → dir'.lookup name = dir.lookup name
  kept : applied = false → ∀ content, reads cfg now dir key = .ok content →
    reads cfg now dir' key = .ok content

theorem Modest.refl (dir : Dir) (applied : Bool) : Modest cfg now key dir dir applied :=
  ⟨fun _ _ => rfl, fun _ _ h => h⟩

/-- A change of the file of the key that is reported. -/
theorem Modest.applied {dir'' : Dir} {applied : Bool} (h : Modest cfg now key dir dir' applied)
    (hframe : ∀ name, name ≠ path cfg key → dir''.lookup name = dir'.lookup name) :
    Modest cfg now key dir dir'' true :=
  ⟨fun name hname => (hframe name hname).trans (h.frame name hname), fun h => by cases h⟩

theorem remove_frame {name : Name} (hname : name ≠ path cfg key) :
    (remove dir (path cfg key)).lookup name = dir.lookup name :=
  AList.lookup_erase_ne hname

theorem get_modest (fails : Removals) (cfg : Config) (now : Instant) (dir : Dir) (key : Key) :
    Modest cfg now key dir (get fails cfg now dir key).1 false := by
  rcases (get_spec fails dir key).2 with hsame | ⟨hgone, hdead⟩
  · rw [hsame]
    exact Modest.refl dir false
  · rw [hgone]
    refine ⟨fun name hname => remove_frame hname, ?_⟩
    intro _ content hreads
    have hmissing : (remove dir (path cfg key)).lookup (path cfg key) = none :=
      AList.lookup_erase (path cfg key) dir
    rw [reads_of_missing hmissing]
    cases content with
    | none => rfl
    | some v => exact absurd hreads (hdead v)

/-- A temporary name is still free after a read. -/
theorem get_fresh (fails : Removals) (cfg : Config) (now : Instant) (key : Key)
    (h : dir.lookup (tempName random) = none) :
    (get fails cfg now dir key).1.lookup (tempName random) = none :=
  ((get_modest fails cfg now dir key).frame _ (path_ne_tempName cfg key random).symm).trans h

theorem set_frame (hfresh : dir.lookup (tempName random) = none) (value : Bytes) (ttl : Duration)
    {name : Name} (hname : name ≠ path cfg key) :
    (set cfg now random dir key value ttl).lookup name = dir.lookup name := by
  rw [set_lookup cfg now key value ttl hfresh, if_neg hname]

theorem add_modest (hfresh : dir.lookup (tempName random) = none) (value : Bytes) (ttl : Duration) :
    Modest cfg now key dir (add fails cfg now random dir key value ttl).1
      (result .flag (add fails cfg now random dir key value ttl).2).applied := by
  have hget := get_modest fails cfg now dir key
  have hfree := get_fresh fails cfg now key hfresh
  unfold add
  generalize get fails cfg now dir key = r at hget hfree ⊢
  rcases r with ⟨dir', _ | _ | body⟩
  · exact hget
  · exact hget.applied fun name hname => set_frame hfree value ttl hname
  · exact hget

theorem increment_modest (hfresh : dir.lookup (tempName random) = none) (delta : Int64)
    (ttl : Duration) :
    Modest cfg now key dir (increment fails cfg now random dir key delta ttl).1
      (result .number (increment fails cfg now random dir key delta ttl).2).applied := by
  have hget := get_modest fails cfg now dir key
  have hfree := get_fresh fails cfg now key hfresh
  unfold increment
  generalize get fails cfg now dir key = r at hget hfree ⊢
  rcases r with ⟨dir', _ | _ | body⟩
  · exact hget
  · exact hget.applied fun name hname => set_frame hfree _ ttl hname
  · dsimp only
    cases Decimal.parseInt body with
    | none => exact hget
    | some n => exact hget.applied fun name hname => set_frame hfree _ ttl hname

theorem lockRelease_modest (owner : Bytes) :
    Modest cfg now key dir (lockRelease fails cfg now dir key owner).1
      (result .flag (lockRelease fails cfg now dir key owner).2).applied := by
  have hget := get_modest fails cfg now dir key
  unfold lockRelease
  generalize get fails cfg now dir key = r at hget ⊢
  rcases r with ⟨dir', _ | _ | body⟩
  · exact hget
  · exact hget
  · dsimp only
    by_cases howner : body = owner
    · rw [if_pos howner]
      cases fails 1 with
      | some err => exact hget
      | none => exact hget.applied fun name hname => remove_frame hname
    · rw [if_neg howner]
      exact hget

/-- A call on one key leaves other names alone, and keeps what is read for its own key unless it
reports that it was applied. -/
theorem exec_single (fails : Removals) (cfg : Config) (now : Instant)
    (hfresh : dir.lookup (tempName random) = none) {op : Op} (hop : op.single = some key) :
    Modest cfg now key dir (exec fails cfg now random dir op).1
      (exec fails cfg now random dir op).2.applied := by
  cases op with
  | get k =>
    cases hop
    have hread : (result Res.value (get fails cfg now dir key).2).applied = false := by
      cases (get fails cfg now dir key).2 <;> rfl
    simp only [exec, hread]
    exact get_modest fails cfg now dir key
  | set k value ttl =>
    cases hop
    exact (Modest.refl dir false).applied fun name hname => set_frame hfresh value ttl hname
  | add k value ttl | lockAcquire k value ttl =>
    cases hop
    exact add_modest hfresh value ttl
  | increment k delta ttl =>
    cases hop
    exact increment_modest hfresh delta ttl
  | decrement k delta ttl =>
    cases hop
    exact increment_modest hfresh (-delta) ttl
  | delete k =>
    cases hop
    simp only [exec, delete]
    cases fails 0 with
    | some err => exact Modest.refl dir false
    | none => exact (Modest.refl dir false).applied fun name hname => remove_frame hname
  | lockRelease k owner =>
    cases hop
    exact lockRelease_modest owner
  | deleteMany keys => cases hop
  | flush => cases hop

end Failing
end File
end GoforjCache
