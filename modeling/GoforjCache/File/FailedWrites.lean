import GoforjCache.File.Inspect
import GoforjCache.File.Removals

/-!
# Files - Writes that fail

`set` writes a temporary file in steps and renames it: creating the file, writing the header,
writing the value, syncing, closing and renaming may each fail, and so may the removal of the
temporary file after that.  `Set`, `Add` and `Increment` are built on it.

Main results:

- Theorems `trySet_of_spare` and `trySet_of_fault`: a write puts the whole record in
  place, or leaves every name but the temporary one alone.
- Theorem `sameView_of_faded`: removing records that are dead does not show.
- Theorem `uncorrupted_tryWrites`: no run of writes leaves a record that does not decode.
- Theorem `write_atomic_iff`: a call is atomic unless it writes a key of `2 ^ 32` bytes or
  more.
-/

namespace GoforjCache
namespace File
namespace FailedWrites

open Foundation Foundation.Decimal
open Failing (reads reads_congr reads_of_missing)
open Inspect (KeySort ListPageOptions)

/-! ## Operations -/

/-- The steps of a call that fail, with the errors they return.  A failing write comes with the
number of bytes it has written.  The last two are removals, whose errors are dropped. -/
structure Faults where
  create : Option CacheError
  header : Option (CacheError × Nat)
  value : Option (CacheError × Nat)
  sync : Option CacheError
  close : Option CacheError
  rename : Option CacheError
  cleanup : Option CacheError
  expired : Option CacheError

/-- `os.Remove` of the temporary file. -/
def cleanup (f : Faults) (dir : Dir) (name : Name) : Dir := (Failing.tryRemove f.cleanup dir name).1

/-- The error of `renameFile`, which does not replace a directory. -/
def renameError (f : Faults) (dir : Dir) (target : Name) : Option CacheError :=
  match f.rename with
  | some err => some err
  | none => if dir.lookup target = some .directory then some .isDirectory else none

/-- `set`. -/
def trySet (f : Faults) (cfg : Config) (now : Instant) (random : Bytes) (dir : Dir) (key : Key)
    (value : Bytes) (ttl : Duration) : Dir × Option CacheError :=
  let expiresAt := unixNano (now + (cfg.defaultTTL.resolve ttl).toInt)
  let tmp := tempName random
  match f.create with
  | some err => (dir, some err)
  | none =>
    let created := createTemp dir tmp
    match f.header with
    | some (err, n) =>
      (cleanup f (write created tmp ((recordHeader key expiresAt).take n)) tmp, some err)
    | none =>
      let withHeader := write created tmp (recordHeader key expiresAt)
      match f.value with
      | some (err, n) => (cleanup f (write withHeader tmp (value.take n)) tmp, some err)
      | none =>
        let withValue := write withHeader tmp value
        match f.sync with
        | some err => (cleanup f withValue tmp, some err)
        | none =>
          match f.close with
          | some err => (cleanup f withValue tmp, some err)
          | none =>
            match renameError f withValue (path cfg key) with
            | some err => (cleanup f withValue tmp, some err)
            | none => (rename withValue tmp (path cfg key), none)

/-- `get`. -/
def tryGet (f : Faults) (cfg : Config) (now : Instant) (dir : Dir) (key : Key) :
    Dir × Except CacheError (Option Bytes) :=
  Failing.get (fun _ => f.expired) cfg now dir key

/-- `Add`. -/
def tryAdd (f : Faults) (cfg : Config) (now : Instant) (random : Bytes) (dir : Dir) (key : Key)
    (value : Bytes) (ttl : Duration) : Dir × Except CacheError Bool :=
  match tryGet f cfg now dir key with
  | (dir, .error err) => (dir, .error err)
  | (dir, .ok (some _)) => (dir, .ok false)
  | (dir, .ok none) =>
    match trySet f cfg now random dir key value ttl with
    | (dir, some err) => (dir, .error err)
    | (dir, none) => (dir, .ok true)

/-- `Increment`. -/
def tryIncrement (f : Faults) (cfg : Config) (now : Instant) (random : Bytes) (dir : Dir)
    (key : Key) (delta : Int64) (ttl : Duration) : Dir × Except CacheError Int64 :=
  let store (dir : Dir) (current : Int64) : Dir × Except CacheError Int64 :=
    let next := current + delta
    match trySet f cfg now random dir key (formatInt next) ttl with
    | (dir, some err) => (dir, .error err)
    | (dir, none) => (dir, .ok next)
  match tryGet f cfg now dir key with
  | (dir, .error err) => (dir, .error err)
  | (dir, .ok none) => store dir 0
  | (dir, .ok (some body)) =>
    match parseInt body with
    | some n => store dir n
    | none => (dir, .error (.notNumeric key))

/-- The three calls. -/
inductive WriteOp where
  | set (key : Key) (value : Bytes) (ttl : Duration)
  | add (key : Key) (value : Bytes) (ttl : Duration)
  | increment (key : Key) (delta : Int64) (ttl : Duration)
deriving DecidableEq

/-- The addressed key. -/
def WriteOp.key : WriteOp → Key
  | .set key _ _ => key
  | .add key _ _ => key
  | .increment key _ _ => key

/-- One of the calls, with what it returns. -/
def tryWrite (f : Faults) (cfg : Config) (now : Instant) (random : Bytes) (dir : Dir) :
    WriteOp → Dir × Res
  | .set key value ttl =>
    match trySet f cfg now random dir key value ttl with
    | (dir, some err) => (dir, .error err)
    | (dir, none) => (dir, .done)
  | .add key value ttl =>
    let r := tryAdd f cfg now random dir key value ttl; (r.1, result .flag r.2)
  | .increment key delta ttl =>
    let r := tryIncrement f cfg now random dir key delta ttl; (r.1, result .number r.2)

/-! ## One write -/

/-- No step fails whose error is returned. -/
structure Faults.Spare (f : Faults) : Prop where
  create : f.create = none
  header : f.header = none
  value : f.value = none
  sync : f.sync = none
  close : f.close = none
  rename : f.rename = none

variable {f : Faults} {cfg : Config} {now : Instant} {random : Bytes} {dir dir' dir'' : Dir}
  {key : Key} {name tmp : Name}

/-- Only one name has changed. -/
def Frame (tmp : Name) (dir dir' : Dir) : Prop :=
  ∀ name, name ≠ tmp → dir'.lookup name = dir.lookup name

theorem Frame.trans (h : Frame tmp dir dir') (h' : Frame tmp dir' dir'') : Frame tmp dir dir'' :=
  fun name hname => (h' name hname).trans (h name hname)

theorem frame_createTemp (dir : Dir) (tmp : Name) : Frame tmp dir (createTemp dir tmp) :=
  fun _ hname => AList.lookup_insert_ne hname

theorem frame_write (dir : Dir) (tmp : Name) (data : Bytes) :
    Frame tmp dir (write dir tmp data) := by
  intro name hname
  unfold write
  split
  · exact AList.lookup_insert_ne hname
  · rfl

theorem frame_cleanup (f : Faults) (dir : Dir) (tmp : Name) :
    Frame tmp dir (cleanup f dir tmp) := by
  intro name hname
  unfold cleanup Failing.tryRemove
  split
  · exact AList.lookup_erase_ne hname
  · rfl

/-- A write without a failing step is the write of the store. -/
theorem trySet_of_spare (hspare : f.Spare) (hfile : dir.lookup (path cfg key) ≠ some .directory)
    (value : Bytes) (ttl : Duration) :
    trySet f cfg now random dir key value ttl = (set cfg now random dir key value ttl, none) := by
  have hframe : Frame (tempName random) dir (write (write (createTemp dir (tempName random))
      (tempName random) (recordHeader key (unixNano (now + (cfg.defaultTTL.resolve ttl).toInt))))
      (tempName random) value) :=
    ((frame_createTemp dir _).trans (frame_write _ _ _)).trans (frame_write _ _ _)
  have hrename := hframe _ (path_ne_tempName cfg key random)
  rw [← hrename] at hfile
  simp only [trySet, hspare.create, hspare.header, hspare.value, hspare.sync, hspare.close,
    renameError, hspare.rename, if_neg hfile]
  rfl

/-- Every other write returns an error and leaves every name but the temporary one alone. -/
theorem trySet_of_fault (h : ¬(f.Spare ∧ dir.lookup (path cfg key) ≠ some .directory))
    (now : Instant) (random : Bytes) (value : Bytes) (ttl : Duration) :
    (∃ err, (trySet f cfg now random dir key value ttl).2 = some err) ∧
      Frame (tempName random) dir (trySet f cfg now random dir key value ttl).1 := by
  have hcreated := frame_createTemp dir (tempName random)
  have hheader := fun data => hcreated.trans (frame_write _ (tempName random) data)
  have hvalue := fun data data' => (hheader data).trans (frame_write _ (tempName random) data')
  have hclean : ∀ {dir'}, Frame (tempName random) dir dir' →
      Frame (tempName random) dir (cleanup f dir' (tempName random)) :=
    fun hframe => hframe.trans (frame_cleanup f _ _)
  unfold trySet
  dsimp only
  split
  · exact ⟨⟨_, rfl⟩, fun _ _ => rfl⟩
  · rename_i hcreate
    split
    · exact ⟨⟨_, rfl⟩, hclean (hheader _)⟩
    · rename_i hheaderOk
      split
      · exact ⟨⟨_, rfl⟩, hclean (hvalue _ _)⟩
      · rename_i hvalueOk
        split
        · exact ⟨⟨_, rfl⟩, hclean (hvalue _ _)⟩
        · rename_i hsync
          split
          · exact ⟨⟨_, rfl⟩, hclean (hvalue _ _)⟩
          · rename_i hclose
            split
            · exact ⟨⟨_, rfl⟩, hclean (hvalue _ _)⟩
            · -- no step has failed
              rename_i hrename
              exfalso
              apply h
              unfold renameError at hrename
              split at hrename
              · cases hrename
              · rename_i hrenameOk
                refine ⟨⟨hcreate, hheaderOk, hvalueOk, hsync, hclose, hrenameOk⟩, ?_⟩
                rw [hvalue _ _ _ (path_ne_tempName cfg key random)] at hrename
                intro hdir
                rw [if_pos hdir] at hrename
                cases hrename

/-! ## What is seen of a directory -/

/-- From this instant on, reads and listings give the same. -/
def SameView (cfg : Config) (now : Instant) (dir dir' : Dir) : Prop :=
  ∀ t, unixNano now ≤ unixNano t →
    (∀ key, reads cfg t dir' key = reads cfg t dir key) ∧
      ∀ S opts, (listPage cfg S t dir' opts).2 = (listPage cfg S t dir opts).2

/-- A record whose lifetime is over. -/
def Dead (cfg : Config) (now : Instant) (dir : Dir) (name : Name) : Prop :=
  ∃ data record, dir.lookup name = some (.file data) ∧
    decodeFileRecord cfg.unmarshal data = .ok record ∧
      0 < record.expiresAt ∧ record.expiresAt < unixNano now

/-- Records have not changed, except that dead ones may be gone. -/
def Faded (cfg : Config) (now : Instant) (dir dir' : Dir) : Prop :=
  ∀ name, isFileStoreRecord name = true →
    dir'.lookup name = dir.lookup name ∨ dir'.lookup name = none ∧ Dead cfg now dir name

theorem Faded.refl (dir : Dir) : Faded cfg now dir dir := fun _ _ => Or.inl rfl

theorem ne_tempName_of_record (h : isFileStoreRecord name = true) : name ≠ tempName random := by
  rintro rfl
  have htemp : (ascii ".cache-tmp-").isPrefixOf (tempName random) = true :=
    List.isPrefixOf_iff_prefix.mpr (List.prefix_append _ _)
  simp [isFileStoreRecord, htemp] at h

theorem Faded.frame (h : Faded cfg now dir dir') (hframe : Frame (tempName random) dir' dir'') :
    Faded cfg now dir dir'' := by
  intro name hname
  rw [hframe name (ne_tempName_of_record hname)]
  exact h name hname

variable {t : Instant} {op : WriteOp} {res : Res}

/-- A dead record is not found. -/
theorem reads_of_dead (ht : unixNano now ≤ unixNano t) (h : Dead cfg now dir (path cfg key)) :
    reads cfg t dir key = .ok none := by
  obtain ⟨data, record, hlookup, hdecode, hpos, hlt⟩ := h
  have hdead : 0 < record.expiresAt ∧ record.expiresAt < unixNano t :=
    ⟨hpos, Int64.lt_of_lt_of_le hlt ht⟩
  simp [reads, File.get, readFile, hlookup, hdecode, hdead]

theorem shown_of_dead (ht : unixNano now ≤ unixNano t) (h : Dead cfg now dir name) :
    (dir.lookup name).bind (fun node => shown cfg t ⟨name, node⟩) = none := by
  obtain ⟨data, record, hlookup, hdecode, hpos, hlt⟩ := h
  have hended : record.Ended t := ⟨hpos, Int64.le_trans (Int64.le_of_lt hlt) ht⟩
  rw [hlookup, Option.bind_some, shown, recordOf]
  by_cases hname : isFileStoreRecord name = true
  · by_cases hkey : record.key = []
    · simp [hname, hdecode, hkey]
    · simp [hname, hdecode, hkey, hended]
  · simp [hname]

theorem shown_of_foreign (hname : isFileStoreRecord name = false) (node : Node) :
    shown cfg t ⟨name, node⟩ = none := by
  cases node <;> simp [shown, recordOf, hname]

/-- Removing records that are dead does not show. -/
theorem sameView_of_faded (h : Faded cfg now dir dir') : SameView cfg now dir dir' := by
  intro t ht
  refine ⟨?_, ?_⟩
  · intro key
    rcases h (path cfg key) (isFileStoreRecord_path cfg key) with hsame | ⟨hgone, hdead⟩
    · exact reads_congr hsame
    · rw [reads_of_missing hgone, reads_of_dead ht hdead]
  · intro S opts
    have hshown : shownEntries cfg t dir' = shownEntries cfg t dir := by
      apply shownEntries_congr
      intro name
      by_cases hname : isFileStoreRecord name = true
      · rcases h name hname with hsame | ⟨hgone, hdead⟩
        · rw [hsame]
        · rw [hgone, shown_of_dead ht hdead]
          rfl
      · have hforeign : ∀ d : Dir,
            (d.lookup name).bind (fun node => shown cfg t ⟨name, node⟩) = none := by
          intro d
          cases d.lookup name with
          | none => rfl
          | some node => exact shown_of_foreign (Bool.not_eq_true _ ▸ hname) node
        rw [hforeign, hforeign]
    rw [listPage_eq, listPage_eq, hshown]

/-! ## Reads inside a call -/

/-- Every record decodes. -/
def Uncorrupted (cfg : Config) (dir : Dir) : Prop :=
  ∀ name data, isFileStoreRecord name = true → dir.lookup name = some (.file data) →
    ∃ record, decodeFileRecord cfg.unmarshal data = .ok record

/-- A read of a directory without corrupt records removes at most a dead one. -/
theorem faded_tryGet (hclean : Uncorrupted cfg dir) (f : Faults) (now : Instant) (key : Key) :
    Faded cfg now dir (tryGet f cfg now dir key).1 := by
  unfold tryGet Failing.get
  cases hlookup : dir.lookup (path cfg key) with
  | none =>
    simp only [readFile, hlookup]
    exact Faded.refl dir
  | some node =>
    cases node with
    | directory =>
      simp only [readFile, hlookup]
      exact Faded.refl dir
    | file data =>
      obtain ⟨record, hdecode⟩ :=
        hclean (path cfg key) data (isFileStoreRecord_path cfg key) hlookup
      simp only [readFile, hlookup, hdecode]
      split
      · rename_i hdead
        unfold Failing.tryRemove
        split
        · intro name _
          by_cases hname : name = path cfg key
          · subst hname
            exact Or.inr ⟨AList.lookup_erase _ _, data, record, hlookup, hdecode, hdead⟩
          · exact Or.inl (AList.lookup_erase_ne hname)
        · exact Faded.refl dir
      · exact Faded.refl dir

/-- The directory after the read of a call; `Set` does not read. -/
def looked (f : Faults) (cfg : Config) (now : Instant) (dir : Dir) : WriteOp → Dir
  | .set _ _ _ => dir
  | .add key _ _ => (tryGet f cfg now dir key).1
  | .increment key _ _ => (tryGet f cfg now dir key).1

theorem faded_looked (hclean : Uncorrupted cfg dir) (f : Faults) (now : Instant) (op : WriteOp) :
    Faded cfg now dir (looked f cfg now dir op) := by
  cases op with
  | set key value ttl => exact Faded.refl dir
  | add key value ttl => exact faded_tryGet hclean f now key
  | increment key delta ttl => exact faded_tryGet hclean f now key

/-- A read leaves other names alone. -/
theorem frame_looked (f : Faults) (cfg : Config) (now : Instant) (dir : Dir) (op : WriteOp) :
    Frame (path cfg op.key) dir (looked f cfg now dir op) := by
  cases op with
  | set key value ttl => exact fun _ _ => rfl
  | add key value ttl => exact (Failing.get_modest _ cfg now dir key).frame
  | increment key delta ttl => exact (Failing.get_modest _ cfg now dir key).frame

/-! ## What a call decides -/

/-- What a call decides after its read: to return at once, or to write a value and return a result
if this succeeds. -/
inductive Decision where
  | answer (res : Res)
  | store (value : Bytes) (ttl : Duration) (res : Res)

/-- The decision of a call, from what `Get` returns for its key. -/
def WriteOp.decision (before : Except CacheError (Option Bytes)) : WriteOp → Decision
  | .set _ value ttl => .store value ttl .done
  | .add _ value ttl =>
    match before with
    | .error err => .answer (.error err)
    | .ok (some _) => .answer (.flag false)
    | .ok none => .store value ttl (.flag true)
  | .increment key delta ttl =>
    match before with
    | .error err => .answer (.error err)
    | .ok none => .store (formatInt (0 + delta)) ttl (.number (0 + delta))
    | .ok (some body) =>
      match parseInt body with
      | some n => .store (formatInt (n + delta)) ttl (.number (n + delta))
      | none => .answer (.error (.notNumeric key))

/-- A decision carried out. -/
def Decision.run (f : Faults) (cfg : Config) (now : Instant) (random : Bytes) (dir : Dir)
    (key : Key) : Decision → Dir × Res
  | .answer res => (dir, res)
  | .store value ttl res =>
    let r := trySet f cfg now random dir key value ttl
    (r.1, r.2.elim res .error)

/-- A call is its read and its decision. -/
theorem tryWrite_eq (f : Faults) (cfg : Config) (now : Instant) (random : Bytes) (dir : Dir)
    (op : WriteOp) :
    tryWrite f cfg now random dir op =
      (op.decision (reads cfg now dir op.key)).run f cfg now random (looked f cfg now dir op)
        op.key := by
  have hreads : ∀ key, tryGet f cfg now dir key =
      ((tryGet f cfg now dir key).1, reads cfg now dir key) := by
    intro key
    exact Prod.ext rfl (Failing.get_spec _ dir key).1
  cases op with
  | set key value ttl =>
    simp only [tryWrite, WriteOp.decision, Decision.run, looked, WriteOp.key]
    generalize trySet f cfg now random dir key value ttl = r
    obtain ⟨dir', _ | err⟩ := r <;> rfl
  | add key value ttl =>
    simp only [tryWrite, tryAdd, WriteOp.decision, looked, WriteOp.key]
    rw [hreads key]
    generalize reads cfg now dir key = before
    obtain err | _ | body := before
    · rfl
    · dsimp only [Decision.run]
      generalize trySet f cfg now random _ key value ttl = r
      obtain ⟨dir', _ | err⟩ := r <;> rfl
    · rfl
  | increment key delta ttl =>
    simp only [tryWrite, tryIncrement, WriteOp.decision, looked, WriteOp.key]
    rw [hreads key]
    generalize reads cfg now dir key = before
    obtain err | _ | body := before
    · rfl
    · dsimp only [Decision.run]
      generalize trySet f cfg now random _ key _ ttl = r
      obtain ⟨dir', _ | err⟩ := r <;> rfl
    · dsimp only
      cases parseInt body with
      | none => rfl
      | some n =>
        dsimp only [Decision.run]
        generalize trySet f cfg now random _ key _ ttl = r
        obtain ⟨dir', _ | err⟩ := r <;> rfl

/-- The value that a call reports to have written. -/
def WriteOp.reported : WriteOp → Res → Option Bytes
  | .set _ value _, .done => some value
  | .add _ value _, .flag true => some value
  | .increment _ _ _, .number n => some (formatInt n)
  | _, _ => none

/-- A call that returns at once fails or refuses. -/
theorem WriteOp.decision_answer {before : Except CacheError (Option Bytes)}
    (h : op.decision before = .answer res) : (∃ err, res = .error err) ∨ res = .flag false := by
  cases op with
  | set key value ttl => cases h
  | add key value ttl =>
    obtain err | _ | body := before <;> cases h
    · exact Or.inl ⟨err, rfl⟩
    · exact Or.inr rfl
  | increment key delta ttl =>
    obtain err | _ | body := before
    · cases h
      exact Or.inl ⟨err, rfl⟩
    · cases h
    · simp only [WriteOp.decision] at h
      split at h <;> cases h
      exact Or.inl ⟨_, rfl⟩

/-- A call that writes reports its value, and a counter the sum. -/
theorem WriteOp.decision_store {before : Except CacheError (Option Bytes)} {value : Bytes}
    {ttl : Duration} (h : op.decision before = .store value ttl res) :
    op.reported res = some value ∧ (∀ err, res ≠ .error err) ∧ res ≠ .flag false ∧
      ∀ key delta ttl' n, op = .increment key delta ttl' → res = .number n →
        ∃ current, n = current + delta ∧ (before = .ok none ∧ current = 0 ∨
          ∃ body, before = .ok (some body) ∧ parseInt body = some current) := by
  cases op with
  | set key v ttl' =>
    cases h
    exact ⟨rfl, by simp, by simp, by simp⟩
  | add key v ttl' =>
    obtain err | _ | body := before <;> cases h
    exact ⟨rfl, by simp, by simp, by simp⟩
  | increment key delta ttl' =>
    obtain err | _ | body := before
    · cases h
    · cases h
      refine ⟨rfl, by simp, by simp, ?_⟩
      rintro _ _ _ n ⟨⟩ ⟨⟩
      exact ⟨0, rfl, Or.inl ⟨rfl, rfl⟩⟩
    · simp only [WriteOp.decision] at h
      split at h <;> cases h
      rename_i current hparse
      refine ⟨rfl, by simp, by simp, ?_⟩
      rintro _ _ _ n ⟨⟩ ⟨⟩
      exact ⟨current, rfl, Or.inr ⟨body, rfl, hparse⟩⟩

/-! ## Atomic calls -/

/-- A call is going to write: no step fails, no directory is in the way, and it decides so. -/
def Applied (f : Faults) (cfg : Config) (now : Instant) (dir : Dir) (op : WriteOp) : Prop :=
  f.Spare ∧ dir.lookup (path cfg op.key) ≠ some .directory ∧
    ∃ value ttl res, op.decision (reads cfg now dir op.key) = .store value ttl res

/-- A call without a write does not show, and fails or refuses. -/
theorem tryWrite_of_not_applied (hclean : Uncorrupted cfg dir) (random : Bytes)
    (h : ¬Applied f cfg now dir op) :
    Faded cfg now dir (tryWrite f cfg now random dir op).1 ∧
      ((∃ err, (tryWrite f cfg now random dir op).2 = .error err) ∨
        (tryWrite f cfg now random dir op).2 = .flag false) := by
  have hfaded := faded_looked hclean f now op
  rw [tryWrite_eq]
  cases hdecision : op.decision (reads cfg now dir op.key) with
  | answer res => exact ⟨hfaded, WriteOp.decision_answer hdecision⟩
  | store value ttl res =>
    have hfault : ¬(f.Spare ∧
        (looked f cfg now dir op).lookup (path cfg op.key) ≠ some .directory) := by
      rintro ⟨hspare, hfile⟩
      refine h ⟨hspare, ?_, value, ttl, res, hdecision⟩
      intro hdir
      rcases hfaded _ (isFileStoreRecord_path cfg op.key) with hsame | ⟨-, data, record, hdata, -⟩
      · exact hfile (hsame.trans hdir)
      · cases hdir.symm.trans hdata
    obtain ⟨⟨err, herr⟩, hframe⟩ := trySet_of_fault hfault now random value ttl
    refine ⟨hfaded.frame hframe, Or.inl ⟨err, ?_⟩⟩
    simp only [Decision.run, herr, Option.elim_some]

/-- A call with a write puts the record of its key in place and reports its value. -/
theorem tryWrite_of_applied (hclean : Uncorrupted cfg dir)
    (hfresh : dir.lookup (tempName random) = none) (h : Applied f cfg now dir op) :
    ∃ value ttl res, op.decision (reads cfg now dir op.key) = .store value ttl res ∧
      (looked f cfg now dir op).lookup (tempName random) = none ∧
      tryWrite f cfg now random dir op =
        (set cfg now random (looked f cfg now dir op) op.key value ttl, res) := by
  obtain ⟨hspare, hfile, value, ttl, res, hdecision⟩ := h
  have hfile' : (looked f cfg now dir op).lookup (path cfg op.key) ≠ some .directory := by
    rcases faded_looked hclean f now op _ (isFileStoreRecord_path cfg op.key) with
      hsame | ⟨hgone, -⟩
    · rw [hsame]
      exact hfile
    · rw [hgone]
      simp
  refine ⟨value, ttl, res, hdecision, ?_, ?_⟩
  · rw [frame_looked f cfg now dir op _ (path_ne_tempName cfg op.key random).symm, hfresh]
  · rw [tryWrite_eq, hdecision, Decision.run, trySet_of_spare hspare hfile']
    rfl

/-- A call is atomic: if it fails or refuses, nothing that is seen has changed; other keys are read
as before in any case; a value that it reports is the one that is read, and a number is the sum of
what was read before and the delta; and every record is one that was there before or the complete
record of the key. -/
structure Atomic (f : Faults) (cfg : Config) (now : Instant) (random : Bytes) (dir : Dir)
    (op : WriteOp) : Prop where
  total : (∃ err, (tryWrite f cfg now random dir op).2 = .error err) ∨
    (tryWrite f cfg now random dir op).2 = .flag false ∨
      ∃ value, op.reported (tryWrite f cfg now random dir op).2 = some value
  failed : ∀ err, (tryWrite f cfg now random dir op).2 = .error err →
    SameView cfg now dir (tryWrite f cfg now random dir op).1
  refused : (tryWrite f cfg now random dir op).2 = .flag false →
    SameView cfg now dir (tryWrite f cfg now random dir op).1
  others : ∀ t, unixNano now ≤ unixNano t → ∀ key, path cfg key ≠ path cfg op.key →
    reads cfg t (tryWrite f cfg now random dir op).1 key = reads cfg t dir key
  stored : ∀ value, op.reported (tryWrite f cfg now random dir op).2 = some value →
    reads cfg now (tryWrite f cfg now random dir op).1 op.key = .ok (some value)
  summed : ∀ key delta ttl n, op = .increment key delta ttl →
    (tryWrite f cfg now random dir op).2 = .number n →
      ∃ current, n = current + delta ∧ (reads cfg now dir key = .ok none ∧ current = 0 ∨
        ∃ body, reads cfg now dir key = .ok (some body) ∧ parseInt body = some current)
  complete : ∀ name node, isFileStoreRecord name = true →
    (tryWrite f cfg now random dir op).1.lookup name = some node →
      dir.lookup name = some node ∨ name = path cfg op.key ∧ ∃ expiresAt value,
        op.reported (tryWrite f cfg now random dir op).2 = some value ∧
          node = .file (recordHeader op.key expiresAt ++ value)

/-- A value is read back without a part of the key before it exactly when 32 bits can count the
key. -/
theorem drop_append_eq_iff (key : Key) (value : Bytes) :
    key.drop (key.length % 2 ^ 32) ++ value = value ↔ key.length < 2 ^ 32 := by
  have hmod : key.length % 2 ^ 32 < 2 ^ 32 := Nat.mod_lt _ (by decide)
  constructor
  · intro h
    have hlength := congrArg List.length h
    rw [List.length_append, List.length_drop] at hlength
    omega
  · intro h
    rw [Nat.mod_eq_of_lt h, List.drop_length, List.nil_append]

/-- Results without a value. -/
theorem reported_of_not_ok (op : WriteOp) (h : (∃ err, res = .error err) ∨ res = .flag false) :
    op.reported res = none := by
  rcases h with ⟨err, rfl⟩ | rfl <;> cases op <;> rfl

/-- Every record after a call is one that was there before or the complete record of the key. -/
theorem complete_tryWrite (hclean : Uncorrupted cfg dir)
    (hfresh : dir.lookup (tempName random) = none) {node : Node}
    (hname : isFileStoreRecord name = true)
    (hnode : (tryWrite f cfg now random dir op).1.lookup name = some node) :
    dir.lookup name = some node ∨ name = path cfg op.key ∧ ∃ expiresAt value,
      op.reported (tryWrite f cfg now random dir op).2 = some value ∧
        node = .file (recordHeader op.key expiresAt ++ value) := by
  have hold : ∀ {dir'}, Faded cfg now dir dir' → dir'.lookup name = some node →
      dir.lookup name = some node := by
    intro dir' hfaded hlookup
    rcases hfaded name hname with hsame | ⟨hgone, -⟩
    · exact hsame.symm.trans hlookup
    · cases hgone.symm.trans hlookup
  by_cases happlied : Applied f cfg now dir op
  · obtain ⟨value, ttl, res, hdecision, hfree, heq⟩ := tryWrite_of_applied hclean hfresh happlied
    rw [heq] at hnode ⊢
    dsimp only at hnode
    rw [set_lookup cfg now op.key value ttl hfree] at hnode
    split at hnode
    · rename_i hpath
      cases hnode
      exact Or.inr ⟨hpath, _, value, (WriteOp.decision_store hdecision).1, rfl⟩
    · exact Or.inl (hold (faded_looked hclean f now op) hnode)
  · exact Or.inl (hold (tryWrite_of_not_applied hclean random happlied).1 hnode)

/-- A call without a write is atomic. -/
theorem atomic_of_not_applied (hclean : Uncorrupted cfg dir)
    (hfresh : dir.lookup (tempName random) = none) (h : ¬Applied f cfg now dir op) :
    Atomic f cfg now random dir op := by
  obtain ⟨hfaded, hres⟩ := tryWrite_of_not_applied hclean random h
  have hview := sameView_of_faded hfaded
  have hreported := reported_of_not_ok op hres
  refine ⟨hres.imp_right Or.inl, fun _ _ => hview, fun _ => hview, ?_, ?_, ?_,
    fun name node => complete_tryWrite hclean hfresh⟩
  · intro t ht key _
    exact (hview t ht).1 key
  · intro value hvalue
    rw [hreported] at hvalue
    cases hvalue
  · intro key delta ttl n _ hn
    rcases hres with ⟨err, herr⟩ | hflag
    · cases herr.symm.trans hn
    · cases hflag.symm.trans hn

/-- A call with a write reads back the value, behind the part of the key that is not counted. -/
theorem reads_of_applied (hclean : Uncorrupted cfg dir)
    (hfresh : dir.lookup (tempName random) = none) (h : Applied f cfg now dir op) :
    ∃ value, op.reported (tryWrite f cfg now random dir op).2 = some value ∧
      reads cfg now (tryWrite f cfg now random dir op).1 op.key =
        .ok (some (op.key.drop (op.key.length % 2 ^ 32) ++ value)) := by
  obtain ⟨value, ttl, res, hdecision, hfree, heq⟩ := tryWrite_of_applied hclean hfresh h
  rw [heq]
  exact ⟨value, (WriteOp.decision_store hdecision).1, get_after_set cfg now op.key value ttl hfree⟩

/-- A call with a write is atomic when 32 bits can count its key. -/
theorem atomic_of_applied (hclean : Uncorrupted cfg dir)
    (hfresh : dir.lookup (tempName random) = none) (h : Applied f cfg now dir op)
    (hkey : op.key.length < 2 ^ 32) : Atomic f cfg now random dir op := by
  obtain ⟨value, hreported, hread⟩ := reads_of_applied hclean hfresh h
  obtain ⟨value', ttl, res, hdecision, hfree, heq⟩ := tryWrite_of_applied hclean hfresh h
  obtain ⟨-, hnotError, hnotRefused, hsum⟩ := WriteOp.decision_store hdecision
  have hres : (tryWrite f cfg now random dir op).2 = res := by rw [heq]
  rw [← hres] at hnotError hnotRefused hsum
  refine ⟨Or.inr (Or.inr ⟨value, hreported⟩), fun err herr => absurd herr (hnotError err),
    fun hrefused => absurd hrefused hnotRefused, ?_, ?_, ?_,
    fun name node => complete_tryWrite hclean hfresh⟩
  · intro t _ key hother
    apply reads_congr
    rw [heq]
    exact (Failing.set_frame hfree value' ttl hother).trans (frame_looked f cfg now dir op _ hother)
  · intro value hvalue
    cases hreported.symm.trans hvalue
    rw [hread, (drop_append_eq_iff op.key value).mpr hkey]
  · rintro key delta ttl' n rfl hn
    exact hsum key delta ttl' n rfl hn

/--
Failed writes change nothing that is seen.  The directory has no corrupt records, and
`createTempFile` settles on a name that is free.  A `Set`, `Add` or `Increment`
with any arguments, and any choice of its filesystem steps that fail, is atomic if and only if it
does not come to write, or 32 bits can count its key.
-/
theorem write_atomic_iff (hclean : Uncorrupted cfg dir)
    (hfresh : dir.lookup (tempName random) = none) (f : Faults) (now : Instant) (op : WriteOp) :
    Atomic f cfg now random dir op ↔ (Applied f cfg now dir op → op.key.length < 2 ^ 32) := by
  constructor
  · intro hatomic happlied
    obtain ⟨value, hreported, hread⟩ := reads_of_applied hclean hfresh happlied
    have hsame := hread.symm.trans (hatomic.stored value hreported)
    exact (drop_append_eq_iff op.key value).mp (Option.some.inj (Except.ok.inj hsame))
  · intro hkey
    by_cases happlied : Applied f cfg now dir op
    · exact atomic_of_applied hclean hfresh happlied (hkey happlied)
    · exact atomic_of_not_applied hclean hfresh happlied

/-! ## Runs of writes -/

/-- A call leaves no record that does not decode. -/
theorem uncorrupted_tryWrite (hclean : Uncorrupted cfg dir)
    (hfresh : dir.lookup (tempName random) = none) (f : Faults) (now : Instant) (op : WriteOp) :
    Uncorrupted cfg (tryWrite f cfg now random dir op).1 := by
  intro name data hname hdata
  rcases complete_tryWrite hclean hfresh hname hdata with hold | ⟨-, expiresAt, value, -, hnew⟩
  · exact hclean name data hname hold
  · cases hnew
    exact ⟨_, decodeFileRecord_encode cfg.unmarshal op.key expiresAt value⟩

/-- A call with its failing steps, its instant, and the random part of its temporary file. -/
structure Attempt where
  faults : Faults
  now : Instant
  random : Bytes
  op : WriteOp

/-- One call of a run.  `createTempFile` only settles on a name that is not taken. -/
def attempt (cfg : Config) (dir : Dir) (a : Attempt) : Option Dir :=
  if dir.lookup (tempName a.random) = none then
    some (tryWrite a.faults cfg a.now a.random dir a.op).1
  else none

/-- No run of writes leaves a record that does not decode, so each of them is atomic unless it
writes a key that 32 bits cannot count. -/
theorem uncorrupted_tryWrites (hclean : Uncorrupted cfg dir) {attempts : List Attempt}
    (hrun : Transition.run (attempt cfg) dir attempts = some dir') : Uncorrupted cfg dir' := by
  refine Transition.run_preserves ?_ hclean hrun
  intro dir a dir' hclean hstep
  unfold attempt at hstep
  split at hstep
  · rename_i hfresh
    cases hstep
    exact uncorrupted_tryWrite hclean hfresh a.faults a.now a.op
  · cases hstep

/-- No step fails. -/
def noFaults : Faults := ⟨none, none, none, none, none, none, none, none⟩

theorem noFaults_spare : noFaults.Spare := ⟨rfl, rfl, rfl, rfl, rfl, rfl⟩

/-- The call of the contract. -/
def WriteOp.toOp : WriteOp → Op
  | .set key value ttl => .set key value ttl
  | .add key value ttl => .add key value ttl
  | .increment key delta ttl => .increment key delta ttl

/-- Without a failing step, and without a directory in the way, these are the operations of the
store. -/
theorem tryWrite_noFaults (hfile : dir.lookup (path cfg op.key) ≠ some .directory) :
    tryWrite noFaults cfg now random dir op = exec cfg now random dir op.toOp := by
  have hget : ∀ key, tryGet noFaults cfg now dir key = File.get cfg now dir key := fun _ => rfl
  have hfile' : (File.get cfg now dir op.key).1.lookup (path cfg op.key) ≠ some .directory := by
    rw [← hget]
    rcases (Failing.get_spec _ dir op.key).2 with hsame | ⟨hgone, -⟩
    · rw [tryGet, hsame]
      exact hfile
    · rw [tryGet, hgone, remove, AList.lookup_erase]
      simp
  cases op with
  | set key value ttl =>
    simp only [WriteOp.key] at hfile
    simp only [tryWrite, trySet_of_spare noFaults_spare hfile]
    rfl
  | add key value ttl =>
    simp only [WriteOp.key] at hfile'
    simp only [tryWrite, tryAdd, hget, WriteOp.toOp, exec, add]
    generalize File.get cfg now dir key = r at hfile' ⊢
    obtain ⟨dir', err | _ | body⟩ := r
    · rfl
    · simp only [trySet_of_spare noFaults_spare hfile']
    · rfl
  | increment key delta ttl =>
    simp only [WriteOp.key] at hfile'
    simp only [tryWrite, tryIncrement, hget, WriteOp.toOp, exec, increment]
    generalize File.get cfg now dir key = r at hfile' ⊢
    obtain ⟨dir', err | _ | body⟩ := r
    · rfl
    · simp only [trySet_of_spare noFaults_spare hfile']
    · dsimp only
      cases parseInt body with
      | none => rfl
      | some n => simp only [trySet_of_spare noFaults_spare hfile']

/-- A directory with one record. -/
def oneRecord : Dir := (tryWrite noFaults sampleConfig 0 [] ∅ (.set (ascii "k") (ascii "1") 60)).1

/-- The disk is full after two bytes of the value, and the temporary file cannot be removed. -/
def diskFull : Faults :=
  ⟨none, none, some (.external 28, 2), none, none, none, some (.external 30), none⟩

/-- A write, and an update on a full disk. -/
def twoWrites : List Attempt :=
  [⟨noFaults, 0, [], .set (ascii "k") (ascii "1") 60⟩,
    ⟨diskFull, 5, [7], .increment (ascii "k") 1000 60⟩]

/-- Neither of the two leaves a record that does not decode. -/
theorem uncorrupted_twoWrites :
    ∃ dir, Transition.run (attempt sampleConfig) ∅ twoWrites = some dir ∧
      Uncorrupted sampleConfig dir := by
  have hclean : Uncorrupted sampleConfig ∅ := by
    intro name data _ hdata
    cases hdata
  exact ⟨_, rfl, uncorrupted_tryWrites hclean
    (rfl : Transition.run (attempt sampleConfig) ∅ twoWrites = _)⟩

/-- A counter update on a full disk fails, leaves its temporary file behind, and does not show. -/
theorem write_atomic_diskFull :
    (tryWrite diskFull sampleConfig 5 [7] oneRecord (.increment (ascii "k") 1000 60)).2 =
      .error (.external 28) ∧
    (tryWrite diskFull sampleConfig 5 [7] oneRecord (.increment (ascii "k") 1000 60)).1.lookup
      (tempName [7]) ≠ none ∧
    SameView sampleConfig 5 oneRecord
      (tryWrite diskFull sampleConfig 5 [7] oneRecord (.increment (ascii "k") 1000 60)).1 := by
  have herr : (tryWrite diskFull sampleConfig 5 [7] oneRecord
      (.increment (ascii "k") 1000 60)).2 = .error (.external 28) := by decide +kernel
  have hempty : Uncorrupted sampleConfig ∅ := by
    intro name data _ hdata
    cases hdata
  have hclean : Uncorrupted sampleConfig oneRecord :=
    uncorrupted_tryWrite hempty rfl noFaults 0 (.set (ascii "k") (ascii "1") 60)
  have hfresh : oneRecord.lookup (tempName [7]) = none := by decide +kernel
  have hatomic := (write_atomic_iff hclean hfresh diskFull 5 (.increment (ascii "k") 1000 60)).mpr
    (fun _ => by decide)
  refine ⟨herr, ?_, hatomic.failed _ herr⟩
  decide +kernel

/-- Whatever the digests and the default lifetime are: `Set` of `v` under a key of
`2 ^ 32` bytes succeeds on an empty directory, and the value that is read then is not
`v`. -/
theorem long_key_not_stored :
    longKey.length = 2 ^ 32 ∧ ∀ cfg : Config, Uncorrupted cfg ∅ ∧
      (tryWrite noFaults cfg 0 [] ∅ (.set longKey (ascii "v") 60)).2 = .done ∧
      reads cfg 0 (tryWrite noFaults cfg 0 [] ∅ (.set longKey (ascii "v") 60)).1 longKey ≠
        .ok (some (ascii "v")) := by
  have hlength : longKey.length = 2 ^ 32 := by rw [longKey, List.length_replicate]
  refine ⟨hlength, ?_⟩
  intro cfg
  have hempty : Uncorrupted cfg ∅ := by
    intro name data _ hdata
    cases hdata
  have hdone : ∀ key, (tryWrite noFaults cfg 0 [] ∅ (.set key (ascii "v") 60)).2 = .done := by
    intro key
    rw [tryWrite_noFaults (by simp)]
    rfl
  have hread : ∀ key, reads cfg 0 (tryWrite noFaults cfg 0 [] ∅ (.set key (ascii "v") 60)).1 key =
      .ok (some (ascii "v")) → key.length < 2 ^ 32 := by
    intro key hread
    have happlied : Applied noFaults cfg 0 ∅ (.set key (ascii "v") 60) :=
      ⟨noFaults_spare, by simp, ascii "v", 60, .done, rfl⟩
    have hfresh : (∅ : Dir).lookup (tempName []) = none := rfl
    obtain ⟨value, hreported, hread'⟩ := reads_of_applied hempty hfresh happlied
    rw [hdone] at hreported
    cases hreported
    exact (drop_append_eq_iff key (ascii "v")).mp
      (Option.some.inj (Except.ok.inj (hread'.symm.trans hread)))
  refine ⟨hempty, hdone longKey, ?_⟩
  intro hstored
  have hshort := hread longKey hstored
  omega

end FailedWrites
end File
end GoforjCache
