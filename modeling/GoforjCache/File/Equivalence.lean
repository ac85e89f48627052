import GoforjCache.File.Store
import GoforjCache.Foundation.Transition
import GoforjCache.Memory.Store

/-!
# Files - The filesystem store and the memory store behave alike

A `memoryStore` and a `fileStore` run through the same calls on the same clock.  The
memory engine may collect dead entries at any time, and other programs may create, change and
remove files of other names in the directory.

Main results:

- Theorem `exec_plan`: a call of the file store means what the contract says, on the
  record in the file of its key.
- Theorem `file_equals_memory`: as long as every written key is shorter than
  `2 ^ 32` bytes and the 64-bit view of the clock does not go back, both stores give the
  same results, and the file store leaves files of other names alone.
- Theorem `long_key_differs`: a longer key reads back with a part of the key in the value.
-/

namespace GoforjCache
namespace File

open Foundation Foundation.Transition

/-! ## The record in the file of a key -/

/-- The file of a key holds an optional record, written by this store. -/
structure Holds (cfg : Config) (dir : Dir) (key : Key) (item : Option (Item Bytes)) : Prop where
  lookup : dir.lookup (path cfg key) =
    item.map fun item => .file (recordHeader key item.expiration ++ item.value)
  short : item ≠ none → key.length < 2 ^ 32

/-- The directory after a call followed its plan: other names are untouched, and the file of
the key holds the changed record unless the key was too long for it. -/
structure Follows (cfg : Config) (now : Instant) (key : Key) (item : Option (Item Bytes))
    (dir dir' : Dir) (c : Change) : Prop where
  frame : ∀ name, name ≠ path cfg key → dir'.lookup name = dir.lookup name
  holds : (∀ value ttl, c = .put value ttl → key.length < 2 ^ 32) →
    ∃ item', Holds cfg dir' key item' ∧
      ExpiringMap.live now item' = ExpiringMap.live now (c.apply cfg.defaultTTL now item)

variable {cfg : Config} {now : Instant} {key : Key} {item : Option (Item Bytes)} {dir dir' : Dir}

/-- A read answers with the live value; at most it removes a dead file. -/
theorem get_spec (now : Instant) (h : Holds cfg dir key item) :
    ∃ dir', get cfg now dir key = (dir', .ok ((ExpiringMap.live now item).map Item.value)) ∧
      Follows cfg now key item dir dir' .keep := by
  have hlookup := h.lookup
  cases item with
  | none =>
    refine ⟨dir, ?_, fun _ _ => rfl, fun _ => ⟨none, h, rfl⟩⟩
    simp only [Option.map_none] at hlookup
    simp [get, readFile, hlookup, ExpiringMap.live]
  | some item =>
    simp only [Option.map_some] at hlookup
    have hdecode := decodeFileRecord_encode_of_lt cfg.unmarshal (h.short (by simp))
      item.expiration item.value
    by_cases hdead : 0 < item.expiration ∧ item.expiration < unixNano now
    · have hexpired : ExpiringMap.expired now item.expiration = true := by
        simp [ExpiringMap.expired, hdead.1, hdead.2]
      refine ⟨remove dir (path cfg key), ?_, ?_, ?_⟩
      · simp [get, readFile, hlookup, hdecode, hdead, ExpiringMap.live, hexpired]
      · intro name hname
        exact AList.lookup_erase_ne hname
      · intro _
        refine ⟨none, ⟨AList.lookup_erase _ _, by simp⟩, ?_⟩
        simp [Change.apply, ExpiringMap.live, hexpired]
    · have hlive : ExpiringMap.expired now item.expiration = false := by
        simpa [ExpiringMap.expired] using hdead
      refine ⟨dir, ?_, fun _ _ => rfl, fun _ => ⟨some item, h, rfl⟩⟩
      simp [get, readFile, hlookup, hdecode, hdead, ExpiringMap.live, hlive]

variable {random : Bytes} {op : Op} {K : Set Key} {w : World}

/-- A write after a read puts the new record in place. -/
theorem Follows.put (h : Follows cfg now key item dir dir' .keep)
    (hfresh : dir.lookup (tempName random) = none) (value : Bytes) (ttl : Duration) :
    Follows cfg now key item dir (set cfg now random dir' key value ttl) (.put value ttl) := by
  have hfresh' : dir'.lookup (tempName random) = none := by
    rw [h.frame _ (path_ne_tempName cfg key random).symm, hfresh]
  have hdeadline : ExpiringMap.deadline now (cfg.defaultTTL.resolve ttl) =
      unixNano (now + (cfg.defaultTTL.resolve ttl).toInt) :=
    if_pos (cfg.defaultTTL.resolve_pos ttl)
  constructor
  · intro name hname
    rw [set_lookup cfg now key value ttl hfresh', if_neg hname, h.frame name hname]
  · intro hshort
    refine ⟨_, ⟨?_, fun _ => hshort value ttl rfl⟩, rfl⟩
    rw [set_lookup cfg now key value ttl hfresh', if_pos rfl, Change.apply, hdeadline]
    rfl

/-- A removal after a read leaves no record. -/
theorem Follows.drop (h : Follows cfg now key item dir dir' .keep) :
    Follows cfg now key item dir (delete cfg dir' key) .drop := by
  constructor
  · intro name hname
    rw [delete, remove, AList.lookup_erase_ne hname, h.frame name hname]
  · intro _
    exact ⟨none, ⟨AList.lookup_erase _ _, by simp⟩, rfl⟩

/-- Without a read first, the directory is as it was. -/
theorem Follows.refl (h : Holds cfg dir key item) : Follows cfg now key item dir dir .keep :=
  ⟨fun _ _ => rfl, fun _ => ⟨item, h, rfl⟩⟩

/-- A conditional write follows its plan. -/
theorem add_plan (h : Holds cfg dir key item) (hfresh : dir.lookup (tempName random) = none)
    (value : Bytes) (ttl : Duration) : let r := add cfg now random dir key value ttl
    let plan := planAdd value ttl ((ExpiringMap.live now item).map Item.value)
    result .flag r.2 = plan.2 ∧ Follows cfg now key item dir r.1 plan.1 := by
  obtain ⟨dir', hget, hkeep⟩ := get_spec now h
  cases hlive : (ExpiringMap.live now item).map Item.value with
  | none =>
    simp only [add, hget, hlive]
    exact ⟨rfl, hkeep.put hfresh value ttl⟩
  | some body =>
    simp only [add, hget, hlive]
    exact ⟨rfl, hkeep⟩

/-- A counter update follows its plan. -/
theorem increment_plan (h : Holds cfg dir key item) (hfresh : dir.lookup (tempName random) = none)
    (delta : Int64) (ttl : Duration) : let r := increment cfg now random dir key delta ttl
    let plan := planIncrement key delta ttl ((ExpiringMap.live now item).map Item.value)
    result .number r.2 = plan.2 ∧ Follows cfg now key item dir r.1 plan.1 := by
  obtain ⟨dir', hget, hkeep⟩ := get_spec now h
  cases hlive : (ExpiringMap.live now item).map Item.value with
  | none =>
    simp only [increment, hget, hlive]
    exact ⟨rfl, hkeep.put hfresh _ ttl⟩
  | some body =>
    simp only [increment, hget, hlive, planIncrement]
    cases Decimal.parseInt body with
    | some n => exact ⟨rfl, hkeep.put hfresh _ ttl⟩
    | none => exact ⟨rfl, hkeep⟩

/-- A call on one record answers by its plan and changes the file of its key by it. -/
theorem exec_plan (now : Instant) (h : Holds cfg dir key item)
    (hfresh : dir.lookup (tempName random) = none) (hop : op.single = some key) :
    let r := exec cfg now random dir op
    let plan := op.plan ((ExpiringMap.live now item).map Item.value)
    r.2 = plan.2 ∧ Follows cfg now key item dir r.1 plan.1 := by
  cases op with
  | get k =>
    cases hop
    obtain ⟨dir', hget, hkeep⟩ := get_spec now h
    simp only [exec, hget]
    exact ⟨rfl, hkeep⟩
  | set k value ttl =>
    cases hop
    exact ⟨rfl, (Follows.refl h).put hfresh value ttl⟩
  | add k value ttl | lockAcquire k value ttl =>
    cases hop
    exact add_plan h hfresh value ttl
  | increment k delta ttl =>
    cases hop
    exact increment_plan h hfresh delta ttl
  | decrement k delta ttl =>
    cases hop
    exact increment_plan h hfresh (-delta) ttl
  | delete k =>
    cases hop
    exact ⟨rfl, (Follows.refl h).drop⟩
  | lockRelease k owner =>
    cases hop
    obtain ⟨dir', hget, hkeep⟩ := get_spec now h
    simp only [exec, lockRelease, hget, Op.plan]
    cases hlive : (ExpiringMap.live now item).map Item.value with
    | none => exact ⟨rfl, hkeep⟩
    | some body =>
      by_cases howner : body = owner
      · subst howner
        simp only [if_pos]
        exact ⟨rfl, hkeep.drop⟩
      · simp only [howner, if_false, Option.some.injEq]
        exact ⟨rfl, hkeep⟩
  | deleteMany keys => cases hop
  | flush => cases hop

/-! ## Both stores side by side -/

/-- The two stores and the clock. -/
structure World where
  mem : Memory.Items
  dir : Dir
  now : Instant

/-- A call on both stores, with the random part of the temporary file it may create; a step of
the clock; a run of the janitor of the memory engine; and another program that writes or
removes a file. -/
inductive Event where
  | call (op : Op) (random : Bytes)
  | tick (d : Nat)
  | collect
  | foreign (name : Name) (node : Option Node)

/-- The stores after a call. -/
def World.after (cfg : Config) (w : World) (random : Bytes) (op : Op) : World :=
  { w with
    mem := (Memory.exec cfg.defaultTTL w.now w.mem op).1
    dir := (exec cfg w.now random w.dir op).1 }

/-- One step.  `createTempFile` only settles on a name that is not taken, and other
programs stay away from the names of the store. -/
def step (cfg : Config) (w : World) : Event → Option World
  | .call op random =>
    match w.dir.lookup (tempName random) with
    | some _ => none
    | none => some (w.after cfg random op)
  | .tick d => some { w with now := w.now + d }
  | .collect => some { w with mem := w.mem.deleteExpired w.now }
  | .foreign name node =>
    if isFileStoreEntry name then none
    else
      match node with
      | some node => some { w with dir := w.dir.insert name node }
      | none => some { w with dir := w.dir.erase name }

/-- Two fresh stores: nothing in memory, and no file of the store in the directory. -/
def World.Initial (w : World) : Prop :=
  (∀ key, w.mem key = none) ∧ ∀ name, isFileStoreEntry name = true → w.dir.lookup name = none

/-- The call names keys of `K` only. -/
def Op.Within (K : Set Key) (op : Op) : Prop := ∀ keys, op.keys = some keys → ∀ key ∈ keys, key ∈ K

/-- The one key of such a call is in `K`. -/
theorem Op.Within.single (h : Op.Within K op) (hsingle : op.single = some key) : key ∈ K :=
  h _ (Op.keys_of_single hsingle) _ List.mem_cons_self

/-- A call that may write names a key that 32 bits can count. -/
def Op.Countable (op : Op) : Prop :=
  ∀ key, op.single = some key →
    (∃ live value ttl, (op.plan live).1 = .put value ttl) → key.length < 2 ^ 32

/-- The side condition of a step: written keys can be counted by 32 bits, and the 64-bit view
of the clock does not go back. -/
def Sound (K : Set Key) (w : World) : Event → Prop
  | .call op _ => Op.Within K op ∧ Op.Countable op
  | .tick d => unixNano w.now ≤ unixNano (w.now + d)
  | _ => True

/-- The stores agree on a key: the file holds a record that is live when and as the one in
memory is. -/
def Agree (cfg : Config) (w : World) (key : Key) : Prop :=
  ∃ item, Holds cfg w.dir key item ∧
    ExpiringMap.live w.now item = ExpiringMap.live w.now (w.mem key)

/-- Fresh stores agree on every key. -/
theorem World.Initial.agree (h : w.Initial) (cfg : Config) (key : Key) : Agree cfg w key := by
  refine ⟨none, ⟨h.2 _ (isFileStoreEntry_path cfg key), by simp⟩, ?_⟩
  rw [h.1 key]

/-- A call on one record of which the stores agree gives the same result on both. -/
theorem Agree.exec_eq (h : Agree cfg w key) (hfresh : w.dir.lookup (tempName random) = none)
    (hop : op.single = some key) :
    (exec cfg w.now random w.dir op).2 = (Memory.exec cfg.defaultTTL w.now w.mem op).2 := by
  obtain ⟨item, hholds, hlive⟩ := h
  rw [(exec_plan w.now hholds hfresh hop).1, Memory.exec_plan _ _ _ hop, ExpiringMap.get_eq_live,
    hlive]

/-- Names that are not of the store's own form are untouched by every call. -/
theorem exec_foreign (hK : ∀ key ∈ K, Agree cfg w key)
    (hfresh : w.dir.lookup (tempName random) = none) (hop : Op.Within K op) {name : Name}
    (hname : isFileStoreEntry name = false) :
    (exec cfg w.now random w.dir op).1.lookup name = w.dir.lookup name := by
  have hne : ∀ key, name ≠ path cfg key := by
    rintro key rfl
    rw [isFileStoreEntry_path] at hname
    cases hname
  cases hsingle : op.single with
  | some key =>
    obtain ⟨item, hholds, -⟩ := hK key (hop.single hsingle)
    exact (exec_plan w.now hholds hfresh hsingle).2.frame name (hne key)
  | none =>
    rcases Op.of_single_eq_none hsingle with ⟨keys, rfl⟩ | rfl
    · simp only [exec]
      rw [deleteMany_lookup, if_neg]
      rintro ⟨key, -, rfl⟩
      exact hne key rfl
    · exact flush_lookup_of_foreign w.dir hname

/-- Different keys whose sums differ have different files. -/
theorem path_ne (hinj : Set.InjOn cfg.sha256.sum256 K) {a b : Key} (ha : a ∈ K) (hb : b ∈ K)
    (hne : a ≠ b) : path cfg a ≠ path cfg b := by
  intro h
  exact hne (hinj ha hb (sum256_eq_of_path_eq h))

/-- A record stays in place when the file of its key does. -/
theorem Holds.congr (h : Holds cfg dir key item)
    (heq : dir'.lookup (path cfg key) = dir.lookup (path cfg key)) : Holds cfg dir' key item :=
  ⟨heq.trans h.lookup, h.short⟩

theorem holds_none (h : dir.lookup (path cfg key) = none) : Holds cfg dir key none :=
  ⟨h, fun hne => absurd rfl hne⟩

section Calls

variable {K : Set Key} {w : World} {random : Bytes}

/-- A call on one record keeps the stores in agreement. -/
theorem agree_after_single (hinj : Set.InjOn cfg.sha256.sum256 K)
    (hK : ∀ key ∈ K, Agree cfg w key) (hfresh : w.dir.lookup (tempName random) = none) {op : Op}
    {k : Key} (hsingle : op.single = some k) (hk : k ∈ K) (hcount : Op.Countable op) :
    ∀ key ∈ K, Agree cfg (w.after cfg random op) key := by
  intro key hkey
  have hmem : (w.after cfg random op).mem = Function.update w.mem k
      ((op.plan (w.mem.get w.now k)).1.apply cfg.defaultTTL w.now (w.mem k)) :=
    congrArg Prod.fst (Memory.exec_plan cfg.defaultTTL w.now w.mem hsingle)
  obtain ⟨item, hholds, hlive⟩ := hK k hk
  have hfollows := (exec_plan w.now hholds hfresh hsingle).2
  by_cases hne : key = k
  · subst hne
    obtain ⟨item', hholds', hlive'⟩ := hfollows.holds
      fun value ttl hput => hcount key hsingle ⟨_, value, ttl, hput⟩
    refine ⟨item', hholds', ?_⟩
    rw [hmem, Function.update_self, ExpiringMap.get_eq_live, ← hlive]
    exact hlive'.trans (Change.live_apply _ _ _ hlive)
  · obtain ⟨other, hother, holive⟩ := hK key hkey
    refine ⟨other, hother.congr (hfollows.frame _ (path_ne hinj hkey hk hne)), ?_⟩
    rw [hmem, Function.update_of_ne hne]
    exact holive

/-- So does `DeleteMany`. -/
theorem agree_after_deleteMany (hinj : Set.InjOn cfg.sha256.sum256 K)
    (hK : ∀ key ∈ K, Agree cfg w key) {keys : List Key} (hkeys : ∀ key ∈ keys, key ∈ K) :
    ∀ key ∈ K, Agree cfg (w.after cfg random (.deleteMany keys)) key := by
  intro key hkey
  have hlookup := deleteMany_lookup cfg w.dir keys (path cfg key)
  by_cases hmem : key ∈ keys
  · rw [if_pos ⟨key, hmem, rfl⟩] at hlookup
    refine ⟨none, holds_none hlookup, ?_⟩
    exact congrArg _ (Memory.deleteMany_of_mem hmem w.mem).symm
  · rw [if_neg] at hlookup
    · obtain ⟨item, hholds, hlive⟩ := hK key hkey
      refine ⟨item, hholds.congr hlookup, hlive.trans ?_⟩
      exact congrArg _ (Memory.deleteMany_of_notMem hmem w.mem).symm
    · rintro ⟨k, hk, hpath⟩
      have hne : k ≠ key := by
        rintro rfl
        exact hmem hk
      exact path_ne hinj (hkeys k hk) hkey hne hpath

/-- So does `Flush`. -/
theorem agree_after_flush (hK : ∀ key ∈ K, Agree cfg w key) :
    ∀ key ∈ K, Agree cfg (w.after cfg random .flush) key := by
  intro key hkey
  obtain ⟨item, hholds, -⟩ := hK key hkey
  have hfile : w.dir.lookup (path cfg key) ≠ some .directory := by
    rw [hholds.lookup]
    cases item <;> simp
  exact ⟨none, holds_none (flush_lookup_of_own w.dir (isFileStoreEntry_path cfg key) hfile), rfl⟩

end Calls

/-- Every sound step keeps the stores in agreement on the keys in use. -/
theorem agree_step {K : Set Key} (hinj : Set.InjOn cfg.sha256.sum256 K) {w w' : World}
    {e : Event} (hK : ∀ key ∈ K, Agree cfg w key) (hsound : Sound K w e)
    (h : step cfg w e = some w') : ∀ key ∈ K, Agree cfg w' key := by
  cases e with
  | call op random =>
    simp only [step] at h
    split at h
    · cases h
    · rename_i hfresh
      cases h
      obtain ⟨hwithin, hcount⟩ := hsound
      cases hsingle : op.single with
      | some k =>
        exact agree_after_single hinj hK hfresh hsingle (hwithin.single hsingle) hcount
      | none =>
        rcases Op.of_single_eq_none hsingle with ⟨keys, rfl⟩ | rfl
        · exact agree_after_deleteMany hinj hK (hwithin keys rfl)
        · exact agree_after_flush hK
  | tick d =>
    cases h
    intro key hkey
    obtain ⟨item, hholds, hlive⟩ := hK key hkey
    refine ⟨item, hholds, ?_⟩
    rw [← ExpiringMap.live_live hsound, hlive, ExpiringMap.live_live hsound]
  | collect =>
    cases h
    intro key hkey
    obtain ⟨item, hholds, hlive⟩ := hK key hkey
    exact ⟨item, hholds, hlive.trans (ExpiringMap.live_deleteExpired w.mem w.now key).symm⟩
  | foreign name node =>
    intro key hkey
    obtain ⟨item, hholds, hlive⟩ := hK key hkey
    simp only [step] at h
    split at h
    · cases h
    · rename_i hown
      have hne : path cfg key ≠ name := by
        rintro rfl
        exact hown (isFileStoreEntry_path cfg key)
      split at h <;> cases h
      · exact ⟨item, hholds.congr (AList.lookup_insert_ne hne), hlive⟩
      · exact ⟨item, hholds.congr (AList.lookup_erase_ne hne), hlive⟩

/--
The memory store and the file store are observationally equivalent.  Start with a fresh
`memoryStore` and a fresh `fileStore` on a directory without files of its own, and
let `K` be a set of keys on which SHA-256 is injective.  In every state reached by calls
on keys of `K`, clock steps, collections and foreign programs, where written keys are
shorter than `2 ^ 32` bytes and the 64-bit view of the clock does not go back, every call
of the contract returns the same result from both stores, and leaves every file alone whose
name is not of the store's own form.
-/
theorem file_equals_memory {K : Set Key} (hinj : Set.InjOn cfg.sha256.sum256 K) {w₀ w : World}
    {es : List Event} (hinit : w₀.Initial) (hsound : Along (step cfg) (Sound K) w₀ es)
    (hrun : run (step cfg) w₀ es = some w) {op : Op} (hop : Op.Within K op) {random : Bytes}
    (hfresh : w.dir.lookup (tempName random) = none) :
    (exec cfg w.now random w.dir op).2 = (Memory.exec cfg.defaultTTL w.now w.mem op).2 ∧
      ∀ name, isFileStoreEntry name = false →
        (exec cfg w.now random w.dir op).1.lookup name = w.dir.lookup name := by
  have hK : ∀ key ∈ K, Agree cfg w key :=
    run_preserves_along (fun w e w' hw hG h => agree_step hinj hw hG h)
      (fun key _ => hinit.agree cfg key) hsound hrun
  refine ⟨?_, fun name hname => exec_foreign hK hfresh hop hname⟩
  cases hsingle : op.single with
  | some key => exact (hK key (hop.single hsingle)).exec_eq hfresh hsingle
  | none => rcases Op.of_single_eq_none hsingle with ⟨keys, rfl⟩ | rfl <;> rfl

/-! ## Runs of both stores -/

/-- The SHA-256 of the one-byte key `k`. -/
def sumOfK : Bytes :=
  [0x82, 0x54, 0xc3, 0x29, 0xa9, 0x28, 0x50, 0xf6, 0xd5, 0x39, 0xdd,
    0x37, 0x6f, 0x48, 0x16, 0xee, 0x27, 0x64, 0x51, 0x7d, 0xa5, 0xe0,
    0x23, 0x55, 0x14, 0xaf, 0x43, 0x31, 0x64, 0x48, 0x0d, 0x7a]

/-- SHA-256 on the key `k`. -/
def sampleSha256 : Sha256 where
  sum256 := fun b => if b = ascii "k" then sumOfK else List.replicate 32 0
  length := by
    intro b
    split <;> rfl

/-- Stores with the default lifetime; no record of the oldest format is ever read. -/
def sampleConfig : Config := ⟨sampleSha256, fun _ => none, DefaultTTL.normalize 0⟩

/-- Fresh stores at the epoch. -/
def freshWorld : World := ⟨fun _ => none, ∅, 0⟩

/-- A write, a pause, a read after the lifetime has ended, and a counter. -/
def sampleRun : List Event :=
  [.call (.set (ascii "k") (ascii "7") 60) [], .tick 100, .call (.get (ascii "k")) [],
    .call (.increment (ascii "k") 5 60) [], .collect]

/-- The stores after that run. -/
def sampleWorld : World := (run (step sampleConfig) freshWorld sampleRun).getD freshWorld

/-- On a run over one key both stores give the same counter. -/
theorem file_equals_memory_counter :
    run (step sampleConfig) freshWorld sampleRun = some sampleWorld ∧
    (exec sampleConfig sampleWorld.now [] sampleWorld.dir (.get (ascii "k"))).2 =
      (Memory.exec sampleConfig.defaultTTL sampleWorld.now sampleWorld.mem (.get (ascii "k"))).2 ∧
    (Memory.exec sampleConfig.defaultTTL sampleWorld.now sampleWorld.mem (.get (ascii "k"))).2 =
      .value (some (ascii "5")) := by
  have hrun : run (step sampleConfig) freshWorld sampleRun = some sampleWorld := rfl
  have hinj : Set.InjOn sampleConfig.sha256.sum256 {ascii "k"} := Set.injOn_singleton _ _
  have hcall : ∀ op : Op, op.keys = some [ascii "k"] →
      Op.Within {ascii "k"} op ∧ Op.Countable op := by
    intro op hkeys
    have hwithin : Op.Within {ascii "k"} op := by
      intro keys h key hmem
      rw [hkeys] at h
      cases h
      exact List.mem_singleton.mp hmem
    refine ⟨hwithin, fun key hsingle _ => ?_⟩
    rw [Set.mem_singleton_iff.mp (hwithin.single hsingle)]
    decide
  have hsound : Along (step sampleConfig) (Sound {ascii "k"}) freshWorld sampleRun := by
    refine ⟨hcall _ rfl, ?_⟩
    rintro _ ⟨⟩
    have htick : unixNano 0 ≤ unixNano (0 + (100 : Nat)) := by decide
    refine ⟨htick, ?_⟩
    rintro _ ⟨⟩
    refine ⟨hcall _ rfl, ?_⟩
    rintro _ ⟨⟩
    refine ⟨hcall _ rfl, ?_⟩
    rintro _ ⟨⟩
    exact ⟨trivial, fun _ _ => trivial⟩
  have hfresh : sampleWorld.dir.lookup (tempName []) = none := by decide
  have heq := file_equals_memory hinj ⟨fun _ => rfl, fun _ _ => rfl⟩ hsound hrun
    (hcall (.get (ascii "k")) rfl).1 hfresh
  exact ⟨hrun, heq.1, by decide⟩

/-- What the file store reads back right after a write, for a key of any length. -/
theorem get_after_set (cfg : Config) (now : Instant) {random : Bytes} {dir : Dir} (key : Key)
    (value : Bytes) (ttl : Duration) (hfresh : dir.lookup (tempName random) = none) :
    (get cfg now (set cfg now random dir key value ttl) key).2 =
      .ok (some (key.drop (key.length % 2 ^ 32) ++ value)) := by
  have hlive := ExpiringMap.live_at_write (cfg.defaultTTL.resolve_pos ttl) now
  rw [ExpiringMap.deadline, if_pos (cfg.defaultTTL.resolve_pos ttl)] at hlive
  have hlookup := set_lookup cfg now key value ttl hfresh (path cfg key)
  rw [if_pos rfl] at hlookup
  have hnot : ¬(0 < unixNano (now + (cfg.defaultTTL.resolve ttl).toInt) ∧
      unixNano (now + (cfg.defaultTTL.resolve ttl).toInt) < unixNano now) := by
    simpa [ExpiringMap.expired] using hlive
  simp only [get, readFile, hlookup, decodeFileRecord_encode, if_neg hnot]

/-- A key of `2 ^ 32` bytes. -/
def longKey : Key := List.replicate (2 ^ 32) 97

/-- Whatever the digests and the default lifetime are: after `Set` of `v` under a key
of `2 ^ 32` bytes the memory store returns `v`, and the file store returns the key
followed by `v`. -/
theorem long_key_differs :
    longKey.length = 2 ^ 32 ∧ ∀ cfg : Config,
      ∃ w, step cfg freshWorld (.call (.set longKey (ascii "v") 60) []) = some w ∧
        (exec cfg w.now [] w.dir (.get longKey)).2 = .value (some (longKey ++ ascii "v")) ∧
        (Memory.exec cfg.defaultTTL w.now w.mem (.get longKey)).2 = .value (some (ascii "v")) := by
  have hlength : longKey.length = 2 ^ 32 := by rw [longKey, List.length_replicate]
  refine ⟨hlength, ?_⟩
  intro cfg
  have hpos : 0 < cfg.defaultTTL.resolve 60 := cfg.defaultTTL.resolve_pos 60
  have hmemory : ∀ key, (Memory.exec cfg.defaultTTL 0
      (freshWorld.after cfg [] (.set key (ascii "v") 60)).mem (.get key)).2 =
        .value (some (ascii "v")) :=
    fun key => congrArg Res.value (Memory.get_of_written hpos key (ascii "v"))
  have hfile : ∀ key, (exec cfg 0 []
      (freshWorld.after cfg [] (.set key (ascii "v") 60)).dir (.get key)).2 =
        .value (some (key.drop (key.length % 2 ^ 32) ++ ascii "v")) := by
    intro key
    have hfresh : freshWorld.dir.lookup (tempName []) = none := rfl
    have hget := get_after_set cfg freshWorld.now key (ascii "v") 60 hfresh
    exact congrArg (result Res.value) hget
  have hlong := hfile longKey
  rw [hlength, Nat.mod_self, List.drop_zero] at hlong
  exact ⟨freshWorld.after cfg [] (.set longKey (ascii "v") 60), rfl, hlong, hmemory longKey⟩

end File
end GoforjCache
