import GoforjCache.File.Equivalence
import GoforjCache.File.Removals
import GoforjCache.Memo.Sequential

/-!
# Memo - Batches that fail part-way

A `memoStore` over a `fileStore` on a filesystem that may refuse to remove a file.
`DeleteMany` and `Flush` stop at the first refusal, with earlier files gone, and return
its error.  The memo store forgets nothing when the backend returns an error.

Main results:

- Theorem `synced_step`: a call keeps every entry equal to what the store reads, unless a batch
  fails after it removed the file of a memoized hit.
- Theorem `failed_batch_sync_iff`: in a run without such a batch the memo store reads what the
  store reads, and the next call keeps it so if and only if it is not such a batch.
- Theorem `failed_batch_leaves_stale`: a memoized value that is gone from the store.
-/

namespace GoforjCache
namespace Memo
namespace FailedBatches

open Foundation Foundation.Transition File File.Failing

/-! ## Runs at one instant -/

/-- A call, the outcomes of its removals, and the random part of the temporary file it may
create. -/
structure Event where
  op : Op
  fails : Removals
  random : Bytes

variable (cfg : Config) (now : Instant)

/-- One call; `createTempFile` only settles on a name that is not taken. -/
def step (s : Dir × Table) (e : Event) : Option (Dir × Table) :=
  match s.1.lookup (tempName e.random) with
  | some _ => none
  | none => some (alone (Failing.exec e.fails cfg now e.random) s e.op).1

/-- Reads through the memo store answer as reads of the store. -/
def InSync (K : Set Key) (s : Dir × Table) : Prop :=
  ∀ key ∈ K, ∀ fails random,
    (alone (Failing.exec fails cfg now random) s (.get key)).2 =
      (Failing.exec fails cfg now random s.1 (.get key)).2

/-- The files of a batch, in the order in which it removes them. -/
def batch (dir : Dir) : Op → Option (List Name)
  | .deleteMany keys => some (keys.map (path cfg))
  | .flush => some (flushNames dir)
  | _ => none

/-- If the call is a batch that fails, no file that it removed before is that of a memoized hit. -/
def Spared (s : Dir × Table) (e : Event) : Prop :=
  ∀ names, batch cfg s.1 e.op = some names → (removeAll e.fails 0 s.1 names).2 ≠ none →
    ∀ key v, s.2.items key = some (some v) → path cfg key ∉ removed e.fails 0 names

/-- The side condition of a step. -/
def Guard (K : Set Key) (s : Dir × Table) (e : Event) : Prop :=
  File.Op.Within K e.op ∧ Spared cfg s e

/-! ## What a step keeps -/

variable {cfg now} {K : Set Key} {s s' : Dir × Table} {e : Event}

theorem step_eq_some (h : step cfg now s e = some s') :
    s.1.lookup (tempName e.random) = none ∧
      s' = (alone (Failing.exec e.fails cfg now e.random) s e.op).1 := by
  unfold step at h
  split at h
  · cases h
  · rename_i hfresh
    exact ⟨hfresh, (Option.some.inj h).symm⟩

/-- The entry of a key is what the store reads. -/
def Synced (cfg : Config) (now : Instant) (K : Set Key) (dir : Dir) (key : Key)
    (content : Option Bytes) : Prop :=
  key ∈ K ∧ reads cfg now dir key = .ok content

theorem exec_get (fails : Removals) (random : Bytes) (dir : Dir) (key : Key) :
    (Failing.exec fails cfg now random dir (.get key)).2 =
      result .value (reads cfg now dir key) := by
  rw [← (get_spec fails dir key).1]
  rfl

theorem inSync_of_entries (h : Entries (Synced cfg now K) s) : InSync cfg now K s := by
  intro key _ fails random
  cases hitem : s.2.items key with
  | some content =>
    rw [alone_hit hitem, exec_get, (h key content hitem).2]
    rfl
  | none =>
    by_cases hvalue : ∃ content,
        (Failing.exec fails cfg now random s.1 (.get key)).2 = .value content
    · obtain ⟨content, hvalue⟩ := hvalue
      rw [alone_miss hitem hvalue, hvalue]
    · push Not at hvalue
      rw [alone_fails hitem hvalue]

theorem exec_batch {dir : Dir} {op : Op} {names : List Name} (h : batch cfg dir op = some names)
    (fails : Removals) (random : Bytes) :
    Failing.exec fails cfg now random dir op =
      ((removeAll fails 0 dir names).1, .ofError (removeAll fails 0 dir names).2) := by
  cases op <;> cases h <;> rfl

/-- A batch that succeeds removes no file of a key that it does not touch. -/
theorem batch_frame (hinj : Set.InjOn cfg.sha256.sum256 K) {op : Op} (hop : File.Op.Within K op)
    {dir : Dir} {names : List Name} (hnames : batch cfg dir op = some names) {key : Key}
    (hkey : key ∈ K) (hnot : op.touches key = false) : path cfg key ∉ names := by
  cases op with
  | deleteMany keys =>
    cases hnames
    intro hmem
    obtain ⟨k, hk, hpath⟩ := List.mem_map.mp hmem
    have hne : key ≠ k := by
      rintro rfl
      simp [Op.touches, Op.keys, hk] at hnot
    exact path_ne hinj hkey (hop keys rfl k hk) hne hpath.symm
  | flush => simp [Op.touches, Op.keys] at hnot
  | _ => cases hnames

/-- A call keeps every entry that the memo store does not forget. -/
theorem synced_exec (hinj : Set.InjOn cfg.sha256.sum256 K)
    (hfresh : s.1.lookup (tempName e.random) = none) (hguard : Guard cfg K s e) {key : Key}
    {content : Option Bytes} (hitem : s.2.items key = some content)
    (h : Synced cfg now K s.1 key content)
    (hnot : ¬((Failing.exec e.fails cfg now e.random s.1 e.op).2.applied = true ∧
      e.op.touches key = true)) :
    Synced cfg now K (Failing.exec e.fails cfg now e.random s.1 e.op).1 key content := by
  refine ⟨h.1, ?_⟩
  cases hsingle : e.op.single with
  | some k =>
    have hmodest := exec_single e.fails cfg now hfresh hsingle
    by_cases hk : key = k
    · subst hk
      have htouches : e.op.touches key = true := by
        simp [Op.touches, Op.keys_of_single hsingle]
      have happlied := Bool.eq_false_of_not_eq_true fun happlied => hnot ⟨happlied, htouches⟩
      exact hmodest.kept happlied content h.2
    · have hne := path_ne hinj h.1 (hguard.1.single hsingle) hk
      rw [reads_congr (hmodest.frame _ hne)]
      exact h.2
  | none =>
    obtain ⟨names, hnames⟩ : ∃ names, batch cfg s.1 e.op = some names := by
      rcases Op.of_single_eq_none hsingle with ⟨keys, hop⟩ | hop <;> rw [hop] <;> exact ⟨_, rfl⟩
    rw [exec_batch hnames] at hnot ⊢
    have hlookup := removeAll_lookup e.fails 0 s.1 names (path cfg key)
    by_cases hremoved : path cfg key ∈ removed e.fails 0 names
    · rw [if_pos hremoved] at hlookup
      rw [reads_of_missing hlookup]
      cases content with
      | none => rfl
      | some v =>
        -- A batch that removed the file of a hit has succeeded, so it names the key.
        have hok : (removeAll e.fails 0 s.1 names).2 = none := by
          by_contra hfailed
          exact hguard.2 names hnames hfailed key v hitem hremoved
        have htouches : e.op.touches key = false := by
          apply Bool.eq_false_of_not_eq_true
          intro htouches
          exact hnot ⟨by rw [hok]; rfl, htouches⟩
        rw [removed_of_ok hok] at hremoved
        exact absurd hremoved (batch_frame hinj hguard.1 hnames h.1 htouches)
    · rw [if_neg hremoved] at hlookup
      rw [reads_congr hlookup]
      exact h.2

/-- A call keeps every entry equal to what the store reads. -/
theorem synced_step (hinj : Set.InjOn cfg.sha256.sum256 K) (h : Entries (Synced cfg now K) s)
    (hguard : Guard cfg K s e) (hstep : step cfg now s e = some s') :
    Entries (Synced cfg now K) s' := by
  obtain ⟨hfresh, rfl⟩ := step_eq_some hstep
  apply entries_alone h
  · intro key content hop hvalue
    have hkey : key ∈ K := hguard.1 [key] (by rw [hop]; rfl) key List.mem_cons_self
    have hsingle : e.op.single = some key := by rw [hop]; rfl
    have hreads : reads cfg now s.1 key = .ok content := by
      rw [hop, exec_get] at hvalue
      cases hreads : reads cfg now s.1 key with
      | error err => rw [hreads] at hvalue; cases hvalue
      | ok c => rw [hreads] at hvalue; cases hvalue; rfl
    have hmodest := exec_single e.fails cfg now hfresh hsingle
    exact ⟨hkey, hmodest.kept (by rw [hvalue]; rfl) content hreads⟩
  · intro key content hitem hold hnot
    exact synced_exec hinj hfresh hguard hitem hold hnot

/-- A batch that fails after it removed the file of a memoized hit leaves the hit in the memo
store. -/
theorem spared_of_inSync (h : Entries (Synced cfg now K) s) (hstep : step cfg now s e = some s')
    (hsync : InSync cfg now K s') : Spared cfg s e := by
  intro names hnames hfailed key v hitem hremoved
  obtain ⟨-, hs'⟩ := step_eq_some hstep
  have hop : ∀ k, e.op ≠ .get k := by
    intro k hget
    rw [hget] at hnames
    cases hnames
  obtain ⟨err, herr⟩ := Option.ne_none_iff_exists'.mp hfailed
  have hafter : s' = ((removeAll e.fails 0 s.1 names).1, s.2) := by
    rw [hs', alone_write hop, writeAlone, exec_batch hnames, herr]
    rfl
  have hkept : s'.2.items key = some (some v) := by
    rw [hafter]
    exact hitem
  have hmissing : s'.1.lookup (path cfg key) = none := by
    rw [hafter, removeAll_lookup, if_pos hremoved]
  have hread := hsync key (h key _ hitem).1 never []
  rw [alone_hit hkept, exec_get, reads_of_missing hmissing] at hread
  cases hread

/--
A new `memoStore` over a `fileStore` with any content runs through calls on keys of a set
on which SHA-256 is injective.  The clock stands still, nobody else writes, and removals may fail.
If no `DeleteMany` or `Flush` of the run fails after it removed the file of a key that is
memoized as a hit, then every `Get` through the memo store answers as a `Get` of the file
store.  After one more call this is still so if and only if that call is not such a batch.
-/
theorem failed_batch_sync_iff (hinj : Set.InjOn cfg.sha256.sum256 K) {dir : Dir} {es : List Event}
    (hguard : Along (step cfg now) (Guard cfg K) (dir, Table.empty) es)
    (hrun : run (step cfg now) (dir, Table.empty) es = some s) :
    InSync cfg now K s ∧
      ∀ e s', File.Op.Within K e.op → step cfg now s e = some s' →
        (InSync cfg now K s' ↔ Spared cfg s e) := by
  have hentries : Entries (Synced cfg now K) s :=
    run_preserves_along (fun _ _ _ hs hG hstep => synced_step hinj hs hG hstep)
      (entries_empty _ dir) hguard hrun
  refine ⟨inSync_of_entries hentries, ?_⟩
  intro e s' hop hstep
  constructor
  · exact spared_of_inSync hentries hstep
  · intro hspared
    exact inSync_of_entries (synced_step hinj hentries ⟨hop, hspared⟩ hstep)

/-! ## A batch that fails at its second file -/

/-- The file of the key `k` is written and read. -/
def memoized : List Event :=
  [⟨.set (ascii "k") (ascii "v") 60, never, []⟩, ⟨.get (ascii "k"), never, []⟩]

/-- `DeleteMany` of two keys, of which the removal number `n` fails. -/
def failingAt (n : Nat) : Event :=
  ⟨.deleteMany [ascii "k", ascii "j"], fun i => if i = n then some (.external 5) else none, []⟩

/-- The store after the two calls. -/
def memoizedState : Dir × Table :=
  (run (step sampleConfig 0) (∅, Table.empty) memoized).getD (∅, Table.empty)

/-- The store after the batch failed. -/
def failedState (n : Nat) : Dir × Table :=
  (step sampleConfig 0 memoizedState (failingAt n)).getD memoizedState

theorem memoized_run :
    run (step sampleConfig 0) (∅, Table.empty) memoized = some memoizedState := rfl

theorem sampleSha256_injOn : Set.InjOn sampleConfig.sha256.sum256 {ascii "k", ascii "j"} := by
  rintro a (rfl | rfl) b (rfl | rfl) h
  · rfl
  · exact absurd h (by decide)
  · exact absurd h (by decide)
  · rfl

theorem memoized_guard (s : Dir × Table) {e : Event} (he : e ∈ memoized) :
    Guard sampleConfig {ascii "k", ascii "j"} s e := by
  have hcases : e = ⟨.set (ascii "k") (ascii "v") 60, never, []⟩ ∨
      e = ⟨.get (ascii "k"), never, []⟩ := by
    simpa [memoized] using he
  rcases hcases with rfl | rfl
  · exact ⟨by rintro _ ⟨⟩ key hkey; simp_all, fun _ hbatch => by cases hbatch⟩
  · exact ⟨by rintro _ ⟨⟩ key hkey; simp_all, fun _ hbatch => by cases hbatch⟩

/-- A batch that fails at its first file leaves both stores as they are. -/
theorem failed_batch_spared : InSync sampleConfig 0 {ascii "k", ascii "j"} (failedState 0) := by
  have hguard : Along (step sampleConfig 0) (Guard sampleConfig {ascii "k", ascii "j"})
      (∅, Table.empty) memoized := along_of_forall (fun e he s => memoized_guard s he) _
  have hwithin : File.Op.Within {ascii "k", ascii "j"} (failingAt 0).op := by
    rintro _ ⟨⟩ key hkey
    simpa using hkey
  refine ((failed_batch_sync_iff sampleSha256_injOn hguard memoized_run).2 (failingAt 0) _ hwithin
    rfl).mpr ?_
  intro names hnames _ key v _ hremoved
  cases hnames
  cases hremoved

/-- The batch removes the file of `k` and fails at the second one.  The memo store still
answers with the value, and the store with a miss. -/
theorem failed_batch_leaves_stale :
    run (step sampleConfig 0) (∅, Table.empty) (memoized ++ [failingAt 1]) = some (failedState 1) ∧
      (alone (Failing.exec (failingAt 1).fails sampleConfig 0 []) memoizedState
        (failingAt 1).op).2 = .error (.external 5) ∧
      (alone (Failing.exec never sampleConfig 0 []) (failedState 1) (.get (ascii "k"))).2 =
        .value (some (ascii "v")) ∧
      (Failing.exec never sampleConfig 0 [] (failedState 1).1 (.get (ascii "k"))).2 = .value none :=
  ⟨rfl, rfl, by decide, by decide⟩

end FailedBatches
end Memo
end GoforjCache
