import GoforjCache.Memo.Sequential
import GoforjCache.Memory.Store

/-!
# Memo - Memoized reads and lifetimes

A `memoStore` over a `memoryStore`, and a plain `memoryStore` that goes through the
same calls on the same clock.  A memo entry has no lifetime: once a read is memoized, later reads of
the key repeat its answer until a call changes the key through the memo store.  The entry below may
expire meanwhile.

Main results:

- Theorem `memo_fst`: the store below the memo store is the plain one.
- Theorem `memo_repeats_reads`: every call answers as on the plain store, except that a read
  repeats the answer of an earlier read of the key that no change of the key follows.
- Theorem `memo_outlives_ttl`: a read reports a hit for a value whose lifetime has elapsed.
-/

namespace GoforjCache
namespace Memo
namespace Expiry

open Foundation

/-! ## Two stores through one run -/

/-- A call at an instant, or the collection of the dead entries. -/
inductive Event where
  | call (now : Instant) (op : Op)
  | collect (now : Instant)
deriving DecidableEq, Repr

/-- When the event happens. -/
def Event.instant : Event → Instant
  | call now _ => now
  | collect now => now

variable (d : DefaultTTL)

/-- The plain store after an event. -/
def plainStep (m : Memory.Items) : Event → Memory.Items
  | .call now op => (Memory.exec d now m op).1
  | .collect now => m.deleteExpired now

/-- The memo store after an event. -/
def memoStep (s : Memory.Items × Table) : Event → Memory.Items × Table
  | .call now op => (alone (Memory.exec d now) s op).1
  | .collect now => (s.1.deleteExpired now, s.2)

/-- The plain store after a run. -/
def plain (m : Memory.Items) (es : List Event) : Memory.Items := es.foldl (plainStep d) m

/-- A new memo store over the same content after the run. -/
def memo (m : Memory.Items) (es : List Event) : Memory.Items × Table :=
  es.foldl (memoStep d) (m, Table.empty)

/-- What the plain store answers to a call after a run. -/
def plainAnswer (m : Memory.Items) (es : List Event) (now : Instant) (op : Op) : Res :=
  (Memory.exec d now (plain d m es) op).2

/-- What the memo store answers to a call after a run. -/
def memoAnswer (m : Memory.Items) (es : List Event) (now : Instant) (op : Op) : Res :=
  (alone (Memory.exec d now) (memo d m es) op).2

/-- The event is a call that changes the key. -/
def Changes (m : Memory.Items) (key : Key) : Event → Prop
  | .call now op => (Memory.exec d now m op).2.applied = true ∧ op.touches key = true
  | .collect _ => False

/-- No event of the run is a call that changes the key. -/
def Quiet (key : Key) : Memory.Items → List Event → Prop
  | _, [] => True
  | m, e :: es => ¬ Changes d m key e ∧ Quiet key (plainStep d m e) es

/-- Every read of the key is followed by a change of it. -/
def Unread (m : Memory.Items) (es : List Event) (key : Key) : Prop :=
  ∀ before t after, es = before ++ .call t (.get key) :: after →
    ¬ Quiet d key (plain d m before) after

variable {d} {m : Memory.Items} {s : Memory.Items × Table} {key : Key} {e : Event} {es : List Event}

@[simp]
theorem plain_append (es fs : List Event) : plain d m (es ++ fs) = plain d (plain d m es) fs :=
  List.foldl_append

@[simp]
theorem memo_append (es fs : List Event) :
    memo d m (es ++ fs) = fs.foldl (memoStep d) (memo d m es) :=
  List.foldl_append

/-- One event has the same effect on the store below the memo store as on the plain store: a read
changes neither. -/
theorem memoStep_fst (s : Memory.Items × Table) (e : Event) :
    (memoStep d s e).1 = plainStep d s.1 e := by
  cases e with
  | collect now => rfl
  | call now op =>
    rw [memoStep]
    rcases read_or_write op with ⟨key, rfl⟩ | hop
    · cases hitem : s.2.items key with
      | some content => rw [alone_hit hitem]; rfl
      | none => rw [alone_miss hitem rfl]; rfl
    · rw [alone_write hop]
      rfl

/-- The store below the memo store is the plain one. -/
theorem memo_fst (m : Memory.Items) (es : List Event) : (memo d m es).1 = plain d m es := by
  induction es using List.reverseRecOn with
  | nil => rfl
  | append_singleton es e ih =>
    rw [memo_append, plain_append, List.foldl_cons, List.foldl_nil, memoStep_fst, ih]
    rfl

/-! ## The entries along a run -/

theorem memoStep_forgets (h : Changes d s.1 key e) : (memoStep d s e).2.items key = none := by
  cases e with
  | collect now => cases h
  | call now op =>
    have hop : ∀ k, op ≠ .get k := by
      rintro k rfl
      cases h.1
    rw [memoStep, alone_items hop]
    exact if_pos h

variable {content : Option Bytes} {t : Instant}

theorem memoStep_keeps (h : ¬ Changes d s.1 key e) (hitem : s.2.items key = some content) :
    (memoStep d s e).2.items key = some content := by
  cases e with
  | collect now => exact hitem
  | call now op =>
    rw [memoStep]
    rcases read_or_write op with ⟨k, rfl⟩ | hop
    · by_cases hk : key = k
      · subst hk
        rw [alone_hit hitem]
        exact hitem
      · rw [alone_items_of_ne hk]
        exact hitem
    · rw [alone_items hop]
      exact (if_neg h).trans hitem

/-- Only a read of the key makes an entry for it. -/
theorem memoStep_absent (h : ∀ t, e ≠ .call t (.get key)) (hitem : s.2.items key = none) :
    (memoStep d s e).2.items key = none := by
  cases e with
  | collect now => exact hitem
  | call now op =>
    rw [memoStep]
    rcases read_or_write op with ⟨k, rfl⟩ | hop
    · have hne : key ≠ k := by
        rintro rfl
        exact h now rfl
      rw [alone_items_of_ne hne]
      exact hitem
    · rw [alone_items hop, hitem]
      exact ite_self _

/-- A read leaves its answer in the entry of the key. -/
theorem memoStep_read (d : DefaultTTL) (s : Memory.Items × Table) (t : Instant) (key : Key) :
    ∃ content, (alone (Memory.exec d t) s (.get key)).2 = .value content ∧
      (memoStep d s (.call t (.get key))).2.items key = some content := by
  rw [memoStep]
  cases hitem : s.2.items key with
  | some content =>
    rw [alone_hit hitem]
    exact ⟨content, rfl, hitem⟩
  | none =>
    rw [alone_miss hitem rfl]
    exact ⟨_, rfl, Function.update_self _ _ _⟩

/-- An entry stays through a run without a change of its key. -/
theorem foldl_keeps (hquiet : Quiet d key s.1 es) (hitem : s.2.items key = some content) :
    (es.foldl (memoStep d) s).2.items key = some content := by
  induction es generalizing s with
  | nil => exact hitem
  | cons e es ih =>
    rw [List.foldl_cons]
    apply ih
    · rw [memoStep_fst]
      exact hquiet.2
    · exact memoStep_keeps hquiet.1 hitem

theorem quiet_append_singleton :
    Quiet d key m (es ++ [e]) ↔ Quiet d key m es ∧ ¬ Changes d (plain d m es) key e := by
  induction es generalizing m with
  | nil => simp [Quiet, plain]
  | cons e' es ih =>
    rw [List.cons_append, Quiet, Quiet, ih, and_assoc]
    rfl

/-- A key whose every read was followed by a change has no entry. -/
theorem memo_unread (h : Unread d m es key) : (memo d m es).2.items key = none := by
  induction es using List.reverseRecOn with
  | nil => rfl
  | append_singleton es e ih =>
    rw [memo_append, List.foldl_cons, List.foldl_nil]
    by_cases hchanges : Changes d (plain d m es) key e
    · apply memoStep_forgets
      rw [memo_fst]
      exact hchanges
    · apply memoStep_absent
      · rintro t rfl
        exact h es t [] rfl trivial
      · apply ih
        rintro before t after rfl hquiet
        refine h before t (after ++ [e]) (by simp) ?_
        rw [quiet_append_singleton]
        refine ⟨hquiet, ?_⟩
        -- The read in between did not change the plain store.
        rw [plain_append] at hchanges
        exact hchanges

/-! ## What differs -/

/-- The entry is what the store below reads at an instant, or the store below has a miss there. -/
def Outlives (t : Instant) (m : Memory.Items) (key : Key) (content : Option Bytes) : Prop :=
  Memory.get m t key = content ∨ Memory.get m t key = none

theorem Outlives.congr {m m' : Memory.Items} (h : Outlives t m key content)
    (heq : ExpiringMap.live t (m' key) = ExpiringMap.live t (m key)) :
    Outlives t m' key content := by
  have hget : Memory.get m' t key = Memory.get m t key := by
    rw [Memory.get, Memory.get, ExpiringMap.get_eq_live, ExpiringMap.get_eq_live, heq]
  rw [Outlives, hget]
  exact h

theorem Outlives.later {t' : Instant} (h : Outlives t m key content)
    (ht : unixNano t ≤ unixNano t') : Outlives t' m key content := by
  have hlater : Memory.get m t' key = Memory.get m t key ∨ Memory.get m t' key = none := by
    rw [Memory.get, Memory.get, ExpiringMap.get_eq_live, ExpiringMap.get_eq_live,
      ← ExpiringMap.live_live ht]
    cases ExpiringMap.live t (m key) with
    | none => exact Or.inl rfl
    | some item =>
      by_cases hdead : ExpiringMap.expired t' item.expiration = true
      · exact Or.inr (by simp [ExpiringMap.live, hdead])
      · exact Or.inl (by simp [ExpiringMap.live, hdead])
  rcases hlater with heq | hnone
  · rw [Outlives, heq]
    exact h
  · exact Or.inr hnone

/-- The 64-bit view of the clock does not go back in the run, and it has not reached more than the
instant. -/
def Forward (es : List Event) (now : Instant) : Prop :=
  es.Pairwise (fun e e' => unixNano e.instant ≤ unixNano e'.instant) ∧
    ∀ e ∈ es, unixNano e.instant ≤ unixNano now

theorem outlives_step (he : e.instant = t) (h : Entries (Outlives t) s) :
    Entries (Outlives t) (memoStep d s e) := by
  cases e with
  | collect now =>
    obtain rfl : now = t := he
    intro key content hitem
    exact (h key content hitem).congr (ExpiringMap.live_deleteExpired s.1 now key)
  | call now op =>
    obtain rfl : now = t := he
    apply entries_alone h
    · rintro key content rfl hvalue
      exact Or.inl (Res.value.inj hvalue)
    · intro key content _ hold hnot
      apply hold.congr
      by_cases htouches : op.touches key = true
      · have hkept : (Memory.exec d now s.1 op).2.applied = false := by
          rw [← Bool.not_eq_true]
          exact fun happlied => hnot ⟨happlied, htouches⟩
        rw [Memory.exec_unapplied hkept]
      · rw [Memory.exec_frame (Bool.eq_false_of_not_eq_true htouches)]

/-- While the clock runs forward, an entry is what the plain store reads, or the plain store has a
miss. -/
theorem memo_outlives {now : Instant} (h : Forward es now) :
    Entries (Outlives now) (memo d m es) := by
  induction es using List.reverseRecOn generalizing now with
  | nil => exact entries_empty _ _
  | append_singleton es e ih =>
    obtain ⟨hpairwise, hnow⟩ := h
    rw [List.pairwise_append] at hpairwise
    have hearlier : Forward es e.instant :=
      ⟨hpairwise.1, fun e' he' => hpairwise.2.2 e' he' e List.mem_cons_self⟩
    rw [memo_append, List.foldl_cons, List.foldl_nil]
    intro key content hitem
    have hentry := outlives_step rfl (ih hearlier) key content hitem
    exact hentry.later (hnow e (by simp))

/--
A `memoStore` over a `memoryStore` and a plain `memoryStore` with the same content go
through the same run.  A call other than `Get` has the same answer on both.  So has a
`Get` of a key that was not read since the last call that changed it.  A `Get` of a key
that was read before, without a change of the key since, repeats that answer.  While the 64-bit
clock runs forward, the only difference this makes is a hit where the plain store has a miss.
-/
theorem memo_repeats_reads (d : DefaultTTL) (m : Memory.Items) :
    (∀ es now op, (∀ key, op ≠ .get key) → memoAnswer d m es now op = plainAnswer d m es now op) ∧
    (∀ es now key, Unread d m es key →
      memoAnswer d m es now (.get key) = plainAnswer d m es now (.get key)) ∧
    (∀ before t after now key, Quiet d key (plain d m before) after →
      memoAnswer d m (before ++ .call t (.get key) :: after) now (.get key) =
        memoAnswer d m before t (.get key)) ∧
    (∀ es now key, Forward es now →
      memoAnswer d m es now (.get key) = plainAnswer d m es now (.get key) ∨
        ∃ v, memoAnswer d m es now (.get key) = .value (some v) ∧
          plainAnswer d m es now (.get key) = .value none) := by
  refine ⟨?_, ?_, ?_, ?_⟩
  · intro es now op hop
    rw [memoAnswer, alone_answer hop, memo_fst]
    rfl
  · intro es now key hunread
    rw [memoAnswer, alone_miss (memo_unread hunread) rfl, memo_fst]
    rfl
  · intro before t after now key hquiet
    obtain ⟨content, hanswer, hitem⟩ := memoStep_read d (memo d m before) t key
    have hkept : (memo d m (before ++ .call t (.get key) :: after)).2.items key = some content := by
      rw [memo_append, List.foldl_cons]
      apply foldl_keeps _ hitem
      rw [memoStep_fst, memo_fst]
      exact hquiet
    rw [memoAnswer, alone_hit hkept, memoAnswer, hanswer]
  · intro es now key hforward
    cases hitem : (memo d m es).2.items key with
    | none =>
      left
      rw [memoAnswer, alone_miss hitem rfl, memo_fst]
      rfl
    | some content =>
      have houtlives := memo_outlives (d := d) (m := m) hforward key content hitem
      rw [memo_fst] at houtlives
      have hplain : plainAnswer d m es now (.get key) =
          .value (Memory.get (plain d m es) now key) := rfl
      rw [memoAnswer, alone_hit hitem, hplain]
      rcases houtlives with heq | hnone
      · exact Or.inl (by rw [heq])
      · rw [hnone]
        cases content with
        | none => exact Or.inl rfl
        | some v => exact Or.inr ⟨v, rfl, rfl⟩

/-! ## A read after the lifetime -/

/-- A value with a lifetime of one second is written and read. -/
def writeAndRead : List Event :=
  [.call 0 (.set (ascii "k") (ascii "v") 1000000000), .call 0 (.get (ascii "k"))]

/-- A read two seconds later repeats the answer of the first one. -/
theorem memo_repeats_after_ttl :
    memoAnswer (.normalize 0) (fun _ => none) writeAndRead 2000000000 (.get (ascii "k")) =
      memoAnswer (.normalize 0) (fun _ => none) (writeAndRead.take 1) 0 (.get (ascii "k")) :=
  (memo_repeats_reads (.normalize 0) (fun _ => none)).2.2.1 (writeAndRead.take 1) 0 [] 2000000000
    (ascii "k") trivial

/-- Two seconds later the memo store still reports the value, and the plain store a miss. -/
theorem memo_outlives_ttl :
    memoAnswer (.normalize 0) (fun _ => none) writeAndRead 2000000000 (.get (ascii "k")) =
        .value (some (ascii "v")) ∧
      plainAnswer (.normalize 0) (fun _ => none) writeAndRead 2000000000 (.get (ascii "k")) =
        .value none := by
  decide

end Expiry
end Memo
end GoforjCache
