import Mathlib.Tactic

/-!
# Foundation - Readers

A reader delivers a list in pieces: each read takes as much of it as there is room for, or less, and
the last one signals how the list ends.  Whether the signal comes together with the last elements or
in a read of its own is up to the reader.  `Reader.readAll` collects everything in a buffer
that grows when it is full; the allocator may refuse, and no buffer is larger than a given size.
`Source.limited` is a reader that ends after a number of elements.

Main results:

- Theorem `Reader.readAll_delivers`: the buffer holds what was taken from the reader.
- Theorem `Source.readAll_returns`: with enough memory everything is read.
- Theorem `Source.limited_delivers`: a limited read takes no more than its limit.
- Theorem `Source.limited_returns`: a limit needs no memory that reading without it does not
  need.
- Theorem `Source.limited_stop`: what the end of a limited read tells.
- Theorem `Source.limited_eq_of_max_le`: a limit as large as the largest buffer changes
  nothing.
-/

namespace GoforjCache
namespace Foundation
namespace Readers

variable {α σ : Type} {max : Nat}

/-! ## Readers -/

/-- How a list ends. -/
inductive Signal where
  | eof
  | fail
deriving DecidableEq, Repr

/-- What a read gives: some elements, the signal if the list has ended, and the state after it. -/
structure Piece (α σ : Type) where
  got : List α
  stop : Option Signal
  next : σ

/-- A reader with the elements that are still to be delivered.  A read with room for an element
delivers one or ends the list. -/
structure Reader (α σ : Type) where
  read : σ → Nat → Piece α σ
  pending : σ → List α
  got_le : ∀ s n, (read s n).got.length ≤ n
  delivers : ∀ s n, pending s = (read s n).got ++ pending (read s n).next
  advances : ∀ s n, 0 < n → (read s n).stop = none → (read s n).got ≠ []
  ended : ∀ s n, (read s n).stop ≠ none → pending (read s n).next = []

/-- A reader that knows how its list ends, and whether the signal comes with the last elements. -/
structure Source (α σ : Type) extends Reader α σ where
  signal : σ → Signal
  together : σ → Bool
  stop_eq : ∀ s n g, (read s n).stop = some g → g = signal s
  signal_next : ∀ s n, (read s n).stop = none → signal (read s n).next = signal s
  together_next : ∀ s n, (read s n).stop = none → together (read s n).next = together s
  timing : ∀ s n, 0 < n → pending s ≠ [] → (read s n).got = pending s →
    ((read s n).stop ≠ none ↔ together s = true)

/-- A reader that ends after `left` elements; the state has `left` as its second part. -/
def Reader.limited (R : Reader α σ) : Reader α (σ × Nat) where
  read := fun s n =>
    if s.2 = 0 then ⟨[], some .eof, s⟩
    else
      let p := R.read s.1 (min n s.2)
      ⟨p.got, p.stop, (p.next, s.2 - p.got.length)⟩
  pending := fun s => (R.pending s.1).take s.2
  got_le := by
    intro s n
    split
    · exact Nat.zero_le n
    · exact (R.got_le s.1 (min n s.2)).trans (Nat.min_le_left n s.2)
  delivers := by
    intro s n
    split
    · rfl
    · have hle : (R.read s.1 (min n s.2)).got.length ≤ s.2 :=
        (R.got_le s.1 (min n s.2)).trans (Nat.min_le_right n s.2)
      rw [R.delivers s.1 (min n s.2), List.take_append, List.take_of_length_le hle]
  advances := by
    intro s n hn hstop
    split at hstop
    · contradiction
    · rename_i hleft
      rw [if_neg hleft]
      exact R.advances s.1 (min n s.2) (by omega) hstop
  ended := by
    intro s n hstop
    split at hstop
    · rename_i hleft
      simp [hleft]
    · rename_i hleft
      simp only [if_neg hleft]
      rw [R.ended s.1 (min n s.2) hstop, List.take_nil]

/-! ## Buffers -/

/-- An allocator: the capacity that a full buffer gets, or nothing when there is no memory for
it. -/
structure Allocator (max : Nat) where
  grow : Nat → Option Nat
  lt_grow : ∀ {cap cap'}, grow cap = some cap' → cap < cap'
  grow_le : ∀ {cap cap'}, grow cap = some cap' → cap' ≤ max

/-- A buffer that is not full. -/
structure Buffer (α : Type) (max : Nat) where
  items : List α
  cap : Nat
  free : items.length < cap
  cap_le : cap ≤ max

/-- The room for the next read. -/
def Buffer.room (b : Buffer α max) : Nat := b.cap - b.items.length

/-- Put what was read in the buffer, and let it grow if it is full now. -/
def Buffer.store (A : Allocator max) (b : Buffer α max) (got : List α)
    (hgot : got.length ≤ b.room) : Option (Buffer α max) :=
  if h : (b.items ++ got).length < b.cap then some ⟨b.items ++ got, b.cap, h, b.cap_le⟩
  else
    match hgrow : A.grow b.cap with
    | none => none
    | some cap =>
      some ⟨b.items ++ got, cap, by
        have hlt := A.lt_grow hgrow
        have hfree := b.free
        rw [List.length_append]
        unfold Buffer.room at hgot
        omega, A.grow_le hgrow⟩

theorem Buffer.room_pos (b : Buffer α max) : 0 < b.room := Nat.sub_pos_of_lt b.free

variable {A : Allocator max} {b : Buffer α max} {got : List α}

/-- The buffer after a read holds what was read behind what it held. -/
theorem Buffer.items_store {b' : Buffer α max} {hgot : got.length ≤ b.room}
    (h : b.store A got hgot = some b') : b'.items = b.items ++ got := by
  unfold Buffer.store at h
  split at h
  · cases h
    rfl
  · split at h
    · contradiction
    · cases h
      rfl

/-- A buffer that does not get full keeps its capacity. -/
theorem Buffer.store_of_lt {hgot : got.length ≤ b.room} (h : (b.items ++ got).length < b.cap) :
    b.store A got hgot = some ⟨b.items ++ got, b.cap, h, b.cap_le⟩ :=
  dif_pos h

/-- Storing fails only in a full buffer that the allocator does not let grow. -/
theorem Buffer.grow_of_store_none {hgot : got.length ≤ b.room} (h : b.store A got hgot = none) :
    b.items.length + got.length = b.cap ∧ A.grow b.cap = none := by
  have hfree := b.free
  unfold Buffer.store at h
  split at h
  · contradiction
  · rename_i hfull
    rw [List.length_append] at hfull
    unfold Buffer.room at hgot
    split at h
    · rename_i hgrow
      exact ⟨by omega, hgrow⟩
    · contradiction

/-! ## Reading everything -/

/-- The end of a run of reads: the buffer's content, the reader's state, and the signal, or nothing
if the buffer could not grow. -/
structure Reading (α σ : Type) where
  items : List α
  state : σ
  stop : Option Signal

/-- Read until the reader signals the end. -/
def Reader.readAll (R : Reader α σ) (A : Allocator max) (b : Buffer α max) (s : σ) : Reading α σ :=
  match hstop : (R.read s b.room).stop with
  | some g => ⟨b.items ++ (R.read s b.room).got, (R.read s b.room).next, some g⟩
  | none =>
    have hshorter : (R.pending (R.read s b.room).next).length < (R.pending s).length := by
      rw [R.delivers s b.room, List.length_append]
      have := List.length_pos_iff.mpr (R.advances s b.room b.room_pos hstop)
      omega
    match b.store A (R.read s b.room).got (R.got_le s b.room) with
    | none => ⟨b.items ++ (R.read s b.room).got, (R.read s b.room).next, none⟩
    | some b' => R.readAll A b' (R.read s b.room).next
termination_by (R.pending s).length

section Steps

variable {R : Reader α σ} {A : Allocator max} {b b' : Buffer α max} {s : σ}

/-- The read that signals the end is the last one. -/
theorem Reader.readAll_of_stop {g : Signal} (hstop : (R.read s b.room).stop = some g) :
    R.readAll A b s = ⟨b.items ++ (R.read s b.room).got, (R.read s b.room).next, some g⟩ := by
  rw [Reader.readAll]
  split
  · rename_i hstop'
    cases hstop.symm.trans hstop'
    rfl
  · rename_i hstop'
    cases hstop.symm.trans hstop'

/-- A full buffer that cannot grow ends the reading. -/
theorem Reader.readAll_of_full (hstop : (R.read s b.room).stop = none)
    (hstore : b.store A (R.read s b.room).got (R.got_le s b.room) = none) :
    R.readAll A b s = ⟨b.items ++ (R.read s b.room).got, (R.read s b.room).next, none⟩ := by
  rw [Reader.readAll]
  split
  · rename_i hstop'
    cases hstop.symm.trans hstop'
  · simp only [hstore]

/-- Every other read is followed by another one. -/
theorem Reader.readAll_of_store (hstop : (R.read s b.room).stop = none)
    (hstore : b.store A (R.read s b.room).got (R.got_le s b.room) = some b') :
    R.readAll A b s = R.readAll A b' (R.read s b.room).next := by
  rw [Reader.readAll]
  split
  · rename_i hstop'
    cases hstop.symm.trans hstop'
  · simp only [hstore]

end Steps

variable {R : Reader α σ} {A : Allocator max}

/-- The rule for runs of reads: a statement holds of every run if it holds at the end and passes
from the rest of the run to the whole. -/
theorem Reader.readAll_induction {motive : Buffer α max → σ → Prop}
    (stop : ∀ b s g, (R.read s b.room).stop = some g → motive b s)
    (full : ∀ b s, (R.read s b.room).stop = none →
      b.store A (R.read s b.room).got (R.got_le s b.room) = none → motive b s)
    (more : ∀ b s b', (R.read s b.room).stop = none →
      b.store A (R.read s b.room).got (R.got_le s b.room) = some b' →
      motive b' (R.read s b.room).next → motive b s) (b : Buffer α max) (s : σ) : motive b s := by
  induction b, s using Reader.readAll.induct R A with
  | case1 b s g hstop => exact stop b s g hstop
  | case2 b s hstop _ hstore => exact full b s hstop hstore
  | case3 b s hstop _ b' hstore ih => exact more b s b' hstop hstore ih

/-- The buffer holds what was taken from the reader. -/
theorem Reader.readAll_delivers (R : Reader α σ) (A : Allocator max) (b : Buffer α max) (s : σ) :
    b.items ++ R.pending s = (R.readAll A b s).items ++ R.pending (R.readAll A b s).state := by
  induction b, s using Reader.readAll_induction (R := R) (A := A) with
  | stop b s g hstop =>
    rw [readAll_of_stop hstop, List.append_assoc, ← R.delivers]
  | full b s hstop hstore =>
    rw [readAll_of_full hstop hstore, List.append_assoc, ← R.delivers]
  | more b s b' hstop hstore ih =>
    rw [readAll_of_store hstop hstore, ← ih, Buffer.items_store hstore, List.append_assoc,
      ← R.delivers]

/-- A run of reads that was not stopped by the buffer took everything. -/
theorem Reader.pending_readAll {b : Buffer α max} {s : σ} (h : (R.readAll A b s).stop ≠ none) :
    R.pending (R.readAll A b s).state = [] := by
  induction b, s using Reader.readAll_induction (R := R) (A := A) with
  | stop b s g hstop =>
    rw [readAll_of_stop hstop]
    apply R.ended
    simp [hstop]
  | full b s hstop hstore =>
    rw [readAll_of_full hstop hstore] at h
    contradiction
  | more b s b' hstop hstore ih =>
    rw [readAll_of_store hstop hstore] at h ⊢
    exact ih h

/-- Its buffer then holds everything. -/
theorem Reader.items_readAll {b : Buffer α max} {s : σ} (h : (R.readAll A b s).stop ≠ none) :
    (R.readAll A b s).items = b.items ++ R.pending s := by
  rw [R.readAll_delivers A b s, pending_readAll h, List.append_nil]

/-- No run of reads takes more than the largest buffer holds. -/
theorem Reader.length_readAll_le (R : Reader α σ) (A : Allocator max) (b : Buffer α max) (s : σ) :
    (R.readAll A b s).items.length ≤ max := by
  have hpiece : ∀ (b : Buffer α max) (s : σ), (b.items ++ (R.read s b.room).got).length ≤ max := by
    intro b s
    have hgot : (R.read s b.room).got.length ≤ b.cap - b.items.length := R.got_le s b.room
    have hcap := b.cap_le
    have hfree := b.free
    rw [List.length_append]
    omega
  induction b, s using Reader.readAll_induction (R := R) (A := A) with
  | stop b s g hstop =>
    rw [readAll_of_stop hstop]
    exact hpiece b s
  | full b s hstop hstore =>
    rw [readAll_of_full hstop hstore]
    exact hpiece b s
  | more b s b' hstop hstore ih =>
    rw [readAll_of_store hstop hstore]
    exact ih

namespace Source

/-- The signal at the end of a run of reads is the one of the list. -/
theorem readAll_stop {S : Source α σ} {A : Allocator max} {b : Buffer α max} {s : σ} {g : Signal}
    (h : (S.readAll A b s).stop = some g) : g = S.signal s := by
  induction b, s using Reader.readAll_induction (R := S.toReader) (A := A) with
  | stop b s g' hstop =>
    rw [Reader.readAll_of_stop hstop] at h
    cases h
    exact S.stop_eq s b.room g hstop
  | full b s hstop hstore =>
    rw [Reader.readAll_of_full hstop hstore] at h
    contradiction
  | more b s b' hstop hstore ih =>
    rw [Reader.readAll_of_store hstop hstore] at h
    rw [ih h, S.signal_next s b.room hstop]

/-- With enough memory everything is read. -/
theorem readAll_returns {S : Source α σ} {A : Allocator max} {b : Buffer α max} {s : σ}
    (hample : ∀ cap < max, A.grow cap ≠ none)
    (hfits : b.items.length + (S.pending s).length < max) : (S.readAll A b s).stop ≠ none := by
  induction b, s using Reader.readAll_induction (R := S.toReader) (A := A) with
  | stop b s g hstop => simp [Reader.readAll_of_stop hstop]
  | full b s hstop hstore =>
    obtain ⟨hfull, hgrow⟩ := Buffer.grow_of_store_none hstore
    have hlen := congrArg List.length (S.delivers s b.room)
    rw [List.length_append] at hlen
    exact absurd hgrow (hample b.cap (by omega))
  | more b s b' hstop hstore ih =>
    rw [Reader.readAll_of_store hstop hstore]
    apply ih
    have hlen := congrArg List.length (S.delivers s b.room)
    rw [List.length_append] at hlen
    rw [Buffer.items_store hstore, List.length_append]
    omega

/-! ## Reading with a limit -/

variable {S : Source α σ} {A : Allocator max} {b : Buffer α max} {s : σ} {t : σ × Nat}

/-- A read takes no more than the limit leaves. -/
theorem limited_got_le (t : σ × Nat) (n : Nat) : (S.limited.read t n).got.length ≤ t.2 := by
  simp only [Reader.limited]
  split
  · exact Nat.zero_le t.2
  · exact (S.got_le t.1 _).trans (Nat.min_le_right _ _)

/-- What the limit leaves after a read. -/
theorem limited_left (t : σ × Nat) (n : Nat) :
    (S.limited.read t n).next.2 = t.2 - (S.limited.read t n).got.length := by
  simp only [Reader.limited]
  split <;> rfl

/-- A limited read takes what it gives from the list behind it. -/
theorem limited_read_delivers (t : σ × Nat) (n : Nat) :
    S.pending t.1 = (S.limited.read t n).got ++ S.pending (S.limited.read t n).next.1 := by
  simp only [Reader.limited]
  split
  · rfl
  · exact S.delivers t.1 _

/-- A limited read before its limit is a read with no more room than the limit leaves. -/
theorem limited_read (hleft : t.2 ≠ 0) (n : Nat) :
    S.limited.read t n =
      ⟨(S.read t.1 (min n t.2)).got, (S.read t.1 (min n t.2)).stop,
        ((S.read t.1 (min n t.2)).next, t.2 - (S.read t.1 (min n t.2)).got.length)⟩ :=
  if_neg hleft

theorem limited_read_stop (hleft : t.2 = 0) (n : Nat) : (S.limited.read t n).stop = some .eof := by
  simp [Reader.limited, hleft]

/-- The buffer of a limited run of reads holds what was taken from the list behind it, and this is
not more than the limit, also when the buffer could not grow. -/
theorem limited_delivers :
    b.items ++ S.pending t.1 = (S.limited.readAll A b t).items ++
        S.pending (S.limited.readAll A b t).state.1 ∧
      (S.limited.readAll A b t).items.length ≤ b.items.length + t.2 := by
  induction b, t using Reader.readAll_induction (R := S.limited) (A := A) with
  | stop b t g hstop =>
    rw [Reader.readAll_of_stop hstop, List.append_assoc, ← limited_read_delivers,
      List.length_append]
    exact ⟨rfl, Nat.add_le_add_left (limited_got_le t b.room) _⟩
  | full b t hstop hstore =>
    rw [Reader.readAll_of_full hstop hstore, List.append_assoc, ← limited_read_delivers,
      List.length_append]
    exact ⟨rfl, Nat.add_le_add_left (limited_got_le t b.room) _⟩
  | more b t b' hstop hstore ih =>
    rw [Reader.readAll_of_store hstop hstore, ← ih.1, Buffer.items_store hstore,
      List.append_assoc, ← limited_read_delivers]
    refine ⟨rfl, ih.2.trans ?_⟩
    have hgot := limited_got_le (S := S) t b.room
    rw [limited_left, Buffer.items_store hstore, List.length_append]
    omega

/-- A limit that ends inside the buffer is reached without the buffer growing. -/
theorem limited_returns_of_lt (hlt : b.items.length + t.2 < b.cap) :
    (S.limited.readAll A b t).stop ≠ none := by
  induction b, t using Reader.readAll_induction (R := S.limited) (A := A) with
  | stop b t g hstop => simp [Reader.readAll_of_stop hstop]
  | full b t hstop hstore =>
    obtain ⟨hfull, -⟩ := Buffer.grow_of_store_none hstore
    have hgot := limited_got_le (S := S) t b.room
    omega
  | more b t b' hstop hstore ih =>
    rw [Reader.readAll_of_store hstop hstore]
    apply ih
    have hgot := limited_got_le (S := S) t b.room
    have hstays : (b.items ++ (S.limited.read t b.room).got).length < b.cap := by
      rw [List.length_append]
      omega
    rw [Buffer.store_of_lt hstays] at hstore
    cases hstore
    rw [limited_left, List.length_append]
    simp only
    omega

section Room

variable {left : Nat} (hroom : b.room ≤ left)

include hroom

/-- A limit with more left than the buffer has room does not change a read. -/
theorem limited_read_of_room_le :
    S.limited.read (s, left) b.room =
      ⟨(S.read s b.room).got, (S.read s b.room).stop,
        ((S.read s b.room).next, left - (S.read s b.room).got.length)⟩ := by
  have hleft : left ≠ 0 := Nat.ne_of_gt (b.room_pos.trans_le hroom)
  rw [limited_read hleft, Nat.min_eq_left hroom]

theorem limited_readAll_of_stop {g : Signal} (hstop : (S.read s b.room).stop = some g) :
    S.limited.readAll A b (s, left) = ⟨b.items ++ (S.read s b.room).got,
      ((S.read s b.room).next, left - (S.read s b.room).got.length), some g⟩ := by
  have hread := limited_read_of_room_le (S := S) (s := s) hroom
  rw [Reader.readAll_of_stop (g := g) (by rw [hread]; exact hstop), hread]

theorem limited_readAll_of_full (hstop : (S.read s b.room).stop = none)
    (hstore : b.store A (S.read s b.room).got (S.got_le s b.room) = none) :
    S.limited.readAll A b (s, left) = ⟨b.items ++ (S.read s b.room).got,
      ((S.read s b.room).next, left - (S.read s b.room).got.length), none⟩ := by
  have hread := limited_read_of_room_le (S := S) (s := s) hroom
  rw [Reader.readAll_of_full (by rw [hread]; exact hstop) (by simp only [hread]; exact hstore),
    hread]

theorem limited_readAll_of_store {b' : Buffer α max} (hstop : (S.read s b.room).stop = none)
    (hstore : b.store A (S.read s b.room).got (S.got_le s b.room) = some b') :
    S.limited.readAll A b (s, left) = S.limited.readAll A b'
      ((S.read s b.room).next, left - (S.read s b.room).got.length) := by
  have hread := limited_read_of_room_le (S := S) (s := s) hroom
  have hstore' : b.store A (S.limited.read (s, left) b.room).got
      (S.limited.got_le (s, left) b.room) = some b' := by
    simp only [hread]
    exact hstore
  rw [Reader.readAll_of_store (by rw [hread]; exact hstop) hstore', hread]

end Room

/-- A limit needs no memory that reading without it does not need. -/
theorem limited_returns (left : Nat) (h : (S.readAll A b s).stop ≠ none) :
    (S.limited.readAll A b (s, left)).stop ≠ none := by
  -- the two runs are the same until the limit ends inside the buffer
  induction b, s using Reader.readAll_induction (R := S.toReader) (A := A) generalizing left with
  | stop b s g hstop =>
    rcases Nat.lt_or_ge left b.room with hlt | hroom
    · exact limited_returns_of_lt (Nat.add_lt_of_lt_sub' hlt)
    · simp [limited_readAll_of_stop hroom hstop]
  | full b s hstop hstore =>
    rw [Reader.readAll_of_full hstop hstore] at h
    contradiction
  | more b s b' hstop hstore ih =>
    rw [Reader.readAll_of_store hstop hstore] at h
    rcases Nat.lt_or_ge left b.room with hlt | hroom
    · exact limited_returns_of_lt (Nat.add_lt_of_lt_sub' hlt)
    · rw [limited_readAll_of_store hroom hstop hstore]
      exact ih _ h

variable {left n : Nat}

/-- A limit as large as the largest buffer changes nothing. -/
theorem limited_eq_of_max_le (hmax : max ≤ b.items.length + left) :
    (S.limited.readAll A b (s, left)).items = (S.readAll A b s).items ∧
      (S.limited.readAll A b (s, left)).stop = (S.readAll A b s).stop := by
  induction b, s using Reader.readAll_induction (R := S.toReader) (A := A) generalizing left with
  | stop b s g hstop =>
    have hroom : b.room ≤ left := Nat.sub_le_of_le_add (by have := b.cap_le; omega)
    simp [limited_readAll_of_stop hroom hstop, Reader.readAll_of_stop hstop]
  | full b s hstop hstore =>
    have hroom : b.room ≤ left := Nat.sub_le_of_le_add (by have := b.cap_le; omega)
    simp [limited_readAll_of_full hroom hstop hstore, Reader.readAll_of_full hstop hstore]
  | more b s b' hstop hstore ih =>
    have hroom : b.room ≤ left := Nat.sub_le_of_le_add (by have := b.cap_le; omega)
    rw [limited_readAll_of_store hroom hstop hstore, Reader.readAll_of_store hstop hstore]
    apply ih
    have hgot := S.got_le s b.room
    rw [Buffer.items_store hstore, List.length_append]
    omega

/-- The signal that a read with a limit ends with. -/
def cutSignal (S : Source α σ) (s : σ) (left : Nat) : Signal :=
  if (S.pending s).length < left ∨ (S.pending s).length = left ∧ S.together s = true then
    S.signal s
  else .eof

/-- What the limit leaves of a read that does not end the list. -/
theorem cutSignal_next (hstop : (S.read s n).stop = none) (hgot : (S.read s n).got.length ≤ left) :
    S.cutSignal (S.read s n).next (left - (S.read s n).got.length) = S.cutSignal s left := by
  have hlen := congrArg List.length (S.delivers s n)
  rw [List.length_append] at hlen
  unfold cutSignal
  rw [S.signal_next s n hstop, S.together_next s n hstop]
  congr 1
  apply propext
  constructor
  · rintro (hlt | ⟨heq, htogether⟩)
    · exact Or.inl (by omega)
    · exact Or.inr ⟨by omega, htogether⟩
  · rintro (hlt | ⟨heq, htogether⟩)
    · exact Or.inl (by omega)
    · exact Or.inr ⟨by omega, htogether⟩

/-- A read that takes what the limit leaves without a signal leaves the end unseen. -/
theorem cutSignal_of_got (hleft : 0 < left) (hn : 0 < n) (hstop : (S.read s n).stop = none)
    (hgot : (S.read s n).got.length = left) : S.cutSignal s left = .eof := by
  have hdelivers := S.delivers s n
  have hlen := congrArg List.length hdelivers
  rw [List.length_append] at hlen
  unfold cutSignal
  rw [if_neg]
  rintro (hlt | ⟨heq, htogether⟩)
  · omega
  · have hnil : S.pending (S.read s n).next = [] := List.length_eq_zero_iff.mp (by omega)
    rw [hnil, List.append_nil] at hdelivers
    have hne : S.pending s ≠ [] := by
      apply List.ne_nil_of_length_pos
      omega
    exact (S.timing s n hn hne hdelivers.symm).mpr htogether hstop

/-- A read that signals the end before the limit shows how the list ends. -/
theorem cutSignal_of_stop {g : Signal} (hleft : 0 < left) (hn : 0 < n) (hnleft : n ≤ left)
    (hstop : (S.read s n).stop = some g) : S.cutSignal s left = g := by
  have hdelivers := S.delivers s n
  rw [S.ended s n (by simp [hstop]), List.append_nil] at hdelivers
  have hle : (S.pending s).length ≤ left := by
    rw [hdelivers]
    exact (S.got_le s n).trans hnleft
  unfold cutSignal
  rw [if_pos, S.stop_eq s n g hstop]
  rcases Nat.lt_or_eq_of_le hle with hlt | heq
  · exact Or.inl hlt
  · have hne : S.pending s ≠ [] := by
      apply List.ne_nil_of_length_pos
      omega
    exact Or.inr ⟨heq, (S.timing s n hn hne hdelivers.symm).mp (by simp [hstop])⟩

/-- What the end of a limited read tells. -/
theorem limited_stop {g : Signal} (hleft : 0 < t.2)
    (h : (S.limited.readAll A b t).stop = some g) : g = S.cutSignal t.1 t.2 := by
  induction b, t using Reader.readAll_induction (R := S.limited) (A := A) with
  | stop b t g' hstop =>
    rw [Reader.readAll_of_stop hstop] at h
    cases h
    rw [limited_read hleft.ne'] at hstop
    have hn : 0 < min b.room t.2 := Nat.lt_min.mpr ⟨b.room_pos, hleft⟩
    exact (cutSignal_of_stop hleft hn (Nat.min_le_right _ _) hstop).symm
  | full b t hstop hstore =>
    rw [Reader.readAll_of_full hstop hstore] at h
    contradiction
  | more b t b' hstop hstore ih =>
    rw [Reader.readAll_of_store hstop hstore] at h
    have hn : 0 < min b.room t.2 := Nat.lt_min.mpr ⟨b.room_pos, hleft⟩
    have hgot : (S.read t.1 (min b.room t.2)).got.length ≤ t.2 :=
      (S.got_le t.1 _).trans (Nat.min_le_right _ _)
    rw [limited_read hleft.ne'] at hstop h ih
    rcases Nat.eq_zero_or_pos (t.2 - (S.read t.1 (min b.room t.2)).got.length) with hzero | hpos
    · -- the limit is reached: the next read is not one of the list
      rw [Reader.readAll_of_stop (limited_read_stop hzero _)] at h
      cases h
      exact (cutSignal_of_got hleft hn hstop (by omega)).symm
    · rw [ih hpos h]
      exact cutSignal_next hstop hgot

end Source

end Readers
end Foundation
end GoforjCache
