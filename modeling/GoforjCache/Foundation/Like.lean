import Mathlib.Data.List.Infix
import Mathlib.Tactic

/-!
# Foundation - Patterns of `LIKE`

In a pattern of SQL's `LIKE`, `%` stands for any text and `_` for one character.  Databases differ
in the rest: whether a byte takes the meaning from the one after it, whether letters of either case
are the same, and whether a character is a byte or its UTF-8 encoding.

Main results:

- Theorem `like_literal_append`: a pattern that begins with bytes that stand for themselves.
- Theorem `like_within_iff`: what begins with one text and contains another one after it.
-/

namespace GoforjCache
namespace Foundation
namespace Like

/-- How a database reads patterns: the byte that escapes the next one, what bytes are compared by,
and whether a character may have several bytes. -/
structure Dialect where
  escape : Option UInt8
  fold : UInt8 → UInt8
  wide : Bool

variable (d : Dialect)

/-- A byte of a UTF-8 encoding that does not begin it. -/
def continuation (b : UInt8) : Bool := decide (0x80 ≤ b ∧ b < 0xC0)

/-- The text after its first character. -/
def Dialect.next : List UInt8 → Option (List UInt8)
  | [] => none
  | b :: text =>
    if d.wide then if continuation b then none else some (text.dropWhile continuation)
    else some text

/-- The text begins with the byte, as the database compares them. -/
def Dialect.starts (b : UInt8) (text : List UInt8) : Bool :=
  text.head?.any fun c => d.fold b == d.fold c

/-- `text LIKE pattern`.  No text matches a pattern that ends with the escape. -/
def like : List UInt8 → List UInt8 → Bool
  | [], text => text.isEmpty
  | b :: pattern, text =>
    if b = 37 then text.tails.any (like pattern)
    else if b = 95 then (d.next text).any (like pattern)
    else if d.escape = some b then
      match pattern with
      | [] => false
      | c :: pattern => d.starts c text && like pattern text.tail
    else d.starts b text && like pattern text.tail

/-- A text that is compared as it is, such as one without letters of the other case. -/
def Folded (text : List UInt8) : Prop := text.map d.fold = text

instance (text : List UInt8) : Decidable (Folded d text) := inferInstanceAs (Decidable (_ = _))

/-- A text of bytes that stand for themselves. -/
def Literal (text : List UInt8) : Prop :=
  ∀ b ∈ text, b ≠ 37 ∧ b ≠ 95 ∧ d.escape ≠ some b ∧ d.fold b = b

instance (text : List UInt8) : Decidable (Literal d text) :=
  inferInstanceAs (Decidable (∀ b ∈ text, _))

variable {d}

/-- `%` takes the beginning of a text. -/
theorem like_percent (pattern text : List UInt8) :
    like d (37 :: pattern) text = true ↔ ∃ before after, text = before ++ after ∧
      like d pattern after = true := by
  rw [like.eq_def]
  dsimp only
  rw [if_pos rfl, List.any_eq_true]
  constructor
  · rintro ⟨after, hafter, h⟩
    rcases (List.mem_tails _ _).mp hafter with ⟨before, rfl⟩
    exact ⟨before, after, rfl, h⟩
  · rintro ⟨before, after, rfl, h⟩
    exact ⟨after, (List.mem_tails _ _).mpr (List.suffix_append before after), h⟩

/-- A literal text takes what is compared like it. -/
theorem like_literal_append {p : List UInt8} (h : Literal d p) (q text : List UInt8) :
    like d (p ++ q) text = true ↔ ∃ a b, text = a ++ b ∧ a.map d.fold = p ∧
      like d q b = true := by
  induction p generalizing text with
  | nil =>
    constructor
    · intro hq
      exact ⟨[], text, rfl, rfl, hq⟩
    · rintro ⟨a, b, rfl, ha, hb⟩
      rw [List.map_eq_nil_iff.mp ha]
      exact hb
  | cons x p ih =>
    obtain ⟨hpercent, hunderscore, hescape, hx⟩ := h x List.mem_cons_self
    have hrest := ih fun b hb => h b (List.mem_cons_of_mem x hb)
    rw [List.cons_append, like.eq_def]
    dsimp only
    rw [if_neg hpercent, if_neg hunderscore, if_neg hescape, Bool.and_eq_true, hrest]
    constructor
    · rintro ⟨hstarts, a, b, htail, ha, hb⟩
      cases text with
      | nil => cases hstarts
      | cons c text =>
        have hc : d.fold x = d.fold c := eq_of_beq hstarts
        refine ⟨c :: a, b, congrArg (List.cons c) htail, ?_, hb⟩
        rw [List.map_cons, ← hc, hx, ha]
    · rintro ⟨a, b, rfl, ha, hb⟩
      cases a with
      | nil => cases ha
      | cons c a =>
        obtain ⟨hc, ha⟩ := List.cons.inj ha
        exact ⟨beq_iff_eq.mpr (hx.trans hc.symm), a, b, rfl, ha, hb⟩

/-- Literal texts match what begins with the first one and contains the second one after it. -/
theorem like_within_iff {start word text : List UInt8} (hstart : Literal d start)
    (hword : Literal d word) (htext : Folded d text) :
    like d (start ++ 37 :: (word ++ [37])) text = true ↔
      ∃ rest, text = start ++ rest ∧ word <:+: rest := by
  have hself : ∀ {p}, Literal d p → p.map d.fold = p := fun hp =>
    (List.map_congr_left (g := id) fun b hb => (hp b hb).2.2.2).trans (List.map_id _)
  have hpercent : ∀ after, like d [37] after = true := fun after =>
    (like_percent [] after).mpr ⟨after, [], (List.append_nil after).symm, rfl⟩
  constructor
  · intro h
    rcases (like_literal_append hstart _ _).mp h with ⟨a, rest, rfl, ha, hrest⟩
    rcases (like_percent _ _).mp hrest with ⟨before, tail, rfl, htail⟩
    rcases (like_literal_append hword _ _).mp htail with ⟨c, after, rfl, hc, -⟩
    simp only [Folded, List.map_append] at htext
    -- what is compared like a text that is not folded is that text
    have hsplit := List.append_inj htext (List.length_map _)
    have hsplit' := List.append_inj hsplit.2 (List.length_map _)
    have hsplit'' := List.append_inj hsplit'.2 (List.length_map _)
    rw [← hsplit.1, ha, ← hsplit''.1, hc]
    exact ⟨_, rfl, before, after, List.append_assoc _ _ _⟩
  · rintro ⟨_, rfl, before, after, rfl⟩
    refine (like_literal_append hstart _ _).mpr ⟨start, _, rfl, hself hstart, ?_⟩
    refine (like_percent _ _).mpr ⟨before, word ++ after, List.append_assoc _ _ _, ?_⟩
    exact (like_literal_append hword _ _).mpr ⟨word, after, rfl, hself hword, hpercent after⟩

end Like
end Foundation
end GoforjCache
