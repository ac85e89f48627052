import Mathlib.Data.List.Basic
import Mathlib.Tactic

/-!
# Foundation - Lines and words of byte texts

Texts are lists of bytes.  A line ends at the first newline.  A server splits its lines at the
space byte; Go's `strings.Fields` and `strings.TrimSpace` know all white space of Unicode,
which this module recognises by its byte patterns: no other rune has these bytes, because the first
byte of a pattern is not a continuation byte.

Main results:

- Theorem `cutLine_append`: a text without newline is the first line of what follows it.
- Theorem `words_append_space`, `fields_append_space`: a space separates words.
- Theorem `trimSpace_append_crlf`: the end of a line is trimmed off.
- Theorem `append_cons_inj_of_notMem_right`: a text is split at the last occurrence of a
  separator in one way only.
-/

namespace GoforjCache
namespace Foundation
namespace Words

/-! ## Separators -/

section Separators

variable {α : Type*}

/-- The first occurrence of a separator splits a list in one way. -/
theorem append_cons_inj_of_notMem_left {x x' z z' : List α} {a : α} (hx : a ∉ x) (hx' : a ∉ x')
    (h : x ++ a :: z = x' ++ a :: z') : x = x' ∧ z = z' := by
  rcases List.append_eq_append_iff.mp h with ⟨m, rfl, hm⟩ | ⟨m, rfl, hm⟩
  · cases m with
    | nil => exact ⟨(List.append_nil x).symm, (List.cons.inj hm).2⟩
    | cons b m =>
      rw [← (List.cons.inj hm).1] at hx'
      exact absurd (List.mem_append_right x List.mem_cons_self) hx'
  · cases m with
    | nil => exact ⟨List.append_nil x', (List.cons.inj hm).2.symm⟩
    | cons b m =>
      rw [← (List.cons.inj hm).1] at hx
      exact absurd (List.mem_append_right x' List.mem_cons_self) hx

/-- So does the last one. -/
theorem append_cons_inj_of_notMem_right {x x' z z' : List α} {a : α} (hz : a ∉ z) (hz' : a ∉ z')
    (h : x ++ a :: z = x' ++ a :: z') : x = x' ∧ z = z' := by
  have hreverse : z.reverse ++ a :: x.reverse = z'.reverse ++ a :: x'.reverse := by
    simpa using congrArg List.reverse h
  rcases append_cons_inj_of_notMem_left (mt List.mem_reverse.mp hz) (mt List.mem_reverse.mp hz')
    hreverse with ⟨hz, hx⟩
  exact ⟨List.reverse_injective hx, List.reverse_injective hz⟩

end Separators

/-! ## Lines -/

/-- The bytes that end a line of a text protocol. -/
def crlf : List UInt8 := [13, 10]

/-- The first line of a text, without its newline, and what follows. -/
def cutLine : List UInt8 → Option (List UInt8 × List UInt8)
  | [] => none
  | b :: l => if b = 10 then some ([], l) else (cutLine l).map fun p => (b :: p.1, p.2)

variable {l : List UInt8} {s b : UInt8}

/-- A text without newline is the first line of what follows it. -/
theorem cutLine_append (h : 10 ∉ l) (rest : List UInt8) :
    cutLine (l ++ 10 :: rest) = some (l, rest) := by
  induction l with
  | nil => rfl
  | cons b l ih =>
    rw [List.mem_cons, not_or] at h
    rw [List.cons_append, cutLine, if_neg (Ne.symm h.1), ih h.2]
    rfl

/-- A line without its carriage return. -/
def stripReturn (l : List UInt8) : List UInt8 :=
  if l.getLast? = some 13 then l.dropLast else l

@[simp]
theorem stripReturn_concat (l : List UInt8) : stripReturn (l ++ [13]) = l := by
  simp [stripReturn]

/-! ## Words between spaces -/

/-- A word that was read backwards, unless it is empty. -/
def flushWord (cur : List UInt8) : List (List UInt8) :=
  if cur = [] then [] else [cur.reverse]

/-- The words of a text, with the beginning of the current one read already. -/
def wordsFrom (cur : List UInt8) : List UInt8 → List (List UInt8)
  | [] => flushWord cur
  | b :: l => if b = 32 then flushWord cur ++ wordsFrom [] l else wordsFrom (b :: cur) l

/-- The words of a text, between spaces. -/
def words (l : List UInt8) : List (List UInt8) := wordsFrom [] l

theorem wordsFrom_append_space (cur a b : List UInt8) :
    wordsFrom cur (a ++ 32 :: b) = wordsFrom cur a ++ words b := by
  induction a generalizing cur with
  | nil => rfl
  | cons x a ih =>
    rw [List.cons_append, wordsFrom, wordsFrom]
    split
    · rw [ih, List.append_assoc]
    · exact ih (x :: cur)

theorem words_append_space (a b : List UInt8) : words (a ++ 32 :: b) = words a ++ words b :=
  wordsFrom_append_space [] a b

theorem wordsFrom_of_notMem (h : 32 ∉ l) (cur : List UInt8) :
    wordsFrom cur l = flushWord (l.reverse ++ cur) := by
  induction l generalizing cur with
  | nil => rfl
  | cons b l ih =>
    rw [List.mem_cons, not_or] at h
    rw [wordsFrom, if_neg (Ne.symm h.1), ih h.2, List.reverse_cons, List.append_assoc]
    rfl

/-- A text without spaces is one word. -/
theorem words_of_notMem (h : 32 ∉ l) (hne : l ≠ []) : words l = [l] := by
  rw [words, wordsFrom_of_notMem h, List.append_nil, flushWord, if_neg (by simpa using hne),
    List.reverse_reverse]

/-- Words with a space between them. -/
def unwords : List (List UInt8) → List UInt8
  | [] => []
  | [w] => w
  | w :: v :: ws => w ++ 32 :: unwords (v :: ws)

/-- A function that splits texts at spaces splits joined words one by one. -/
theorem split_unwords {f : List UInt8 → List (List UInt8)} (hnil : f [] = [])
    (hf : ∀ a b, f (a ++ 32 :: b) = f a ++ f b) (ws : List (List UInt8)) :
    f (unwords ws) = ws.flatMap f := by
  induction ws with
  | nil => exact hnil
  | cons w ws ih =>
    cases ws with
    | nil => simp [unwords]
    | cons v ws => rw [List.flatMap_cons, unwords, hf, ih]

/-- Words without spaces are read back. -/
theorem words_unwords {ws : List (List UInt8)} (h : ∀ w ∈ ws, w ≠ [] ∧ 32 ∉ w) :
    words (unwords ws) = ws := by
  rw [split_unwords rfl words_append_space]
  induction ws with
  | nil => rfl
  | cons w ws ih =>
    have hw := h w List.mem_cons_self
    rw [List.flatMap_cons, words_of_notMem hw.2 hw.1,
      ih fun v hv => h v (List.mem_cons_of_mem w hv)]
    rfl

/-- Joined words contain spaces and the bytes of the words. -/
theorem notMem_unwords {c : UInt8} (hc : c ≠ 32) {ws : List (List UInt8)} (h : ∀ w ∈ ws, c ∉ w) :
    c ∉ unwords ws := by
  induction ws with
  | nil => exact List.not_mem_nil
  | cons w ws ih =>
    have hw := h w List.mem_cons_self
    cases ws with
    | nil => exact hw
    | cons v ws =>
      rw [unwords, List.mem_append, List.mem_cons]
      rintro (hmem | rfl | hmem)
      · exact hw hmem
      · exact hc rfl
      · exact ih (fun u hu => h u (List.mem_cons_of_mem w hu)) hmem

/-- Joined words end with the last one. -/
theorem unwords_concat (ws : List (List UInt8)) (w : List UInt8) :
    ∃ x, unwords (ws ++ [w]) = x ++ w := by
  induction ws with
  | nil => exact ⟨[], rfl⟩
  | cons v ws ih =>
    rcases ih with ⟨x, hx⟩
    cases ws with
    | nil => exact ⟨v ++ [32], by simp [unwords]⟩
    | cons u ws => exact ⟨v ++ 32 :: x, by simpa [unwords] using hx⟩

/-! ## White space -/

/-- White space of one byte. -/
def isSpaceByte (b : UInt8) : Bool := b == 32 || (decide (9 ≤ b) && decide (b ≤ 13))

/-- White space of two bytes: U+0085 and U+00A0. -/
def isSpacePair (a b : UInt8) : Bool := a == 0xC2 && (b == 0x85 || b == 0xA0)

/-- White space of three bytes: U+1680, U+2000 to U+200A, U+2028, U+2029, U+202F, U+205F and
U+3000. -/
def isSpaceTriple (a b c : UInt8) : Bool :=
  (a == 0xE1 && b == 0x9A && c == 0x80) ||
    (a == 0xE2 && b == 0x80 &&
      ((decide (0x80 ≤ c) && decide (c ≤ 0x8A)) || c == 0xA8 || c == 0xA9 || c == 0xAF)) ||
    (a == 0xE2 && b == 0x81 && c == 0x9F) || (a == 0xE3 && b == 0x80 && c == 0x80)

/-- The number of bytes of the white space at the beginning of a text, zero if there is none. -/
def spaceLen : List UInt8 → Nat
  | [] => 0
  | [a] => if isSpaceByte a then 1 else 0
  | [a, b] => if isSpaceByte a then 1 else if isSpacePair a b then 2 else 0
  | a :: b :: c :: _ =>
    if isSpaceByte a then 1
    else if isSpacePair a b then 2
    else if isSpaceTriple a b c then 3 else 0

/-- The same at the end of a text that is read backwards. -/
def spaceLenBack : List UInt8 → Nat
  | [] => 0
  | [c] => if isSpaceByte c then 1 else 0
  | [c, b] => if isSpaceByte c then 1 else if isSpacePair b c then 2 else 0
  | c :: b :: a :: _ =>
    if isSpaceByte c then 1
    else if isSpacePair b c then 2
    else if isSpaceTriple a b c then 3 else 0

/-- White space is within its text. -/
theorem spaceLen_le (l : List UInt8) : spaceLen l ≤ l.length := by
  unfold spaceLen
  split
  · exact Nat.zero_le _
  · split <;> simp
  · split
    · simp
    · split <;> simp
  · split
    · simp
    · split
      · simp
      · split <;> simp

/-- An ASCII byte is none of the bytes above. -/
theorem ne_of_ascii (hs : s < 0x80) {c : UInt8} (hc : 0x80 ≤ c) : s ≠ c := by
  rintro rfl
  exact UInt8.not_le.mpr hs hc

/-- An ASCII byte does not end a white space of two bytes. -/
theorem isSpacePair_ascii (hs : s < 0x80) (a : UInt8) : isSpacePair a s = false := by
  simp [isSpacePair, ne_of_ascii hs (c := 0x85) (by decide), ne_of_ascii hs (c := 0xA0) (by decide)]

theorem isSpaceTriple_ascii_second (hs : s < 0x80) (a c : UInt8) : isSpaceTriple a s c = false := by
  simp [isSpaceTriple, ne_of_ascii hs (c := 0x9A) (by decide),
    ne_of_ascii hs (c := 0x80) (by decide), ne_of_ascii hs (c := 0x81) (by decide)]

/-- An ASCII byte does not end a white space of three bytes. -/
theorem isSpaceTriple_ascii_third (hs : s < 0x80) (a b : UInt8) : isSpaceTriple a b s = false := by
  have hlow : ¬(0x80 : UInt8) ≤ s := UInt8.not_le.mpr hs
  simp [isSpaceTriple, hlow, ne_of_ascii hs (c := 0x80) (by decide),
    ne_of_ascii hs (c := 0xA8) (by decide), ne_of_ascii hs (c := 0xA9) (by decide),
    ne_of_ascii hs (c := 0xAF) (by decide), ne_of_ascii hs (c := 0x9F) (by decide)]

/-- A white space does not reach into an ASCII byte after it. -/
theorem spaceLen_append_ascii (hne : l ≠ []) (hs : s < 0x80) (t : List UInt8) :
    spaceLen (l ++ s :: t) = spaceLen l := by
  match l, hne with
  | [a], _ =>
    cases t with
    | nil => simp [spaceLen, isSpacePair_ascii hs]
    | cons c t => simp [spaceLen, isSpacePair_ascii hs, isSpaceTriple_ascii_second hs]
  | [a, b], _ => simp [spaceLen, isSpaceTriple_ascii_third hs]
  | a :: b :: c :: l, _ => rfl

/-- The bytes of a printable ASCII word. -/
def Printable (l : List UInt8) : Prop := ∀ b ∈ l, 33 ≤ b ∧ b < 127

theorem isSpaceByte_of_printable (h : 33 ≤ b ∧ b < 127) : isSpaceByte b = false := by
  have h32 : b ≠ 32 := by
    rintro rfl
    exact absurd h.1 (by decide)
  have h13 : ¬b ≤ 13 := fun hle => absurd (UInt8.le_trans h.1 hle) (by decide)
  simp [isSpaceByte, h32, h13]

theorem ascii_of_printable (h : 33 ≤ b ∧ b < 127) : b < 0x80 := UInt8.lt_trans h.2 (by decide)

theorem spaceLen_of_printable (h : 33 ≤ b ∧ b < 127) (l : List UInt8) : spaceLen (b :: l) = 0 := by
  have hbyte := isSpaceByte_of_printable h
  have hs := ascii_of_printable h
  have hpair : ∀ c, isSpacePair b c = false := by
    intro c
    simp [isSpacePair, ne_of_ascii hs (c := 0xC2) (by decide)]
  have htriple : ∀ c d, isSpaceTriple b c d = false := by
    intro c d
    simp [isSpaceTriple, ne_of_ascii hs (c := 0xE1) (by decide),
      ne_of_ascii hs (c := 0xE2) (by decide), ne_of_ascii hs (c := 0xE3) (by decide)]
  match l with
  | [] => simp [spaceLen, hbyte]
  | [c] => simp [spaceLen, hbyte, hpair]
  | c :: d :: l => simp [spaceLen, hbyte, hpair, htriple]

theorem spaceLenBack_of_printable (h : 33 ≤ b ∧ b < 127) (l : List UInt8) :
    spaceLenBack (b :: l) = 0 := by
  have hbyte := isSpaceByte_of_printable h
  have hs := ascii_of_printable h
  match l with
  | [] => simp [spaceLenBack, hbyte]
  | [c] => simp [spaceLenBack, hbyte, isSpacePair_ascii hs]
  | c :: d :: l =>
    simp [spaceLenBack, hbyte, isSpacePair_ascii hs, isSpaceTriple_ascii_third hs]

/-! ## Fields -/

/-- The fields of a text, with bytes of a white space still to skip and the beginning of the current
field read already. -/
def fieldsFrom : Nat → List UInt8 → List UInt8 → List (List UInt8)
  | _, cur, [] => flushWord cur
  | skip + 1, cur, _ :: l => fieldsFrom skip cur l
  | 0, cur, b :: l =>
    match spaceLen (b :: l) with
    | 0 => fieldsFrom 0 (b :: cur) l
    | n + 1 => flushWord cur ++ fieldsFrom n [] l

/-- `strings.Fields`. -/
def fields (l : List UInt8) : List (List UInt8) := fieldsFrom 0 [] l

theorem fieldsFrom_append_space {skip : Nat} (cur : List UInt8) {a : List UInt8}
    (hskip : skip ≤ a.length) (b : List UInt8) :
    fieldsFrom skip cur (a ++ 32 :: b) = fieldsFrom skip cur a ++ fields b := by
  induction a generalizing skip cur with
  | nil =>
    rw [List.length_nil, Nat.le_zero] at hskip
    subst hskip
    have hspace : spaceLen (32 :: b) = 1 := by
      match b with
      | [] | [x] | x :: y :: b => rfl
    simp only [List.nil_append, fieldsFrom, hspace]
    rfl
  | cons x a ih =>
    cases skip with
    | succ skip =>
      rw [List.cons_append, fieldsFrom, fieldsFrom]
      exact ih cur (by simpa using hskip)
    | zero =>
      have hsame : spaceLen (x :: (a ++ 32 :: b)) = spaceLen (x :: a) :=
        spaceLen_append_ascii (List.cons_ne_nil x a) (by decide) b
      have hle := spaceLen_le (x :: a)
      rw [List.cons_append, fieldsFrom, fieldsFrom, hsame]
      split
      · exact ih (x :: cur) (Nat.zero_le _)
      · rename_i n hlen
        rw [ih [] (by rw [hlen, List.length_cons] at hle; omega), List.append_assoc]

theorem fields_append_space (a b : List UInt8) : fields (a ++ 32 :: b) = fields a ++ fields b :=
  fieldsFrom_append_space [] (Nat.zero_le _) b

/-- The fields of joined words are those of the words. -/
theorem fields_unwords (ws : List (List UInt8)) : fields (unwords ws) = ws.flatMap fields :=
  split_unwords rfl fields_append_space ws

theorem fields_of_printable (h : Printable l) (hne : l ≠ []) : fields l = [l] := by
  have hfrom : ∀ cur, fieldsFrom 0 cur l = flushWord (l.reverse ++ cur) := by
    clear hne
    induction l with
    | nil => exact fun cur => rfl
    | cons b l ih =>
      intro cur
      have hrest : Printable l := fun c hc => h c (List.mem_cons_of_mem b hc)
      rw [fieldsFrom, spaceLen_of_printable (h b List.mem_cons_self)]
      dsimp only
      rw [ih hrest, List.reverse_cons, List.append_assoc]
      rfl
  rw [fields, hfrom, List.append_nil, flushWord, if_neg (by simpa using hne), List.reverse_reverse]

/-! ## Trimming -/

/-- Drop the white space at the beginning, as `len` measures it. -/
def dropSpace (len : List UInt8 → Nat) : Nat → List UInt8 → List UInt8
  | _, [] => []
  | skip + 1, _ :: l => dropSpace len skip l
  | 0, b :: l =>
    match len (b :: l) with
    | 0 => b :: l
    | n + 1 => dropSpace len n l

/-- `strings.TrimSpace`. -/
def trimSpace (l : List UInt8) : List UInt8 :=
  (dropSpace spaceLenBack 0 (dropSpace spaceLen 0 l).reverse).reverse

/-- A text that does not begin with white space. -/
theorem dropSpace_of_len {len : List UInt8 → Nat} (h : len l = 0) : dropSpace len 0 l = l := by
  cases l with
  | nil => rfl
  | cons b l => rw [dropSpace, h]

/-- A text that neither begins nor ends with white space stays as it is. -/
theorem trimSpace_eq_self (hstart : spaceLen l = 0) (hend : spaceLenBack l.reverse = 0) :
    trimSpace l = l := by
  rw [trimSpace, dropSpace_of_len hstart, dropSpace_of_len hend, List.reverse_reverse]

/-- Printable text stays as it is. -/
theorem trimSpace_of_printable (h : Printable l) : trimSpace l = l := by
  apply trimSpace_eq_self
  · cases l with
    | nil => rfl
    | cons b l => exact spaceLen_of_printable (h b List.mem_cons_self) l
  · cases hback : l.reverse with
    | nil => rfl
    | cons b m =>
      have hmem : b ∈ l := by
        rw [← List.mem_reverse, hback]
        exact List.mem_cons_self
      exact spaceLenBack_of_printable (h b hmem) m

/-- What is left does not begin with white space. -/
theorem len_dropSpace {len : List UInt8 → Nat} (hnil : len [] = 0) (skip : Nat)
    (l : List UInt8) : len (dropSpace len skip l) = 0 := by
  fun_induction dropSpace len skip l with
  | case1 => exact hnil
  | case2 skip b l ih => exact ih
  | case3 b l hlen => exact hlen
  | case4 b l n hlen ih => exact ih

/-- What is left is the end of the text. -/
theorem dropSpace_suffix (len : List UInt8 → Nat) (skip : Nat) (l : List UInt8) :
    dropSpace len skip l <:+ l := by
  fun_induction dropSpace len skip l with
  | case1 => exact List.suffix_rfl
  | case2 skip b l ih => exact ih.trans (List.suffix_cons b l)
  | case3 b l hlen => exact List.suffix_rfl
  | case4 b l n hlen ih => exact ih.trans (List.suffix_cons b l)

/-- The beginning of a text that does not begin with white space does not either. -/
theorem spaceLen_of_append {a b : List UInt8} (h : spaceLen (a ++ b) = 0) : spaceLen a = 0 := by
  match a, b with
  | [], _ => rfl
  | [x], [] | [x, y], [] => exact h
  | [x], [y] =>
    simp only [List.cons_append, List.nil_append, spaceLen] at h ⊢
    split at h
    · cases h
    · rename_i hx
      rw [if_neg hx]
  | [x], y :: z :: b =>
    simp only [List.cons_append, List.nil_append, spaceLen] at h ⊢
    split at h
    · cases h
    · rename_i hx
      rw [if_neg hx]
  | [x, y], z :: b =>
    simp only [List.cons_append, List.nil_append, spaceLen] at h ⊢
    split at h
    · cases h
    · rename_i hx
      rw [if_neg hx]
      split at h
      · cases h
      · rename_i hpair
        rw [if_neg hpair]
  | x :: y :: z :: a, b => exact h

/-- The trimmed text is the beginning of what is left without the white space before it. -/
theorem trimSpace_begins_dropSpace (l : List UInt8) : trimSpace l <+: dropSpace spaceLen 0 l := by
  have hsuffix := dropSpace_suffix spaceLenBack 0 (dropSpace spaceLen 0 l).reverse
  have hreverse := List.reverse_prefix.mpr hsuffix
  rwa [List.reverse_reverse] at hreverse

/-- A text that does not begin with white space begins with the trimmed text. -/
theorem trimSpace_begins (h : spaceLen l = 0) : trimSpace l <+: l := by
  have hbegins := trimSpace_begins_dropSpace l
  rwa [dropSpace_of_len h] at hbegins

/-- Trimming twice is trimming once. -/
theorem trimSpace_trimSpace (l : List UInt8) : trimSpace (trimSpace l) = trimSpace l := by
  apply trimSpace_eq_self
  · have hstart : spaceLen (dropSpace spaceLen 0 l) = 0 := len_dropSpace rfl 0 l
    rcases trimSpace_begins_dropSpace l with ⟨cut, hcut⟩
    rw [← hcut] at hstart
    exact spaceLen_of_append hstart
  · rw [trimSpace, List.reverse_reverse]
    exact len_dropSpace rfl 0 _

/-- The end of a line is trimmed off a text that neither begins nor ends with white space. -/
theorem trimSpace_append_crlf (hne : l ≠ []) (hstart : spaceLen l = 0)
    (hend : spaceLenBack l.reverse = 0) : trimSpace (l ++ crlf) = l := by
  have hleft : spaceLen (l ++ crlf) = 0 := by
    rw [crlf, spaceLen_append_ascii hne (by decide), hstart]
  have hreturn : ∀ m : List UInt8, spaceLenBack (10 :: 13 :: m) = 1 := by
    intro m
    cases m <;> rfl
  have hnewline : ∀ m : List UInt8, spaceLenBack (13 :: m) = 1 := by
    intro m
    match m with
    | [] | [x] | x :: y :: m => rfl
  have hback : dropSpace spaceLenBack 0 (10 :: 13 :: l.reverse) =
      dropSpace spaceLenBack 0 l.reverse := by
    rw [dropSpace, hreturn]
    dsimp only
    rw [dropSpace, hnewline]
  rw [trimSpace, dropSpace_of_len hleft, List.reverse_append]
  change (dropSpace spaceLenBack 0 (10 :: 13 :: l.reverse)).reverse = l
  rw [hback, dropSpace_of_len hend, List.reverse_reverse]

end Words
end Foundation
end GoforjCache
