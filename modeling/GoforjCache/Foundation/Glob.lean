import Mathlib.Data.List.Infix
import Mathlib.Tactic

/-!
# Foundation - Glob patterns

The patterns of Redis over bytes: `*` for any text, `?` for one byte, a set in brackets
for one byte of the set, and a backslash before a byte that stands for itself.  A set may be
negated with `^` and may contain ranges; without a closing bracket it goes on to the end of the
pattern.  A pattern is read into tokens, each of which takes one byte or any text.

Main results:

- Theorem `exists_short_match`: tokens that match something match a text with one byte for
  each token that takes a byte.
- Theorem `width_parseFuel_shrinking`: a special byte other than `?` leaves fewer such
  tokens than bytes of the pattern.
- Theorem `globMatch_plain`: a text without special bytes and `*` match what begins with
  the text.
- Theorem `matches_own_iff`: when a text, one more byte and `*` match exactly what begins
  with the text and the byte.
-/

namespace GoforjCache
namespace Foundation
namespace Glob

/-! ## Patterns -/

/-- A token takes any text, or one byte. -/
inductive Token where
  | many
  | any
  | lit (b : UInt8)
  | set (negated : Bool) (ranges : List (UInt8 × UInt8))
deriving DecidableEq, Repr

/-- The byte is one that a token for one byte takes. -/
def Token.test : Token → UInt8 → Bool
  | many, _ => true
  | any, _ => true
  | lit b, c => b == c
  | set negated ranges, c =>
    (ranges.any fun r => decide (min r.1 r.2 ≤ c ∧ c ≤ max r.1 r.2)) != negated

/-- The ranges of a set up to its closing bracket, and the rest of the pattern. -/
def parseSet : List UInt8 → List (UInt8 × UInt8) × List UInt8
  | [] => ([], [])
  | b :: rest =>
    if b = 93 then ([], rest)
    else
      match b, rest with
      | 92, c :: rest => let r := parseSet rest; ((c, c) :: r.1, r.2)
      | b, 45 :: c :: rest => let r := parseSet rest; ((b, c) :: r.1, r.2)
      | b, rest => let r := parseSet rest; ((b, b) :: r.1, r.2)

/-- The set after an opening bracket, and the rest of the pattern. -/
def parseBracket : List UInt8 → Token × List UInt8
  | 94 :: rest => (.set true (parseSet rest).1, (parseSet rest).2)
  | rest => (.set false (parseSet rest).1, (parseSet rest).2)

/-- The tokens of a pattern, at most `fuel` of them. -/
def parseFuel : Nat → List UInt8 → List Token
  | 0, _ => []
  | _, [] => []
  | fuel + 1, b :: rest =>
    if b = 42 then .many :: parseFuel fuel rest
    else if b = 63 then .any :: parseFuel fuel rest
    else if b = 91 then (parseBracket rest).1 :: parseFuel fuel (parseBracket rest).2
    else
      match b, rest with
      | 92, c :: rest => .lit c :: parseFuel fuel rest
      | b, rest => .lit b :: parseFuel fuel rest

/-- The tokens of a pattern; every token takes a byte of it. -/
def parse (pattern : List UInt8) : List Token := parseFuel pattern.length pattern

/-- The tokens take the whole text. -/
def matchTokens : List Token → List UInt8 → Bool
  | [], text => text.isEmpty
  | .many :: tokens, text => text.tails.any (matchTokens tokens)
  | _ :: _, [] => false
  | token :: tokens, b :: text => token.test b && matchTokens tokens text

/-- The pattern matches the text. -/
def globMatch (pattern text : List UInt8) : Bool := matchTokens (parse pattern) text

/-! ## Reading a pattern -/

/-- The bytes with a meaning of their own outside of sets. -/
def Special (b : UInt8) : Prop := b = 42 ∨ b = 63 ∨ b = 91 ∨ b = 92

instance : DecidablePred Special := fun _ => inferInstanceAs (Decidable (_ ∨ _))

/-- A set leaves a later part of the pattern. -/
theorem parseSet_suffix (pattern : List UInt8) :
    (parseSet pattern).2 <:+ pattern ∧
      (pattern ≠ [] → (parseSet pattern).2.length < pattern.length) := by
  have hlater : ∀ (taken : List UInt8) {rest left : List UInt8}, left <:+ rest → taken ≠ [] →
      left <:+ taken ++ rest ∧ (taken ++ rest ≠ [] → left.length < (taken ++ rest).length) := by
    intro taken rest left hleft htaken
    have hpos := List.length_pos_iff.mpr htaken
    have hle := hleft.length_le
    refine ⟨hleft.trans (List.suffix_append taken rest), ?_⟩
    intro _
    rw [List.length_append]
    omega
  fun_induction parseSet pattern with
  | case1 => exact ⟨List.suffix_rfl, fun h => absurd rfl h⟩
  | case2 rest => exact hlater [93] List.suffix_rfl (by simp)
  | case3 c rest _ _ ih => exact hlater [92, c] ih.1 (by simp)
  | case4 b c rest _ _ _ ih => exact hlater [b, 45, c] ih.1 (by simp)
  | case5 b rest _ _ _ _ ih => exact hlater [b] ih.1 (by simp)

theorem parseBracket_suffix (pattern : List UInt8) :
    (parseBracket pattern).2 <:+ pattern ∧
      (pattern ≠ [] → (parseBracket pattern).2.length < pattern.length) := by
  fun_cases parseBracket pattern with
  | case1 rest =>
    have hset := (parseSet_suffix rest).1
    refine ⟨hset.trans (List.suffix_cons 94 rest), ?_⟩
    intro _
    exact Nat.lt_succ_of_le hset.length_le
  | case2 => exact parseSet_suffix pattern

/-- The bytes whose token takes fewer bytes of a text than stand in the pattern. -/
def Shrinking (b : UInt8) : Prop := b = 42 ∨ b = 91 ∨ b = 92

instance : DecidablePred Shrinking := fun _ => inferInstanceAs (Decidable (_ ∨ _))

/-- The token of a byte that stands for one byte. -/
def single (b : UInt8) : Token := if b = 63 then .any else .lit b

variable {b : UInt8} {text pattern : List UInt8}

theorem shrinking_or_question (h : Special b) : Shrinking b ∨ b = 63 := by
  rcases h with h | h | h | h <;> simp [Shrinking, h]

theorem special_of_shrinking (h : Shrinking b) : Special b := by
  rcases h with h | h | h <;> simp [Special, h]

theorem parseFuel_single (h : ¬ Shrinking b) (fuel : Nat) (rest : List UInt8) :
    parseFuel (fuel + 1) (b :: rest) = single b :: parseFuel fuel rest := by
  simp only [Shrinking, not_or] at h
  by_cases hany : b = 63
  · subst hany
    rfl
  · rw [parseFuel, if_neg h.1, if_neg hany, if_neg h.2.1, single, if_neg hany]
    intro _ _ hescape
    exact absurd hescape h.2.2

/-- Bytes that stand for one byte each give one token each. -/
theorem parseFuel_append (h : ∀ b ∈ text, ¬ Shrinking b) (fuel : Nat) (rest : List UInt8) :
    parseFuel (text.length + fuel) (text ++ rest) = text.map single ++ parseFuel fuel rest := by
  induction text with
  | nil => rw [List.length_nil, Nat.zero_add]; rfl
  | cons b text ih =>
    have hb := h b List.mem_cons_self
    have htext := ih fun c hc => h c (List.mem_cons_of_mem b hc)
    rw [List.length_cons, Nat.add_right_comm, List.cons_append, parseFuel_single hb, htext]
    rfl

/-! ## How short a match can be -/

/-- The number of tokens that take one byte. -/
def width (tokens : List Token) : Nat := tokens.countP (· ≠ .many)

theorem width_append (s t : List Token) : width (s ++ t) = width s + width t := List.countP_append

theorem width_cons_le (token : Token) (tokens : List Token) :
    width (token :: tokens) ≤ width tokens + 1 := by
  rw [width, List.countP_cons]
  split <;> simp [width]

theorem width_map_single_le (text : List UInt8) : width (text.map single) ≤ text.length :=
  List.countP_le_length.trans_eq (List.length_map single)

@[simp]
theorem parseFuel_nil (fuel : Nat) : parseFuel fuel [] = [] := by
  cases fuel <;> rfl

/-- The first token of a pattern leaves a later part of it.  It takes any text or leaves less than
the bytes behind the first one, if that one is special and other than `?`. -/
theorem parseFuel_cons (fuel : Nat) (b : UInt8) (rest : List UInt8) :
    ∃ token left, parseFuel (fuel + 1) (b :: rest) = token :: parseFuel fuel left ∧
      left <:+ rest ∧ (Shrinking b → rest ≠ [] → token = .many ∨ left.length < rest.length) := by
  by_cases hmany : b = 42
  · exact ⟨.many, rest, by simp [parseFuel, hmany], List.suffix_rfl, fun _ _ => Or.inl rfl⟩
  by_cases hset : b = 91
  · have hleft := parseBracket_suffix rest
    exact ⟨(parseBracket rest).1, (parseBracket rest).2, by simp [parseFuel, hset], hleft.1,
      fun _ hne => Or.inr (hleft.2 hne)⟩
  by_cases hescape : b = 92
  · cases rest with
    | nil =>
      exact ⟨.lit b, [], by simp [parseFuel, hescape], List.suffix_rfl, fun _ h => absurd rfl h⟩
    | cons c rest =>
      exact ⟨.lit c, rest, by simp [parseFuel, hescape], List.suffix_cons c rest,
        fun _ _ => Or.inr (Nat.lt_succ_self _)⟩
  · have hsingle : ¬ Shrinking b := by simp [Shrinking, hmany, hset, hescape]
    exact ⟨single b, rest, parseFuel_single hsingle fuel rest, List.suffix_rfl,
      fun h => absurd h hsingle⟩

/-- A part of a pattern up to a final `*` has fewer tokens for one byte than bytes. -/
theorem width_parseFuel_le {left : List UInt8} (h : left <:+ text ++ [42]) (fuel : Nat) :
    width (parseFuel fuel left) ≤ left.length - 1 := by
  induction fuel generalizing left with
  | zero => exact Nat.zero_le _
  | succ fuel ih =>
    cases left with
    | nil => exact Nat.zero_le _
    | cons b rest =>
      have hrest : rest <:+ text ++ [42] := (List.suffix_cons b rest).trans h
      obtain ⟨token, left, heq, hleft, -⟩ := parseFuel_cons fuel b rest
      have hwidth := ih (hleft.trans hrest)
      have hle := hleft.length_le
      by_cases hnil : rest = []
      · subst hnil
        have hstar : b = 42 := by simpa using h
        simp [parseFuel, hstar, width]
      · have hpos := List.length_pos_iff.mpr hnil
        rw [heq, List.length_cons]
        have hcons := width_cons_le token (parseFuel fuel left)
        omega

/-- A special byte other than `?` makes one byte less to take. -/
theorem width_parseFuel_shrinking (hb : Shrinking b) (hne : text ≠ []) (fuel : Nat) :
    width (parseFuel fuel (b :: (text ++ [42]))) ≤ text.length := by
  cases fuel with
  | zero => exact Nat.zero_le _
  | succ fuel =>
    obtain ⟨token, left, heq, hleft, hshorter⟩ := parseFuel_cons fuel b (text ++ [42])
    have hwidth := width_parseFuel_le hleft fuel
    have hle := hleft.length_le
    have hpos := List.length_pos_iff.mpr hne
    rw [List.length_append, List.length_singleton] at hle hshorter
    rw [heq]
    rcases hshorter hb (by simp) with hmany | hless
    · rw [hmany, width, List.countP_cons_of_neg (by simp)]
      rw [width] at hwidth
      omega
    · have hcons := width_cons_le token (parseFuel fuel left)
      omega

/-! ## Matching -/

theorem matchTokens_many (tokens : List Token) (text : List UInt8) :
    matchTokens (.many :: tokens) text = true ↔
      ∃ tail, tail <:+ text ∧ matchTokens tokens tail = true := by
  simp [matchTokens]

theorem matchTokens_cons {token : Token} (h : token ≠ .many) (tokens : List Token)
    (text : List UInt8) :
    matchTokens (token :: tokens) text = true ↔
      ∃ b rest, text = b :: rest ∧ token.test b = true ∧ matchTokens tokens rest = true := by
  cases text with
  | nil => cases token <;> simp [matchTokens] at h ⊢
  | cons b rest => cases token <;> simp [matchTokens] at h ⊢

/-- Tokens that match something match a text with one byte for each token that takes a byte. -/
theorem exists_short_match {tokens : List Token} (h : matchTokens tokens text = true) :
    ∃ short, short.length = width tokens ∧ matchTokens tokens short = true := by
  induction tokens generalizing text with
  | nil => exact ⟨[], rfl, rfl⟩
  | cons token tokens ih =>
    by_cases hmany : token = .many
    · subst hmany
      obtain ⟨tail, -, htail⟩ := (matchTokens_many tokens text).mp h
      obtain ⟨short, hlength, hshort⟩ := ih htail
      refine ⟨short, ?_, (matchTokens_many tokens short).mpr ⟨short, List.suffix_rfl, hshort⟩⟩
      rw [width, List.countP_cons_of_neg (by simp)]
      exact hlength
    · obtain ⟨b, rest, -, htest, hrest⟩ := (matchTokens_cons hmany tokens text).mp h
      obtain ⟨short, hlength, hshort⟩ := ih hrest
      have hmatch := (matchTokens_cons hmany tokens _).mpr ⟨b, short, rfl, htest, hshort⟩
      refine ⟨b :: short, ?_, hmatch⟩
      rw [width, List.countP_cons_of_pos (by simpa using hmany), List.length_cons, hlength]
      rfl

theorem single_ne_many (b : UInt8) : single b ≠ .many := by
  rw [single]
  split <;> simp

theorem single_test (b c : UInt8) : (single b).test c = true ↔ b = 63 ∨ b = c := by
  rw [single]
  split <;> simp_all [Token.test]

/-- Tokens for single bytes match byte by byte. -/
theorem matchTokens_single (pattern : List UInt8) (tokens : List Token) (text : List UInt8) :
    matchTokens (pattern.map single ++ tokens) text = true ↔
      ∃ taken rest, text = taken ++ rest ∧
        List.Forall₂ (fun b c => b = 63 ∨ b = c) pattern taken ∧
          matchTokens tokens rest = true := by
  induction pattern generalizing text with
  | nil => simp
  | cons b pattern ih =>
    rw [List.map_cons, List.cons_append, matchTokens_cons (single_ne_many b)]
    constructor
    · rintro ⟨c, rest, rfl, htest, hrest⟩
      obtain ⟨taken, left, rfl, htaken, hleft⟩ := (ih rest).mp hrest
      exact ⟨c :: taken, left, rfl, .cons ((single_test b c).mp htest) htaken, hleft⟩
    · rintro ⟨_, left, rfl, htaken, hleft⟩
      cases htaken with
      | cons hb htaken =>
        exact ⟨_, _, rfl, (single_test b _).mpr hb, (ih _).mpr ⟨_, left, rfl, htaken, hleft⟩⟩

/-- A pattern of single bytes and a final `*`. -/
theorem globMatch_single (h : ∀ b ∈ pattern, ¬ Shrinking b) (text : List UInt8) :
    globMatch (pattern ++ [42]) text = true ↔
      ∃ taken, taken <+: text ∧ List.Forall₂ (fun b c => b = 63 ∨ b = c) pattern taken := by
  have hparse : parse (pattern ++ [42]) = pattern.map single ++ [.many] := by
    rw [parse, List.length_append, parseFuel_append h]
    rfl
  have hrest : ∀ rest, matchTokens [.many] rest = true :=
    fun rest => (matchTokens_many [] rest).mpr ⟨[], List.nil_suffix, rfl⟩
  rw [globMatch, hparse, matchTokens_single]
  constructor
  · rintro ⟨taken, rest, rfl, htaken, -⟩
    exact ⟨taken, List.prefix_append taken rest, htaken⟩
  · rintro ⟨taken, ⟨rest, rfl⟩, htaken⟩
    exact ⟨taken, rest, rfl, htaken, hrest rest⟩

theorem forall₂_plain (h : ∀ b ∈ pattern, b ≠ 63) (taken : List UInt8) :
    List.Forall₂ (fun b c => b = 63 ∨ b = c) pattern taken ↔ pattern = taken := by
  induction pattern generalizing taken with
  | nil => rw [List.forall₂_nil_left_iff, eq_comm]
  | cons b pattern ih =>
    have hb := h b List.mem_cons_self
    have hpattern := ih fun c hc => h c (List.mem_cons_of_mem b hc)
    cases taken with
    | nil => simp
    | cons c taken => simp [hb, hpattern]

/-- A text without special bytes and a final `*` match what begins with the text. -/
theorem globMatch_plain (h : ∀ b ∈ pattern, ¬ Special b) (text : List UInt8) :
    globMatch (pattern ++ [42]) text = true ↔ pattern <+: text := by
  have hplain : ∀ b ∈ pattern, ¬ Shrinking b ∧ b ≠ 63 := by
    intro b hb
    refine ⟨fun hshrinks => h b hb (special_of_shrinking hshrinks), ?_⟩
    intro hquestion
    exact h b hb (Or.inr (Or.inl hquestion))
  simp only [globMatch_single (fun b hb => (hplain b hb).1),
    forall₂_plain (fun b hb => (hplain b hb).2)]
  constructor
  · rintro ⟨_, htext, rfl⟩
    exact htext
  · intro htext
    exact ⟨pattern, htext, rfl⟩

/-- With a special byte other than `?` before its last byte, a pattern that matches anything
matches a text that is too short to begin with the bytes of the pattern. -/
theorem globMatch_shrinking {init rest : List UInt8} {c : UInt8} (hinit : ∀ b ∈ init, ¬ Shrinking b)
    (hb : Shrinking b) (h : globMatch (init ++ b :: rest ++ [c, 42]) text = true) :
    ∃ short, globMatch (init ++ b :: rest ++ [c, 42]) short = true ∧
      short.length < (init ++ b :: rest ++ [c]).length := by
  obtain ⟨short, hlength, hshort⟩ := exists_short_match h
  refine ⟨short, hshort, ?_⟩
  have hpattern : init ++ b :: rest ++ [c, 42] = init ++ b :: ((rest ++ [c]) ++ [42]) := by simp
  rw [hlength, hpattern, parse, List.length_append, parseFuel_append hinit, width_append]
  have hfirst := width_map_single_le init
  have hne : rest ++ [c] ≠ [] := by simp
  have hlast := width_parseFuel_shrinking hb hne (b :: (rest ++ [c] ++ [42])).length
  simp only [List.length_append, List.length_cons, List.length_nil] at hlast ⊢
  omega

/-- The part of a pattern before its first special byte other than `?`. -/
theorem exists_first_shrinking (h : ¬ ∀ b ∈ pattern, ¬ Shrinking b) :
    ∃ init b rest, pattern = init ++ b :: rest ∧ (∀ b ∈ init, ¬ Shrinking b) ∧ Shrinking b := by
  cases hfind : pattern.find? (fun b => decide (Shrinking b)) with
  | none => exact absurd (by simpa using hfind) h
  | some b =>
    obtain ⟨hb, init, rest, heq, hinit⟩ := List.find?_eq_some_iff_append.mp hfind
    exact ⟨init, b, rest, heq, by simpa using hinit, by simpa using hb⟩

/-- A byte `?` of a pattern matches other bytes as well. -/
theorem globMatch_question (hsingle : ∀ b ∈ pattern, ¬ Shrinking b) (hmem : 63 ∈ pattern) :
    ∃ text, globMatch (pattern ++ [42]) text = true ∧ ¬ pattern <+: text := by
  let other : UInt8 → UInt8 := fun b => if b = 63 then 0 else b
  refine ⟨pattern.map other, ?_, ?_⟩
  · apply (globMatch_single hsingle _).mpr
    refine ⟨pattern.map other, List.prefix_rfl, ?_⟩
    rw [List.forall₂_map_right_iff, List.forall₂_same]
    intro b _
    by_cases hb : b = 63 <;> simp [other, hb]
  · intro hbegins
    have heq := hbegins.eq_of_length (List.length_map other).symm
    have hother : 63 ∈ pattern.map other := heq ▸ hmem
    obtain ⟨b, -, hb⟩ := List.mem_map.mp hother
    by_cases hquestion : b = 63 <;> simp [other, hquestion] at hb

/-- When a text, one more byte and `*` match exactly what begins with the text and the byte. -/
theorem matches_own_iff (pattern : List UInt8) {c : UInt8} (hc : ¬ Special c) :
    (∀ text, globMatch (pattern ++ [c, 42]) text = true ↔ pattern ++ [c] <+: text) ↔
      ∀ b ∈ pattern, ¬ Special b := by
  have hsplit : pattern ++ [c, 42] = pattern ++ [c] ++ [42] := by simp
  constructor
  · intro hown
    by_cases hsingle : ∀ b ∈ pattern, ¬ Shrinking b
    · intro b hb hspecial
      have hquestion : b = 63 := (shrinking_or_question hspecial).resolve_left (hsingle b hb)
      subst hquestion
      have hsingles : ∀ b ∈ pattern ++ [c], ¬ Shrinking b := by
        intro b hb hshrinks
        rcases List.mem_append.mp hb with hb | hb
        · exact hsingle b hb hshrinks
        · rw [List.mem_singleton.mp hb] at hshrinks
          exact hc (special_of_shrinking hshrinks)
      obtain ⟨text, hmatch, hnot⟩ := globMatch_question hsingles (List.mem_append_left [c] hb)
      exact hnot ((hown text).mp (hsplit ▸ hmatch))
    · -- A pattern that matches its own text matches one that is shorter.
      obtain ⟨init, b, rest, rfl, hinit, hb⟩ := exists_first_shrinking hsingle
      have hself := (hown _).mpr List.prefix_rfl
      obtain ⟨short, hshort, hlength⟩ := globMatch_shrinking hinit hb hself
      exact absurd ((hown short).mp hshort).length_le (Nat.not_le.mpr hlength)
  · intro hplain text
    rw [hsplit]
    apply globMatch_plain
    intro b hb
    rcases List.mem_append.mp hb with hb | hb
    · exact hplain b hb
    · rwa [List.mem_singleton.mp hb]

end Glob
end Foundation
end GoforjCache
