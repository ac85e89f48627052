import Mathlib.Tactic

/-!
# Foundation - Listings in pages

A listing is asked for page by page: a page has some items, and if there are more of them, a cursor
for the next page.  The pages may come from different functions, one for each call, as long as they
list the same.

Main results:

- Theorem `Lists.unique`: following the cursors lists one thing only.
- Theorem `Lists.map`: the items of a listing may be read differently.
- Theorem `lists_of_offsets`: the rule for cursors that stand for offsets.
- Theorem `lists_slices`: pages that are slices of one list together are that list.
- Theorem `lists_visible`: what pages list that skip some of what they fetch.
- Theorem `reach_lt_iff`: what they do not come to.
- Theorem `visible_eq_filter_iff`: when this is what a filter keeps.
-/

namespace GoforjCache
namespace Foundation
namespace Paging

variable {κ α β ε : Type}

/-- A page of a listing. -/
structure Page (κ α : Type) where
  items : List α
  nextCursor : κ
  hasMore : Bool
deriving DecidableEq

/-- The same page with the items read differently. -/
def Page.map (f : α → β) (p : Page κ α) : Page κ β := ⟨p.items.map f, p.nextCursor, p.hasMore⟩

/-- Following the cursors from one of them to the page without more items ends, and lists these
items.  Page number `i` comes from `page i`. -/
inductive Lists (page : Nat → κ → Except ε (Page κ α)) : Nat → κ → List α → Prop where
  | last {i : Nat} {cursor : κ} {p : Page κ α} (hpage : page i cursor = .ok p)
      (hmore : p.hasMore = false) : Lists page i cursor p.items
  | more {i : Nat} {cursor : κ} {p : Page κ α} {rest : List α} (hpage : page i cursor = .ok p)
      (hmore : p.hasMore = true) (hrest : Lists page (i + 1) p.nextCursor rest) :
      Lists page i cursor (p.items ++ rest)

variable {page : Nat → κ → Except ε (Page κ α)} {i : Nat} {xs : List α}

/-- Following the cursors lists one thing only. -/
theorem Lists.unique {cursor : κ} {ys : List α} (hx : Lists page i cursor xs)
    (hy : Lists page i cursor ys) : xs = ys := by
  induction hx generalizing ys with
  | last hpage hmore =>
    cases hy with
    | last hpage' =>
      cases hpage.symm.trans hpage'
      rfl
    | more hpage' hmore' =>
      cases hpage.symm.trans hpage'
      cases hmore.symm.trans hmore'
  | more hpage hmore _ ih =>
    cases hy with
    | last hpage' hmore' =>
      cases hpage.symm.trans hpage'
      cases hmore.symm.trans hmore'
    | more hpage' _ hrest' =>
      cases hpage.symm.trans hpage'
      rw [ih hrest']

/-- The items of a listing may be read differently. -/
theorem Lists.map {page' : Nat → κ → Except ε (Page κ β)} (f : α → β)
    (hpage : ∀ i cursor, page' i cursor = (page i cursor).map (Page.map f)) {cursor : κ}
    (h : Lists page i cursor xs) : Lists page' i cursor (xs.map f) := by
  have hmapped : ∀ {i cursor} {p : Page κ α}, page i cursor = .ok p →
      page' i cursor = .ok (p.map f) := by
    intro i cursor p hok
    rw [hpage, hok]
    rfl
  induction h with
  | last hok hmore => exact Lists.last (hmapped hok) hmore
  | more hok hmore _ ih =>
    rw [List.map_append]
    exact Lists.more (hmapped hok) hmore ih

/-- The rule for cursors that stand for offsets: from every offset that is reached, the page is the
last one, or the rest begins with the page and goes on at a later offset. -/
theorem lists_of_offsets {cursor : Nat → κ} {limit : Nat} (hlimit : 0 < limit)
    (rest : Nat → List α) (P : Nat → Prop) (bound : Nat)
    (h : ∀ i o, P o → ∃ p, page i (cursor o) = .ok p ∧
      ((p.hasMore = false ∧ p.items = rest o) ∨
        (p.hasMore = true ∧ p.nextCursor = cursor (o + limit) ∧
          rest o = p.items ++ rest (o + limit) ∧ P (o + limit) ∧ o + limit ≤ bound))) {o : Nat}
    (ho : P o) : Lists page i (cursor o) (rest o) := by
  -- the offset comes closer to the bound with every page
  induction hdistance : bound - o using Nat.strong_induction_on generalizing i o with
  | _ distance ih =>
    rcases h i o ho with ⟨p, hpage, ⟨hmore, hitems⟩ | ⟨hmore, hnext, hrest, hnextP, hbound⟩⟩
    · rw [← hitems]
      exact Lists.last hpage hmore
    · rw [hrest]
      refine Lists.more hpage hmore ?_
      rw [hnext]
      exact ih (bound - (o + limit)) (by omega) hnextP rfl

/-- Pages that are slices of one list together are that list. -/
theorem lists_slices {cursor : Nat → κ} {limit : Nat} (hlimit : 0 < limit)
    (h : ∀ i o, o ≤ xs.length → ∃ p, page i (cursor o) = .ok p ∧
      p.items = (xs.drop o).take limit ∧ p.hasMore = decide (o + limit < xs.length) ∧
        (p.hasMore = true → p.nextCursor = cursor (o + limit))) (i : Nat) :
    Lists page i (cursor 0) xs := by
  refine lists_of_offsets hlimit (fun o => xs.drop o) (· ≤ xs.length) xs.length ?_ (Nat.zero_le _)
  intro i o ho
  rcases h i o ho with ⟨p, hpage, hitems, hmore, hnext⟩
  refine ⟨p, hpage, ?_⟩
  by_cases hend : o + limit < xs.length
  · rw [decide_eq_true hend] at hmore
    refine Or.inr ⟨hmore, hnext hmore, ?_, hend.le, hend.le⟩
    rw [hitems, ← List.drop_drop, List.take_append_drop]
  · rw [decide_eq_false hend] at hmore
    refine Or.inl ⟨hmore, ?_⟩
    rw [hitems, List.take_of_length_le]
    rw [List.length_drop]
    omega

/-! ## Pages that skip items -/

section Skipping

variable (p : α → Bool) (limit : Nat) (xs : List α)

/-- What a page keeps of the items that it fetches, one more than the limit. -/
def kept (o : Nat) : List α := ((xs.drop o).take (limit + 1)).filter p

/-- The position of the last item that is fetched: the last one of the page that first skips an
item. -/
def reach : Nat :=
  let first := xs.findIdx fun x => !p x
  if first = xs.length then first else (first - 1) / limit * limit + limit

/-- The items that are fetched and not skipped. -/
def visible : List α := (xs.take (reach p limit xs + 1)).filter p

variable {p limit xs} {o : Nat}

/-- What is fetched before the first item to be skipped is kept. -/
theorem kept_of_lt (h : o + limit < xs.findIdx fun x => !p x) :
    kept p limit xs o = (xs.drop o).take (limit + 1) := by
  apply List.filter_eq_self.mpr
  intro x hx
  rcases List.mem_take_iff_getElem.mp hx with ⟨j, hj, rfl⟩
  rw [List.getElem_drop]
  have hlt : o + j < xs.findIdx fun x => !p x := by omega
  simpa using List.not_of_lt_findIdx hlt

/-- A page that skips an item, or comes to the end, does not exceed the limit. -/
theorem length_kept_le (hstart : o = 0 ∨ o < xs.findIdx fun x => !p x)
    (h : (xs.findIdx fun x => !p x) ≤ o + limit) : (kept p limit xs o).length ≤ limit := by
  have hle : (kept p limit xs o).length ≤ ((xs.drop o).take (limit + 1)).length :=
    List.length_filter_le _ _
  have hfetched : ((xs.drop o).take (limit + 1)).length = min (limit + 1) (xs.length - o) := by
    rw [List.length_take, List.length_drop]
  by_cases hend : (xs.findIdx fun x => !p x) < xs.length
  · -- the first item to be skipped is among those that are fetched
    have hskipped : ∃ x ∈ (xs.drop o).take (limit + 1), ¬p x = true := by
      refine ⟨xs[xs.findIdx fun x => !p x], ?_, ?_⟩
      · refine List.mem_take_iff_getElem.mpr ⟨(xs.findIdx fun x => !p x) - o, ?_, ?_⟩
        · rw [List.length_drop]
          omega
        · rw [List.getElem_drop]
          congr 1
          omega
      · simpa using List.findIdx_getElem (w := hend)
    have hlt := List.length_filter_lt_length_iff_exists.mpr hskipped
    unfold kept
    omega
  · omega

/-- The position of the last item, from a page that skips an item or comes to the end. -/
theorem take_reach (hlimit : 0 < limit) (hdvd : limit ∣ o)
    (hstart : o = 0 ∨ o < xs.findIdx fun x => !p x) (h : (xs.findIdx fun x => !p x) ≤ o + limit) :
    (xs.drop o).take (reach p limit xs + 1 - o) = (xs.drop o).take (limit + 1) := by
  rcases hdvd with ⟨k, rfl⟩
  unfold reach
  dsimp only
  split
  · rename_i hend
    rw [List.take_of_length_le, List.take_of_length_le]
    · rw [List.length_drop]
      omega
    · rw [List.length_drop]
      omega
  · have hk : ((xs.findIdx fun x => !p x) - 1) / limit = k := by
      rw [Nat.div_eq_iff hlimit]
      rw [Nat.mul_comm] at hstart h
      omega
    rw [hk, Nat.mul_comm k limit]
    congr 1
    omega

/-- What is out of reach: a page ends between an item that is skipped and the position. -/
theorem reach_lt_iff (hlimit : 0 < limit) {i : Nat} (hi : i < xs.length) :
    reach p limit xs < i ↔ ∃ (j : Nat) (x : α), xs[j]? = some x ∧ p x = false ∧
      ∃ pages, 0 < pages ∧ j ≤ pages * limit ∧ pages * limit < i := by
  unfold reach
  dsimp only
  constructor
  · intro h
    split at h
    · omega
    rename_i hend
    have hfirst := Nat.lt_of_le_of_ne List.findIdx_le_length hend
    have hbound := Nat.lt_div_mul_add (a := (xs.findIdx fun x => !p x) - 1) hlimit
    refine ⟨_, _, List.getElem?_eq_getElem hfirst, ?_,
      ((xs.findIdx fun x => !p x) - 1) / limit + 1, Nat.succ_pos _, ?_, ?_⟩
    · simpa using List.findIdx_getElem (w := hfirst)
    · rw [Nat.succ_mul]
      omega
    · rw [Nat.succ_mul]
      exact h
  · rintro ⟨j, x, hj, hx, pages, hpages, hle, hlt⟩
    rcases List.getElem?_eq_some_iff.mp hj with ⟨hlength, rfl⟩
    have hfirst : (xs.findIdx fun x => !p x) ≤ j := by
      by_contra hbefore
      have hkept := List.not_of_lt_findIdx (Nat.not_le.mp hbefore)
      simp [hx] at hkept
    rw [if_neg (by omega)]
    have hpage : ((xs.findIdx fun x => !p x) - 1) / limit < pages := by
      rw [Nat.div_lt_iff_lt_mul hlimit]
      have hpos := Nat.mul_pos hpages hlimit
      omega
    have hmul := Nat.mul_le_mul_right limit (Nat.succ_le_of_lt hpage)
    rw [Nat.succ_mul] at hmul
    omega

/-- What pages list that skip some of what they fetch, and take themselves for the last one
unless everything is left that they have fetched. -/
theorem lists_visible {cursor : Nat → κ} (hlimit : 0 < limit)
    (h : ∀ i o, o ≤ xs.length → ∃ pg, page i (cursor o) = .ok pg ∧
      ((kept p limit xs o).length ≤ limit → pg.hasMore = false ∧ pg.items = kept p limit xs o) ∧
      (limit < (kept p limit xs o).length → pg.hasMore = true ∧
        pg.nextCursor = cursor (o + limit) ∧ pg.items = (kept p limit xs o).take limit)) (i : Nat) :
    Lists page i (cursor 0) (visible p limit xs) := by
  refine lists_of_offsets hlimit
    (fun o => ((xs.drop o).take (reach p limit xs + 1 - o)).filter p)
    (fun o => limit ∣ o ∧ (o = 0 ∨ o < xs.findIdx fun x => !p x)) xs.length ?_
    ⟨Nat.dvd_zero limit, Or.inl rfl⟩
  rintro i o ⟨hdvd, hstart⟩
  have hle : (xs.findIdx fun x => !p x) ≤ xs.length := List.findIdx_le_length
  rcases h i o (by omega) with ⟨pg, hpage, hlast, hmore⟩
  refine ⟨pg, hpage, ?_⟩
  rcases Nat.lt_or_ge (o + limit) (xs.findIdx fun x => !p x) with hlt | hge
  · right
    have hkept := kept_of_lt hlt
    have hlength : (kept p limit xs o).length = limit + 1 := by
      rw [hkept, List.length_take, List.length_drop]
      omega
    rcases hmore (by omega) with ⟨hhas, hnext, hitems⟩
    refine ⟨hhas, hnext, ?_, ⟨(Nat.dvd_add_self_right).mpr hdvd, Or.inr hlt⟩, by omega⟩
    have hreach : o + limit ≤ reach p limit xs := by
      rcases hdvd with ⟨k, rfl⟩
      unfold reach
      dsimp only
      split
      · omega
      · have hk : k ≤ ((xs.findIdx fun x => !p x) - 1) / limit := by
          rw [Nat.le_div_iff_mul_le hlimit, Nat.mul_comm]
          omega
        have hmul := Nat.mul_le_mul_right limit hk
        rw [Nat.mul_comm k] at hmul
        omega
    have hfirst : ((xs.drop o).take limit).filter p = (kept p limit xs o).take limit := by
      rw [hkept, List.take_take, Nat.min_eq_left (Nat.le_succ limit)]
      apply List.filter_eq_self.mpr
      intro x hx
      have hmem : x ∈ kept p limit xs o := by
        rw [hkept]
        exact List.mem_of_mem_take (by rwa [List.take_take, Nat.min_eq_left (Nat.le_succ limit)])
      exact List.of_mem_filter hmem
    rw [show reach p limit xs + 1 - o = limit + (reach p limit xs + 1 - (o + limit)) by omega,
      List.take_add, List.filter_append, hfirst, hitems, List.drop_drop]
  · left
    rcases hlast (length_kept_le hstart hge) with ⟨hhas, hitems⟩
    refine ⟨hhas, ?_⟩
    rw [hitems, take_reach hlimit hdvd hstart hge]
    rfl

end Skipping

variable {xs : List α}

/-- What is left of the beginning of a list without repetitions is what a filter keeps. -/
theorem take_filter_eq_filter_iff {p q : α → Bool} (hnodup : xs.Nodup) (m : Nat) :
    (xs.take m).filter p = xs.filter q ↔
      ∀ i x, xs[i]? = some x → ((p x = true ∧ i < m) ↔ q x = true) := by
  have hleft : ((xs.take m).filter p).Sublist xs :=
    List.filter_sublist.trans (List.take_sublist m xs)
  have hright : (xs.filter q).Sublist xs := List.filter_sublist
  -- without repetitions, parts of the list are equal if they have the same items
  rw [← hnodup.perm_iff_eq_of_sublist hleft hright,
    List.perm_ext_iff_of_nodup (hnodup.sublist hleft) (hnodup.sublist hright)]
  have hmem : ∀ {i x}, xs[i]? = some x → ((x ∈ xs.take m ↔ i < m) ∧ x ∈ xs) := by
    intro i x hx
    rcases List.getElem?_eq_some_iff.mp hx with ⟨hi, rfl⟩
    refine ⟨⟨fun h => ?_, fun h => ?_⟩, List.getElem_mem hi⟩
    · rcases List.mem_take_iff_getElem.mp h with ⟨j, hj, heq⟩
      rw [← hnodup.getElem_inj_iff.mp heq]
      omega
    · exact List.mem_take_iff_getElem.mpr ⟨i, by omega, rfl⟩
  constructor
  · intro h i x hx
    rw [← (hmem hx).1, and_comm, ← List.mem_filter, h, List.mem_filter, and_iff_right (hmem hx).2]
  · intro h x
    by_cases hx : x ∈ xs
    · rcases List.mem_iff_getElem?.mp hx with ⟨i, hi⟩
      rw [List.mem_filter, List.mem_filter, (hmem hi).1, and_comm, h i x hi, and_iff_right hx]
    · exact iff_of_false (fun h => hx (hleft.subset h)) fun h => hx (hright.subset h)

/-- In a sorted list the position of an item is the number of those before it. -/
theorem countP_before {r : α → α → Prop} [DecidableRel r] (hasymm : ∀ a b, r a b → ¬r b a)
    (hsorted : xs.Pairwise r) {i : Nat} {x : α} (h : xs[i]? = some x) :
    xs.countP (fun y => decide (r y x)) = i := by
  induction xs generalizing i with
  | nil => cases h
  | cons y ys ih =>
    rcases List.pairwise_cons.mp hsorted with ⟨hy, hys⟩
    cases i with
    | zero =>
      cases h
      refine List.countP_eq_zero.mpr fun z hz => ?_
      rw [decide_eq_true_eq]
      intro hbefore
      rcases List.mem_cons.mp hz with rfl | hmem
      · exact hasymm z z hbefore hbefore
      · exact hasymm _ z (hy z hmem) hbefore
    | succ i =>
      have hfirst := hy x (List.mem_of_getElem? h)
      rw [List.countP_cons, ih hys h, decide_eq_true hfirst, if_pos rfl]

/-- When the visible items are those that a filter keeps. -/
theorem visible_eq_filter_iff {p q : α → Bool} (limit : Nat) (hnodup : xs.Nodup) :
    visible p limit xs = xs.filter q ↔
      ∀ i x, xs[i]? = some x → ((p x = true ∧ i ≤ reach p limit xs) ↔ q x = true) := by
  unfold visible
  rw [take_filter_eq_filter_iff hnodup]
  simp only [Nat.lt_succ_iff]

end Paging
end Foundation
end GoforjCache
