import Mathlib.Data.List.Sort
import Mathlib.Tactic

/-! # Dealing items into pages

A page takes items until one would bring in a label too many. That item is dropped, and the
next page begins after it. -/

namespace Library

variable {α ε : Type*} [DecidableEq ε]

/-- The items that a page with the labels `page` and the pages after it take. -/
def dealt (label : α → ε) (size : ℕ) : List ε → List α → List α
  | _, [] => []
  | page, a :: rest =>
      if label a ∈ page then a :: dealt label size page rest
      else if page.length < size then a :: dealt label size (label a :: page) rest
      else dealt label size [] rest

/-- The items that a page with the labels `page` and the pages after it drop. -/
def droppedFrom (label : α → ε) (size : ℕ) : List ε → List α → List α
  | _, [] => []
  | page, a :: rest =>
      if label a ∈ page then droppedFrom label size page rest
      else if page.length < size then droppedFrom label size (label a :: page) rest
      else a :: droppedFrom label size [] rest

variable {label : α → ε} {size : ℕ}

theorem mem_iff_dealt_or_dropped {a : α} (page : List ε) (l : List α) :
    a ∈ l ↔ a ∈ dealt label size page l ∨ a ∈ droppedFrom label size page l := by
  induction l generalizing page with
  | nil => simp [dealt, droppedFrom]
  | cons b rest ih =>
      rw [dealt, droppedFrom]
      split
      · rw [List.mem_cons, List.mem_cons, ih page, or_assoc]
      · split
        · rw [List.mem_cons, List.mem_cons, ih (label b :: page), or_assoc]
        · rw [List.mem_cons, List.mem_cons, ih [], or_left_comm]

/-! ## The first of equal labels -/

theorem eraseDups_append_old {page l : List ε} {e : ε} (h : e ∈ page) :
    (page ++ e :: l).eraseDups = (page ++ l).eraseDups := by
  rw [List.eraseDups_append, List.eraseDups_append, List.cons_removeAll, if_neg (by simpa using h)]

theorem eraseDups_of_nodup {page : List ε} (h : page.Nodup) : page.eraseDups = page := by
  induction page with
  | nil => rfl
  | cons e page ih =>
      obtain ⟨hnew, hnodup⟩ := List.nodup_cons.mp h
      have hkeep : page.filter (fun e' => !e' == e) = page := by
        refine List.filter_eq_self.mpr fun e' he' => ?_
        have hne : e' ≠ e := fun heq => hnew (heq ▸ he')
        simpa using hne
      rw [List.eraseDups_cons, hkeep, ih hnodup]

theorem eraseDups_append_new {page l : List ε} {e : ε} (hpage : page.Nodup) (h : e ∉ page) :
    ∃ more, (page ++ e :: l).eraseDups = page ++ e :: more := by
  rw [List.eraseDups_append, List.cons_removeAll, if_pos (by simpa using h), List.eraseDups_cons,
    eraseDups_of_nodup hpage]
  exact ⟨_, rfl⟩

/-- Nothing is dropped just when one page has room for all labels. -/
theorem droppedFrom_eq_nil_iff {page : List ε} (hpage : page.Nodup) (hroom : page.length ≤ size)
    (l : List α) : droppedFrom label size page l = [] ↔
      (page.reverse ++ l.map label).eraseDups.length ≤ size := by
  induction l generalizing page with
  | nil =>
      simp [droppedFrom, eraseDups_of_nodup (List.nodup_reverse.mpr hpage), hroom]
  | cons a rest ih =>
      rw [droppedFrom, List.map_cons]
      by_cases hold : label a ∈ page
      · rw [if_pos hold, ih hpage hroom, eraseDups_append_old (List.mem_reverse.mpr hold)]
      · rw [if_neg hold]
        by_cases hfull : page.length < size
        · rw [if_pos hfull, ih (List.nodup_cons.mpr ⟨hold, hpage⟩) hfull, List.reverse_cons,
            List.append_assoc, List.singleton_append]
        · obtain ⟨more, hmore⟩ := @eraseDups_append_new _ _ page.reverse (rest.map label) (label a)
            (List.nodup_reverse.mpr hpage) fun hmem => hold (List.mem_reverse.mp hmem)
          rw [if_neg hfull, hmore]
          simp only [List.length_append, List.length_reverse, List.length_cons]
          constructor
          · intro hnil
            cases hnil
          · intro hle
            omega

end Library
