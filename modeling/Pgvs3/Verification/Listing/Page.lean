import Pgvs3.Model.Listing
import Pgvs3.Library.Paging

/-! # One page of a listing

A page takes rows while their entries fit. The row that does not fit ends the page, and
the cursor stands on it. -/

namespace Pgvs3

open Library

/-- What a key contributes to a listing. -/
inductive Entry where
  | object (key : Text)
  | common (cp : Text)
  deriving DecidableEq, Repr

/-- The entry of a key that can be cut at the prefix. -/
def entryOf (start delimiter key : Text) : Option Entry :=
  (dropBytes (utf8 start).length key).map fun rest =>
    match commonPrefix start delimiter rest with
    | some cp => .common cp
    | none => .object key

section Page

variable {start delimiter : Text} {max : ℕ}

/-- The entry of a row, or an object when its key cannot be cut. -/
def Listed.entry (start delimiter : Text) (r : Listed) : Entry :=
  (entryOf start delimiter r.key).getD (.object r.key)

theorem Listed.entry_object {r : Listed} {key : Text}
    (h : r.entry start delimiter = .object key) : r.key = key := by
  unfold entry entryOf at h
  cases hdrop : dropBytes (utf8 start).length r.key with
  | none => simpa [hdrop] using h
  | some rest =>
      cases hcp : commonPrefix start delimiter rest with
      | none => simpa [hdrop, hcp] using h
      | some cp => simp [hdrop, hcp] at h

def ListPage.shows (page : ListPage) : Entry → Prop
  | .object key => ∃ r ∈ page.contents, r.key = key
  | .common cp => cp ∈ page.common

/-- A page under construction, with its distinct entries. -/
structure Collects (page : ListPage) (entries : List Entry) : Prop where
  count_eq : page.count = entries.length
  seen_iff : ∀ cp, cp ∈ page.seen ↔ .common cp ∈ entries
  shows_iff : ∀ e, page.shows e ↔ e ∈ entries

theorem collects_nil : Collects ⟨[], [], []⟩ [] where
  count_eq := rfl
  seen_iff := by simp
  shows_iff := by
    intro e
    cases e <;> simp [ListPage.shows]

/-- Every row moves the cursor to its key. It is rolled up into an entry of the page, or it
is a new entry, or the page is full. -/
theorem listingStep_spec {r : Listed} {page : ListPage} {entries : List Entry}
    (hpage : Collects page entries) (hcut : entryOf start delimiter r.key ≠ none)
    (hnew : .object r.key ∉ entries) :
    if r.entry start delimiter ∈ entries then
      listingStep r start delimiter max page = some (page, r.key, false)
    else if entries.length < max then
      ∃ page', listingStep r start delimiter max page = some (page', r.key, false) ∧
        Collects page' (r.entry start delimiter :: entries)
    else
      ∃ page', listingStep r start delimiter max page = some (page', r.key, true) ∧
        page'.shows = page.shows := by
  unfold listingStep Listed.entry
  unfold entryOf at hcut ⊢
  cases hdrop : dropBytes (utf8 start).length r.key with
  | none => simp [hdrop] at hcut
  | some rest =>
      simp only [Option.map_some, Option.getD_some]
      have hcount := hpage.count_eq
      cases hcp : commonPrefix start delimiter rest with
      | none =>
          simp only [hnew, if_false]
          by_cases hfull : entries.length < max
          · rw [if_pos hfull, if_neg (by omega)]
            refine ⟨_, rfl, ?_, ?_, ?_⟩
            · simp only [ListPage.count, List.length_append, List.length_cons,
                List.length_nil] at hcount ⊢
              omega
            · simpa using hpage.seen_iff
            · intro e
              rw [List.mem_cons, ← hpage.shows_iff]
              cases e with
              | common cp => simp [ListPage.shows]
              | object key =>
                  simp only [ListPage.shows, List.mem_append, List.mem_singleton, or_and_right,
                    exists_or, exists_eq_left, Entry.object.injEq]
                  rw [or_comm, eq_comm]
          · rw [if_neg hfull, if_pos (by omega)]
            exact ⟨page, rfl, rfl⟩
      | some cp =>
          by_cases hseen : cp ∈ page.seen
          · simp only [(hpage.seen_iff cp).mp hseen, hseen, if_true]
          · simp only [mt (hpage.seen_iff cp).mpr hseen, hseen, if_false]
            by_cases hfull : entries.length < max
            · rw [if_pos hfull, if_neg (by simp only [ListPage.count] at hcount ⊢; omega)]
              refine ⟨_, rfl, ?_, ?_, ?_⟩
              · simp only [ListPage.count, List.length_append, List.length_cons,
                  List.length_nil] at hcount ⊢
                omega
              · intro cp'
                simp [hpage.seen_iff, or_comm]
              · intro e
                rw [List.mem_cons, ← hpage.shows_iff]
                cases e with
                | common cp' => simp [ListPage.shows, or_comm]
                | object key => simp [ListPage.shows]
            · rw [if_neg hfull, if_pos (by simp only [ListPage.count] at hcount ⊢; omega)]
              refine ⟨_, rfl, ?_⟩
              funext e
              cases e <;> rfl

theorem listingStep_panics {r : Listed} {page : ListPage}
    (hcut : entryOf start delimiter r.key = none) :
    listingStep r start delimiter max page = none := by
  unfold entryOf at hcut
  rw [Option.map_eq_none_iff] at hcut
  rw [listingStep, hcut]

/-- The cursor moves to the key of every row, listed or not. -/
theorem listingStep_cursor {r : Listed} {page page' : ListPage} {after : Text} {full : Bool}
    (h : listingStep r start delimiter max page = some (page', after, full)) : after = r.key := by
  unfold listingStep at h
  split at h
  · cases h
  · split at h
    · split at h
      · cases h
        rfl
      · dsimp only at h
        split at h <;> cases h <;> rfl
    · split at h <;> cases h <;> rfl

/-! ## The rows of a query -/

theorem listRows_append (xs ys : List Listed) (page : ListPage) (after : Text) :
    listRows start delimiter max (xs ++ ys) page after =
      match listRows start delimiter max xs page after with
      | some (page, after, false) => listRows start delimiter max ys page after
      | stop => stop := by
  induction xs generalizing page after with
  | nil => rfl
  | cons r xs ih =>
      rw [List.cons_append, listRows, listRows]
      rcases listingStep r start delimiter max page with _ | ⟨page', after', _ | _⟩
      · rfl
      · exact ih page' after'
      · rfl

/-- Where the loop stops: at the row on which the page is full, or at the end. -/
theorem listRows_stop {rows : List Listed} {page page' : ListPage} {after after' : Text}
    {full : Bool} (h : listRows start delimiter max rows page after = some (page', after', full)) :
    ∃ taken rest, rows = taken ++ rest ∧
      (∀ r ∈ taken, entryOf start delimiter r.key ≠ none) ∧
      after' = ((taken.getLast?).map (·.key)).getD after ∧ (full = false → rest = []) ∧
      (full = true → taken ≠ []) := by
  induction rows generalizing page after with
  | nil =>
      cases h
      exact ⟨[], [], rfl, by simp, rfl, fun _ => rfl, by simp⟩
  | cons r rows ih =>
      rw [listRows] at h
      cases hstep : listingStep r start delimiter max page with
      | none => simp [hstep] at h
      | some res =>
          obtain ⟨page₁, after₁, full₁⟩ := res
          obtain rfl := listingStep_cursor hstep
          have hcut : entryOf start delimiter r.key ≠ none := fun hnone => by
            rw [listingStep_panics hnone] at hstep
            cases hstep
          rw [hstep] at h
          cases full₁ with
          | true =>
              cases h
              exact ⟨[r], rows, rfl, by simpa using hcut, rfl, by simp, by simp⟩
          | false =>
              obtain ⟨taken, rest, rfl, hall, rfl, hend, -⟩ := ih h
              refine ⟨r :: taken, rest, rfl, ?_, ?_, hend, by simp⟩
              · simpa using ⟨hcut, hall⟩
              · cases taken with
                | nil => rfl
                | cons q taken => simp [List.getLast?_cons]

theorem listRows_dealt {rows : List Listed} {page : ListPage} {entries : List Entry} (after : Text)
    (hpage : Collects page entries) (hcut : ∀ r ∈ rows, entryOf start delimiter r.key ≠ none)
    (hnodup : (rows.map (·.key)).Nodup) (hnew : ∀ r ∈ rows, .object r.key ∉ entries) :
    (∃ page' after', listRows start delimiter max rows page after = some (page', after', false) ∧
      (∀ e, page'.shows e ↔ e ∈ entries ∨ ∃ r ∈ rows, r.entry start delimiter = e) ∧
      dealt (Listed.entry start delimiter) max entries rows = rows) ∨
    ∃ taken r rest page', rows = taken ++ r :: rest ∧
      listRows start delimiter max rows page after = some (page', r.key, true) ∧
      (∀ e, page'.shows e ↔ e ∈ entries ∨ ∃ r ∈ taken, r.entry start delimiter = e) ∧
      dealt (Listed.entry start delimiter) max entries rows =
        taken ++ dealt (Listed.entry start delimiter) max [] rest := by
  induction rows generalizing page entries after with
  | nil => exact .inl ⟨page, after, rfl, by simpa using hpage.shows_iff, rfl⟩
  | cons r rows ih =>
      have hnodup' := List.nodup_cons.mp hnodup
      have hcut' : ∀ q ∈ rows, entryOf start delimiter q.key ≠ none :=
        fun q hq => hcut q (List.mem_cons_of_mem _ hq)
      have hnew' : ∀ q ∈ rows, .object q.key ∉ entries :=
        fun q hq => hnew q (List.mem_cons_of_mem _ hq)
      have hstep := @listingStep_spec start delimiter max r page entries hpage
        (hcut r (by simp)) (hnew r (by simp))
      rw [listRows, dealt]
      by_cases hold : r.entry start delimiter ∈ entries
      · -- rolled up into an entry of the page
        rw [if_pos hold] at hstep ⊢
        rw [hstep]
        have hsame : ∀ (l : List Listed) e,
            (e ∈ entries ∨ ∃ q ∈ l, q.entry start delimiter = e) ↔
              (e ∈ entries ∨ ∃ q ∈ r :: l, q.entry start delimiter = e) := by
          intro l e
          simp only [List.mem_cons, exists_eq_or_imp]
          constructor
          · rintro (h | h)
            · exact .inl h
            · exact .inr (.inr h)
          · rintro (h | rfl | h)
            · exact .inl h
            · exact .inl hold
            · exact .inr h
        rcases ih r.key hpage hcut' hnodup'.2 hnew' with
          ⟨page', after', hrun, hshows, hdealt⟩ | ⟨taken, f, rest, page', rfl, hrun, hshows, hdealt⟩
        · exact .inl ⟨page', after', hrun, fun e => (hshows e).trans (hsame _ e), by rw [hdealt]⟩
        · exact .inr ⟨r :: taken, f, rest, page', rfl, hrun,
            fun e => (hshows e).trans (hsame _ e), by rw [hdealt, List.cons_append]⟩
      · rw [if_neg hold] at hstep ⊢
        by_cases hfits : entries.length < max
        · -- a new entry
          rw [if_pos hfits] at hstep ⊢
          obtain ⟨page₁, hstep, hpage₁⟩ := hstep
          rw [hstep]
          have hnew₁ : ∀ q ∈ rows, .object q.key ∉ r.entry start delimiter :: entries := by
            intro q hq hmem
            rcases List.mem_cons.mp hmem with heq | hmem
            · exact hnodup'.1 (List.mem_map.mpr ⟨q, hq, (Listed.entry_object heq.symm).symm⟩)
            · exact hnew' q hq hmem
          have hsame : ∀ (l : List Listed) e,
              (e ∈ r.entry start delimiter :: entries ∨ ∃ q ∈ l, q.entry start delimiter = e) ↔
                (e ∈ entries ∨ ∃ q ∈ r :: l, q.entry start delimiter = e) := by
            intro l e
            simp only [List.mem_cons, exists_eq_or_imp, eq_comm (a := e)]
            tauto
          rcases ih r.key hpage₁ hcut' hnodup'.2 hnew₁ with
            ⟨page', after', hrun, hshows, hdealt⟩ |
              ⟨taken, f, rest, page', rfl, hrun, hshows, hdealt⟩
          · exact .inl ⟨page', after', hrun, fun e => (hshows e).trans (hsame _ e), by rw [hdealt]⟩
          · exact .inr ⟨r :: taken, f, rest, page', rfl, hrun,
              fun e => (hshows e).trans (hsame _ e), by rw [hdealt, List.cons_append]⟩
        · -- the page is full
          rw [if_neg hfits] at hstep ⊢
          obtain ⟨page₁, hstep, hshows⟩ := hstep
          rw [hstep]
          refine .inr ⟨[], r, rows, page₁, rfl, rfl, fun e => ?_, rfl⟩
          rw [hshows, hpage.shows_iff]
          simp

end Page

end Pgvs3
