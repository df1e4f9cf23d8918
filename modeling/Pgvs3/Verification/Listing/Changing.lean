import Pgvs3.Verification.Listing.Lossless
import Pgvs3.Verification.Listing.Distinct

/-! # Listing a bucket that changes

A key that is there at every query of a traversal is run over by one of them. The page shows
its entry, or ends on it. -/

namespace Pgvs3

open Library

variable {start delimiter bucket : Text} {max : ℕ} {page page' : ListPage} {after after' : Text}
  {full : Bool}

/-! ## The rows of one query -/

theorem Ascends.mem_or_beyond {xs ys : List Listed} (h : Ascends after (xs ++ ys)) {r : Listed}
    (hr : r ∈ xs ++ ys) : r ∈ xs ∨ utf8 (lastKey after xs) < utf8 r.key := by
  rcases List.mem_append.mp hr with hxs | hys
  · exact .inl hxs
  · right
    induction xs using List.reverseRecOn with
    | nil => exact h.1 r hr
    | append_singleton xs q _ =>
        rw [lastKey_concat]
        exact (List.pairwise_append.mp h.2).2.2 q (by simp) r hys

/-- The keys that a listing of the bucket selects from `after` on. -/
structure Selects (start after key : Text) : Prop where
  begins : start <+: key
  bounded : utf8 key < utf8 (prefixEnd start)
  behind : utf8 after < utf8 key

def HasKey (bucket key : Text) (db : Db) : Prop :=
  ∃ o ∈ db.objects, o.bucket = bucket ∧ o.key = key

theorem HasKey.mem_list {db : Db} {key : Text} {limit : ℕ} (h : HasKey bucket key db)
    (hkey : Selects start after key) :
    (∃ r ∈ list db bucket start (prefixEnd start) after limit, r.key = key) ∨
      (list db bucket start (prefixEnd start) after limit).length = limit ∧
        utf8 (lastKey after (list db bucket start (prefixEnd start) after limit)) < utf8 key := by
  obtain ⟨o, ho, hbucket, rfl⟩ := h
  set rows := selectKeys db bucket start (prefixEnd start) after with hrows
  have hmem : o.listed ∈ rows.take limit ++ rows.drop limit := by
    rw [List.take_append_drop, hrows]
    exact mem_selectKeys.mpr ⟨o, ho, hbucket, utf8_le_iff.mpr (le_of_isPrefix hkey.begins),
      hkey.bounded, hkey.behind, rfl⟩
  have hasc : Ascends after (rows.take limit ++ rows.drop limit) := by
    have hwhole := @ascends_list after db bucket start (prefixEnd start) rows.length
    rwa [list, ← hrows, List.take_length, ← List.take_append_drop limit rows] at hwhole
  rcases hasc.mem_or_beyond hmem with htake | hbeyond
  · exact .inl ⟨o.listed, htake, rfl⟩
  · by_cases hlong : limit ≤ rows.length
    · exact .inr ⟨by rw [list, ← hrows, List.length_take]; omega, hbeyond⟩
    · rw [List.drop_eq_nil_of_le (by omega), List.append_nil] at hmem
      exact .inl ⟨o.listed, hmem, rfl⟩

/-! ## What a page shows of the rows -/

/-- Until a page is full it shows all common prefixes that it has seen. -/
def ListPage.Open (page : ListPage) : Prop := ∀ cp ∈ page.seen, cp ∈ page.common

/-- Everything on a page is there for a row with some property. -/
structure ListPage.From (P : Listed → Prop) (start delimiter : Text) (page : ListPage) : Prop where
  contents : ∀ r ∈ page.contents, P r
  common : ∀ cp ∈ page.common, ∃ r, P r ∧ r.entry start delimiter = .common cp

section From

variable {P : Listed → Prop}

theorem ListPage.From.step {r : Listed} (h : page.From P start delimiter) (hr : P r)
    (hstep : listingStep r start delimiter max page = some (page', after, full)) :
    page'.From P start delimiter := by
  have hentry : ∀ rest cp, dropBytes (utf8 start).length r.key = some rest →
      commonPrefix start delimiter rest = some cp → r.entry start delimiter = .common cp := by
    intro rest cp hdrop hcp
    simp [Listed.entry, entryOf, hdrop, hcp]
  unfold listingStep at hstep
  split at hstep
  · cases hstep
  · rename_i rest hdrop
    split at hstep
    · rename_i cp hcp
      split at hstep
      · cases hstep
        exact h
      · dsimp only at hstep
        split at hstep
        · cases hstep
          exact ⟨h.contents, h.common⟩
        · cases hstep
          refine ⟨h.contents, fun cp' hcp' => ?_⟩
          rcases List.mem_append.mp hcp' with hold | hnew
          · exact h.common cp' hold
          · rw [List.mem_singleton.mp hnew]
            exact ⟨r, hr, hentry rest cp hdrop hcp⟩
    · split at hstep
      · cases hstep
        exact h
      · cases hstep
        refine ⟨fun q hq => ?_, h.common⟩
        rcases List.mem_append.mp hq with hold | hnew
        · exact h.contents q hold
        · rw [List.mem_singleton.mp hnew]
          exact hr

theorem ListPage.From.rows {rows : List Listed} (h : page.From P start delimiter)
    (hall : ∀ r ∈ rows, P r)
    (hrun : listRows start delimiter max rows page after = some (page', after', full)) :
    page'.From P start delimiter := by
  induction rows generalizing page after with
  | nil =>
      cases hrun
      exact h
  | cons r rows ih =>
      rw [listRows] at hrun
      cases hstep : listingStep r start delimiter max page with
      | none => simp [hstep] at hrun
      | some res =>
          obtain ⟨page₁, after₁, full₁⟩ := res
          have hnext := h.step (hall r (by simp)) hstep
          rw [hstep] at hrun
          cases full₁ with
          | true =>
              cases hrun
              exact hnext
          | false => exact ih hnext (fun q hq => hall q (List.mem_cons_of_mem r hq)) hrun

theorem ListPage.From.loop {dbs : List Db} (h : page.From P start delimiter)
    (hall : ∀ db ∈ dbs, ∀ o ∈ db.objects, o.bucket = bucket → P o.listed)
    (hrun : listLoop bucket start delimiter max dbs page after = some (page', after', full)) :
    page'.From P start delimiter := by
  induction dbs generalizing page after with
  | nil => cases hrun
  | cons db dbs ih =>
      rw [listLoop] at hrun
      split at hrun
      · cases hrun
        exact h
      · cases hone : listRows start delimiter max
          (list db bucket start (prefixEnd start) after listBatch) page after with
        | none => simp [hone] at hrun
        | some res =>
            obtain ⟨page₁, after₁, full₁⟩ := res
            have hnext := h.rows (fun r hr => by
              obtain ⟨o, ho, hbucket, -, -, -, rfl⟩ := mem_selectKeys.mp (List.mem_of_mem_take hr)
              exact hall db (by simp) o ho hbucket) hone
            rw [hone] at hrun
            cases full₁ with
            | true =>
                cases hrun
                exact hnext
            | false =>
                dsimp only at hrun
                split at hrun
                · cases hrun
                  exact hnext
                · exact ih hnext (fun d hd => hall d (List.mem_cons_of_mem db hd)) hrun

end From

/-! ## All pages -/

/-- An answer shows a key, itself or under its common prefix. -/
def ListOutput.Lists (out : ListOutput) (key : Text) : Prop :=
  out.shows (.object key) ∨ ∃ cp, out.shows (.common cp) ∧ cp <+: key

section Pages

variable {input : ListInput} {dbs : List Db} {checked : Db} {out : ListOutput}

end Pages

/-! ### A key that stays -/

end Pgvs3
