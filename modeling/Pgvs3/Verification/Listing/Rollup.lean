import Pgvs3.Verification.Listing.Page
import Pgvs3.Verification.Listing.PrefixBound

/-! # Keys that roll up to one common prefix

The delimiter is found at its first occurrence behind the prefix, so a key that begins with a
common prefix has that common prefix. -/

namespace Pgvs3

open Library

/-! ## The first delimiter -/

theorem findText_le {pattern s : Text} {i : ℕ} (h : findText pattern s = some i) :
    i + pattern.length ≤ s.length := by
  induction s generalizing i with
  | nil =>
      unfold findText at h
      split at h
      · rename_i hnil
        cases h
        simp [hnil]
      · cases h
  | cons c s ih =>
      rw [findText] at h
      split at h
      · rename_i hfound
        cases h
        simpa using hfound.length_le
      · rw [Option.map_eq_some_iff] at h
        obtain ⟨j, hj, rfl⟩ := h
        have := ih hj
        rw [List.length_cons]
        omega

theorem findText_of_isPrefix {pattern s t : Text} {i : ℕ} (h : findText pattern s = some i)
    (hpre : s.take (i + pattern.length) <+: t) : findText pattern t = some i := by
  induction s generalizing t i with
  | nil =>
      unfold findText at h
      split at h
      · rename_i hnil
        cases h
        subst hnil
        cases t <;> simp [findText]
      · cases h
  | cons c s ih =>
      rw [findText] at h
      split at h
      · rename_i hfound
        cases h
        rw [Nat.zero_add, ← List.prefix_iff_eq_take.mp hfound] at hpre
        cases t with
        | nil =>
            rw [List.prefix_nil] at hpre
            simp [findText, hpre]
        | cons d t => rw [findText, if_pos hpre]
      · rename_i hmiss
        rw [Option.map_eq_some_iff] at h
        obtain ⟨j, hj, rfl⟩ := h
        rw [Nat.add_right_comm, List.take_succ_cons] at hpre
        cases t with
        | nil => simp at hpre
        | cons d t =>
            obtain ⟨rfl, hpre'⟩ := List.cons_prefix_cons.mp hpre
            have hmiss' : ¬ pattern <+: c :: t := by
              intro hfound
              refine hmiss (List.IsPrefix.trans ?_ (List.take_prefix (j + pattern.length + 1) _))
              rw [List.take_succ_cons]
              refine List.prefix_of_prefix_length_le hfound hpre ?_
              have := findText_le hj
              simp only [List.length_cons, List.length_take]
              omega
            rw [findText, if_neg hmiss', ih hj hpre']
            rfl

/-! ## Common prefixes -/

section Rollup

variable {start delimiter rest rest' cp : Text}

theorem commonPrefix_isPrefix (h : commonPrefix start delimiter rest = some cp) :
    cp <+: start ++ rest := by
  unfold commonPrefix at h
  split at h
  · cases h
  · rw [Option.map_eq_some_iff] at h
    obtain ⟨i, -, rfl⟩ := h
    exact (List.prefix_append_right_inj start).mpr (List.take_prefix _ _)

theorem commonPrefix_of_isPrefix (h : commonPrefix start delimiter rest = some cp)
    (hpre : cp <+: start ++ rest') : commonPrefix start delimiter rest' = some cp := by
  unfold commonPrefix at h ⊢
  split at h
  · cases h
  · rename_i hne
    rw [if_neg hne]
    rw [Option.map_eq_some_iff] at h
    obtain ⟨i, hi, rfl⟩ := h
    rw [List.prefix_append_right_inj] at hpre
    rw [findText_of_isPrefix hi hpre, Option.map_some]
    have hlen : (rest.take (i + delimiter.length)).length = i + delimiter.length := by
      rw [List.length_take]
      exact min_eq_left (findText_le hi)
    have htake := List.prefix_iff_eq_take.mp hpre
    rw [hlen] at htake
    rw [htake]

variable {q r : Listed}

theorem Listed.entry_append (h : start ++ rest = r.key) : r.entry start delimiter =
    match commonPrefix start delimiter rest with
    | some cp => .common cp
    | none => .object r.key := by
  rw [entry, entryOf, ← h, dropBytes_append]
  rfl

theorem Listed.exists_of_entry_common (h : q.entry start delimiter = .common cp) :
    ∃ rest, commonPrefix start delimiter rest = some cp := by
  unfold entry entryOf at h
  cases hdrop : dropBytes (utf8 start).length q.key with
  | none => simp [hdrop] at h
  | some rest =>
      cases hcp : commonPrefix start delimiter rest with
      | none => simp [hdrop, hcp] at h
      | some cp' =>
          simp only [hdrop, hcp, Option.map_some, Option.getD_some, Entry.common.injEq] at h
          exact ⟨rest, h ▸ hcp⟩

theorem Listed.isPrefix_of_entry_common (hr : start <+: r.key)
    (h : r.entry start delimiter = .common cp) : cp <+: r.key := by
  obtain ⟨rest, hrest⟩ := hr
  rw [entry_append hrest] at h
  cases hcp : commonPrefix start delimiter rest with
  | none => simp [hcp] at h
  | some cp' =>
      simp only [hcp, Entry.common.injEq] at h
      exact hrest ▸ h ▸ commonPrefix_isPrefix hcp

/-- A key that begins with a common prefix rolls up to it. -/
theorem Listed.entry_of_isPrefix (hr : start <+: r.key)
    (hq : q.entry start delimiter = .common cp) (hpre : cp <+: r.key) :
    r.entry start delimiter = .common cp := by
  obtain ⟨rest, hrest⟩ := hr
  obtain ⟨rest', hcp⟩ := exists_of_entry_common hq
  rw [entry_append hrest, commonPrefix_of_isPrefix hcp (hrest ▸ hpre)]

end Rollup

def onlyB : Table BucketRow.name := ⟨[⟨['b'], 0⟩], List.nodup_singleton _⟩

end Pgvs3
