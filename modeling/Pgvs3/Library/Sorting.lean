import Mathlib.Data.List.Sort
import Mathlib.Order.Basic
import Mathlib.Tactic

/-! # Sorting by a key

Insertion sort on the key of an entry, as `ORDER BY` and `sort_by_key` do. -/

namespace Library

variable {α κ : Type*} [LinearOrder κ] {key : α → κ} {l m : List α}

def sortByKey (key : α → κ) (l : List α) : List α :=
  l.insertionSort (fun a b => key a ≤ key b)

theorem sortByKey_perm : (sortByKey key l).Perm l := List.perm_insertionSort _ l

@[simp] theorem mem_sortByKey {a : α} : a ∈ sortByKey key l ↔ a ∈ l :=
  sortByKey_perm.mem_iff

@[simp] theorem length_sortByKey : (sortByKey key l).length = l.length :=
  sortByKey_perm.length_eq

@[simp] theorem sortByKey_eq_nil : sortByKey key l = [] ↔ l = [] := by
  rw [← List.length_eq_zero_iff, length_sortByKey, List.length_eq_zero_iff]

theorem pairwise_sortByKey : (sortByKey key l).Pairwise (fun a b => key a ≤ key b) := by
  have : Std.Total (fun a b : α => key a ≤ key b) := ⟨fun a b => le_total (key a) (key b)⟩
  have : IsTrans α (fun a b => key a ≤ key b) := ⟨fun _ _ _ => le_trans⟩
  exact List.pairwise_insertionSort _ l

theorem pairwise_lt_sortByKey (h : (l.map key).Nodup) :
    (sortByKey key l).Pairwise (fun a b => key a < key b) := by
  have hnodup : ((sortByKey key l).map key).Nodup :=
    (sortByKey_perm.map key).nodup_iff.mpr h
  have hne : (sortByKey key l).Pairwise (fun a b => key a ≠ key b) := by
    simpa [List.Nodup, List.pairwise_map] using hnodup
  exact (pairwise_sortByKey.and hne).imp fun hab => lt_of_le_of_ne hab.1 hab.2

/-- A strictly increasing list is the sorted form of all its permutations. -/
theorem sortByKey_eq_of_perm (hp : l.Perm m) (hm : m.Pairwise (fun a b => key a < key b)) :
    sortByKey key l = m := by
  have hle : m.Pairwise (fun a b => key a ≤ key b) := hm.imp le_of_lt
  have hnodup : (m.map key).Nodup := by
    rw [List.Nodup, List.pairwise_map]
    exact hm.imp ne_of_lt
  refine List.Perm.eq_of_pairwise ?_ pairwise_sortByKey hle (sortByKey_perm.trans hp)
  intro a b ha hb hab hba
  have ha' : a ∈ m := hp.mem_iff.mp (mem_sortByKey.mp ha)
  exact List.inj_on_of_nodup_map hnodup ha' hb (le_antisymm hab hba)

theorem sortByKey_congr (h : (m.map key).Nodup) (hp : l.Perm m) :
    sortByKey key l = sortByKey key m :=
  sortByKey_eq_of_perm (hp.trans sortByKey_perm.symm) (pairwise_lt_sortByKey h)

end Library
