import Mathlib.Data.List.Basic
import Mathlib.Tactic

/-! # Cutting lists into blocks

Half-open slices of a list, and the blocks of a fixed width that a list is cut into.
The last block is shorter when the width does not divide the length. -/

namespace Library

variable {α : Type*}

/-! ## Slices -/

/-- `l` from index `i` up to and without index `j`. -/
def sliceOf (l : List α) (i j : ℕ) : List α := (l.take j).drop i

@[simp] theorem length_sliceOf (l : List α) (i j : ℕ) :
    (sliceOf l i j).length = min j l.length - i := by
  simp [sliceOf]

theorem sliceOf_eq_nil {l : List α} {i j : ℕ} (h : min j l.length ≤ i) : sliceOf l i j = [] :=
  List.length_eq_zero_iff.mp (by rw [length_sliceOf]; omega)

@[simp] theorem sliceOf_nil (i j : ℕ) : sliceOf ([] : List α) i j = [] := by
  simp [sliceOf]

theorem sliceOf_full {l : List α} {j : ℕ} (h : l.length ≤ j) : sliceOf l 0 j = l := by
  simp [sliceOf, List.take_of_length_le h]

theorem sliceOf_replicate (n : ℕ) (x : α) (i j : ℕ) :
    sliceOf (List.replicate n x) i j = List.replicate (min j n - i) x := by
  rw [sliceOf, List.take_replicate, List.drop_replicate]

@[simp] theorem sliceOf_min_length (l : List α) (i j : ℕ) :
    sliceOf l i (min j l.length) = sliceOf l i j := by
  simp only [sliceOf]
  rcases Nat.le_total j l.length with h | h
  · rw [Nat.min_eq_left h]
  · rw [Nat.min_eq_right h, List.take_of_length_le h, List.take_length]

/-- Only the part of a bound inside the list matters. -/
theorem sliceOf_congr {l : List α} {i j k : ℕ} (h : min j l.length = min k l.length) :
    sliceOf l i j = sliceOf l i k := by
  rw [← sliceOf_min_length, h, sliceOf_min_length]

theorem sliceOf_append (x y : List α) (i j : ℕ) :
    sliceOf (x ++ y) i j = sliceOf x i j ++ sliceOf y (i - x.length) (j - x.length) := by
  simp only [sliceOf, List.take_append, List.drop_append, List.length_take]
  rcases Nat.le_total j x.length with h | h
  · have hz : j - x.length = 0 := by omega
    simp [hz]
  · rw [Nat.min_eq_right h]

theorem sliceOf_join (l : List α) {i j k : ℕ} (hij : i ≤ j) (hjk : j ≤ k) :
    sliceOf l i j ++ sliceOf l j k = sliceOf l i k := by
  have hsplit : l.take k = l.take j ++ (l.take k).drop j := by
    conv_lhs => rw [← List.take_append_drop j (l.take k)]
    rw [List.take_take, Nat.min_eq_left hjk]
  simp only [sliceOf]
  conv_rhs => rw [hsplit, List.drop_append]
  rcases Nat.le_total j l.length with h | h
  · have hz : i - (l.take j).length = 0 := by
      rw [List.length_take, Nat.min_eq_left h]
      omega
    rw [hz, List.drop_zero]
  · have hnil : (l.take k).drop j = [] := by
      apply List.drop_eq_nil_of_le
      rw [List.length_take]
      omega
    rw [hnil]
    simp

theorem sliceOf_sliceOf (l : List α) (a b i j : ℕ) :
    sliceOf (sliceOf l a b) i j = sliceOf l (a + i) (min b (a + j)) := by
  simp only [sliceOf, List.take_drop, List.drop_drop, List.take_take]
  congr 2
  · omega

/-! ## Blocks -/

def blockCount (width n : ℕ) : ℕ := (n + width - 1) / width

def block (width : ℕ) (l : List α) (i : ℕ) : List α := sliceOf l (i * width) ((i + 1) * width)

variable {width : ℕ}

theorem lt_blockCount_iff (hw : 0 < width) {n i : ℕ} :
    i < blockCount width n ↔ i * width < n := by
  rw [blockCount, ← Nat.succ_le_iff, Nat.le_div_iff_mul_le hw, Nat.succ_mul]
  omega

@[simp] theorem blockCount_zero (hw : 0 < width) : blockCount width 0 = 0 := by
  by_contra h
  have hpos : 0 < blockCount width 0 := Nat.pos_of_ne_zero h
  exact absurd ((lt_blockCount_iff hw).mp hpos) (by simp)

theorem blockCount_mul_add (hw : 0 < width) (k n : ℕ) :
    blockCount width (k * width + n) = k + blockCount width n := by
  have hsum : k * width + n + width - 1 = n + width - 1 + k * width := by omega
  rw [blockCount, blockCount, hsum, Nat.add_mul_div_right _ _ hw, Nat.add_comm]

/-- The indices below `n` between `lo` and `hi` are consecutive. -/
theorem filter_range_Icc {lo hi n : ℕ} (hle : lo ≤ hi) (hlt : hi < n) :
    (List.range n).filter (fun i => lo ≤ i ∧ i ≤ hi) = (List.range (hi + 1 - lo)).map (lo + ·) := by
  have hn : n = lo + (hi + 1 - lo) + (n - (hi + 1)) := by omega
  have hbefore : (List.range lo).filter (fun i => lo ≤ i ∧ i ≤ hi) = [] := by
    simp only [List.filter_eq_nil_iff, List.mem_range, decide_eq_true_eq]
    omega
  have hinside : ((List.range (hi + 1 - lo)).map (lo + ·)).filter (fun i => lo ≤ i ∧ i ≤ hi) =
      (List.range (hi + 1 - lo)).map (lo + ·) := by
    simp only [List.filter_eq_self, List.mem_map, List.mem_range, decide_eq_true_eq]
    omega
  have hafter : ((List.range (n - (hi + 1))).map (lo + (hi + 1 - lo) + ·)).filter
      (fun i => lo ≤ i ∧ i ≤ hi) = [] := by
    simp only [List.filter_eq_nil_iff, List.mem_map, List.mem_range, decide_eq_true_eq]
    omega
  rw [hn, List.range_add, List.range_add, List.filter_append, List.filter_append, hbefore,
    hinside, hafter, List.nil_append, List.append_nil]

theorem length_block (l : List α) (i : ℕ) :
    (block width l i).length = min width (l.length - i * width) := by
  rw [block, length_sliceOf, Nat.succ_mul]
  omega

theorem length_block_le (l : List α) (i : ℕ) : (block width l i).length ≤ width := by
  rw [length_block]
  exact Nat.min_le_left _ _

theorem length_block_of_lt (hw : 0 < width) {l : List α} {i : ℕ}
    (h : i + 1 < blockCount width l.length) : (block width l i).length = width := by
  have hlt := (lt_blockCount_iff hw).mp h
  rw [Nat.succ_mul] at hlt
  rw [length_block]
  omega

theorem length_block_pos (hw : 0 < width) {l : List α} {i : ℕ}
    (h : i < blockCount width l.length) : 0 < (block width l i).length := by
  have hlt := (lt_blockCount_iff hw).mp h
  rw [length_block]
  omega

/-- Blocks of `x ++ y` where `x` is a whole number of blocks. -/
theorem block_append_left {x y : List α} {i : ℕ} (h : (i + 1) * width ≤ x.length) :
    block width (x ++ y) i = block width x i := by
  rw [block, sliceOf_append]
  have hz : (i + 1) * width - x.length = 0 := by omega
  rw [hz, sliceOf_eq_nil (l := y) (by simp), List.append_nil, block]

theorem block_append_right {x y : List α} {k i : ℕ} (hx : x.length = k * width) :
    block width (x ++ y) (k + i) = block width y i := by
  have hlow : (k + i) * width - x.length = i * width := by
    rw [hx, Nat.add_mul, Nat.add_sub_cancel_left]
  have hhigh : (k + i + 1) * width - x.length = (i + 1) * width := by
    rw [hx, Nat.add_assoc, Nat.add_mul, Nat.add_sub_cancel_left]
  have hnil : sliceOf x ((k + i) * width) ((k + i + 1) * width) = [] := by
    apply sliceOf_eq_nil
    refine Nat.le_trans (Nat.min_le_right _ _) ?_
    rw [hx, Nat.add_mul]
    exact Nat.le_add_right _ _
  rw [block, sliceOf_append, hlow, hhigh, hnil, List.nil_append, block]

/-- The parts of consecutive blocks inside `[a, b)` join to that slice. -/
theorem flatMap_block_slices (hw : 0 < width) (l : List α) {a b : ℕ} (n : ℕ)
    (first : ℕ) (ha : first * width ≤ a) (ha' : a ≤ (first + 1) * width) :
    ((List.range n).flatMap fun i =>
        sliceOf l (max a ((first + i) * width)) (min b ((first + i + 1) * width))) =
      sliceOf l a (min b (max a ((first + n) * width))) := by
  induction n with
  | zero =>
      have hle : min b (max a ((first + 0) * width)) ≤ a := by
        rw [Nat.add_zero, Nat.max_eq_left ha]
        exact Nat.min_le_right _ _
      simp only [List.range_zero, List.flatMap_nil]
      exact (sliceOf_eq_nil (by omega)).symm
  | succ n ih =>
      rw [List.range_succ, List.flatMap_append, ih]
      simp only [List.flatMap_cons, List.flatMap_nil, List.append_nil]
      have hstep : (first + (n + 1)) * width = (first + n) * width + width := by
        rw [← Nat.add_assoc, Nat.succ_mul]
      have hnext : (first + n + 1) * width = (first + n) * width + width := Nat.succ_mul _ _
      have hlow : (first + n) * width ≥ first * width := Nat.mul_le_mul_right _ (by omega)
      have hfirst : (first + 1) * width = first * width + width := Nat.succ_mul _ _
      rw [hstep, hnext]
      generalize hp : (first + n) * width = p at *
      rcases Nat.lt_or_ge b (max a p) with hb | hb
      · -- the slice ends before this block, which contributes nothing
        rw [Nat.min_eq_left (by omega), sliceOf_eq_nil (i := max a p) (by omega),
          List.append_nil, Nat.min_eq_left (by omega)]
      · rw [Nat.min_eq_right hb, sliceOf_join l (by omega) (by omega)]
        congr 1
        omega

/-- The blocks of a list join to it. -/
theorem flatMap_block (hw : 0 < width) (l : List α) :
    (List.range (blockCount width l.length)).flatMap (block width l) = l := by
  have h := flatMap_block_slices hw l (a := 0) (b := l.length) (blockCount width l.length) 0
    (by simp) (by simp)
  have hcover : l.length ≤ blockCount width l.length * width := by
    by_contra hlt
    exact lt_irrefl _ ((lt_blockCount_iff hw).mpr (not_le.mp hlt))
  simp only [Nat.zero_add, Nat.zero_max] at h
  rw [Nat.min_eq_left hcover, sliceOf_full le_rfl] at h
  conv_rhs => rw [← h]
  apply List.flatMap_congr
  intro i _
  rw [Nat.min_comm, sliceOf_min_length, block]

end Library
