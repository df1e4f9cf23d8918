import Pgvs3.Verification.Ingest.Framing
import Pgvs3.Verification.Read.Span

/-! # The plan covers the range

The segments of an object lie one after another. The rows of the pieces planned for a
segment carry exactly its bytes in the range, as long as their numbers fit 32 bits. -/

namespace Pgvs3

open Library

/-! ## Layout of an object -/

/-- Segments of consecutive files from offset `base`, each as long as its body. -/
def layout (written : ℤ → Bytes) : ℤ → List ℤ → List (ℤ × ℤ × ℤ)
  | _, [] => []
  | base, f :: fs => (f, base, ↑(written f).length) ::
      layout written (base + (written f).length) fs

/-- `m` is the metadata of an object whose bytes are those of `files`, in order. -/
structure Meta.Describes (m : Meta) (written : ℤ → Bytes) (files : List ℤ) : Prop where
  segments_eq : m.segments = layout written 0 files
  size_eq : m.size = (files.flatMap written).length

def FewRows (body : Bytes) : Prop := blockCount rowBytes body.length < 2 ^ 31

instance : DecidablePred FewRows := fun _ => inferInstanceAs (Decidable (_ < _))

theorem FewRows.length_le_pred {body : Bytes} (h : FewRows body) :
    body.length ≤ (2 ^ 31 - 1) * rowBytes := by
  by_contra hlt
  have hmore := (lt_blockCount_iff rowBytes_pos).mpr (not_le.mp hlt)
  exact absurd h (not_lt.mpr (by omega))

theorem FewRows.length_le {body : Bytes} (h : FewRows body) :
    body.length ≤ 2 ^ 31 * rowBytes :=
  h.length_le_pred.trans (Nat.mul_le_mul_right _ (by norm_num))

/-- A body whose row numbers are distinct in 32 bits. -/
def DistinctRows (body : Bytes) : Prop := blockCount rowBytes body.length ≤ 2 ^ 32

theorem FewRows.distinct {body : Bytes} (h : FewRows body) : DistinctRows body :=
  le_of_lt (lt_trans h (by norm_num))

/-! ## Rows of a piece -/

/-- Rows `a` to `a + n - 1` of a body. -/
def rowsBetween (fileId : ℤ) (body : Bytes) (a n : ℕ) : List ChunkRow :=
  (List.range n).map fun (i : ℕ) => ⟨fileId, ↑(a + i), block rowBytes body (a + i)⟩

@[simp] theorem length_rowsBetween (fileId : ℤ) (body : Bytes) (a n : ℕ) :
    (rowsBetween fileId body a n).length = n := by
  simp [rowsBetween]

theorem mem_rowsBetween {fileId : ℤ} {body : Bytes} {a n : ℕ} {r : ChunkRow} :
    r ∈ rowsBetween fileId body a n ↔
      ∃ i, a ≤ i ∧ i < a + n ∧ r = ⟨fileId, ↑i, block rowBytes body i⟩ := by
  simp only [rowsBetween, List.mem_map, List.mem_range]
  constructor
  · rintro ⟨i, hi, rfl⟩
    exact ⟨a + i, by omega, by omega, rfl⟩
  · rintro ⟨i, hlo, hhi, rfl⟩
    refine ⟨i - a, by omega, ?_⟩
    rw [Nat.add_sub_cancel' hlo]

theorem sliceOf_rowsBetween (fileId : ℤ) (body : Bytes) (a n i j : ℕ) :
    sliceOf (rowsBetween fileId body a n) i j =
      rowsBetween fileId body (a + i) (min j n - i) := by
  apply List.ext_getElem
  · simp
  · intro k hk hk'
    simp [sliceOf, rowsBetween, Nat.add_assoc]

theorem nodup_rowsBetween (fileId : ℤ) (body : Bytes) (a n : ℕ) :
    ((rowsBetween fileId body a n).map (·.no)).Nodup := by
  rw [rowsBetween, List.map_map]
  refine List.Nodup.map ?_ List.nodup_range
  intro i j hij
  have : ((a + i : ℕ) : ℤ) = ((a + j : ℕ) : ℤ) := hij
  omega

/-- Consecutive rows are numbered one after another while 32 bits suffice. -/
theorem chain_rowsBetween (fileId : ℤ) (body : Bytes) {a n : ℕ} (h : a + n < 2 ^ 31) :
    Chain nextNo (·.no) ↑a (rowsBetween fileId body a n) ↑(a + n) := by
  induction n with
  | zero => simp [rowsBetween, Chain]
  | succ n ih =>
      have hsucc : nextNo ↑(a + n) = ↑(a + (n + 1)) := by
        rw [nextNo, asI32_of_lt (by omega) (by omega)]
        push_cast
        ring
      have hrows : rowsBetween fileId body a (n + 1) = rowsBetween fileId body a n ++
          [⟨fileId, ↑(a + n), block rowBytes body (a + n)⟩] := by
        simp [rowsBetween, List.range_succ]
      rw [hrows]
      exact (ih (by omega)).append ⟨rfl, hsucc.symm⟩

/-- The rows that a piece asks for, of the body written under its file. -/
def Piece.rows (written : ℤ → Bytes) (p : Piece) : List ChunkRow :=
  rowsBetween p.fileId (written p.fileId) p.lo.toNat (p.hi + 1 - p.lo).toNat

/-- A piece inside the rows of its file, with non-negative row numbers. -/
structure Piece.Inside (p : Piece) (written : ℤ → Bytes) : Prop where
  lo_nonneg : 0 ≤ p.lo
  lo_le_hi : p.lo ≤ p.hi
  hi_lt : p.hi < blockCount rowBytes (written p.fileId).length
  hi_small : p.hi < 2 ^ 31

theorem asI32_of_ge {i : ℤ} (h : 2 ^ 31 ≤ i) (h' : i < 2 ^ 32) : asI32 i = i - 2 ^ 32 := by
  unfold asI32
  rw [← Int.sub_bmod_right]
  exact Int.bmod_eq_of_le (by norm_num; omega) (by norm_num; omega)

theorem Piece.Inside.mem_rows {p : Piece} {written : ℤ → Bytes} (h : p.Inside written)
    (hdistinct : DistinctRows (written p.fileId)) {r : ChunkRow} :
    r ∈ p.rows written ↔
      r ∈ rowsOf p.fileId (written p.fileId) ∧ p.lo ≤ r.no ∧ r.no ≤ p.hi := by
  obtain ⟨hlo, hle, hhi, hsmall⟩ := h
  rw [Piece.rows, mem_rowsBetween, mem_rowsOf]
  constructor
  · rintro ⟨i, hi, hi', rfl⟩
    refine ⟨⟨i, by omega, ?_⟩, by dsimp only; omega, by dsimp only; omega⟩
    rw [asI32_of_lt (by omega) (by omega)]
  · rintro ⟨⟨i, hi, rfl⟩, hlo', hhi'⟩
    have hlt : i < 2 ^ 32 := hi.trans_le hdistinct
    rcases lt_or_ge i (2 ^ 31) with hsmall' | hbig
    · rw [asI32_of_lt (by omega) (by omega)] at hlo' hhi' ⊢
      exact ⟨i, by dsimp only at hlo'; omega, by dsimp only at hhi'; omega, rfl⟩
    · rw [asI32_of_ge (by omega) (by omega)] at hlo'
      dsimp only at hlo'
      omega

theorem Piece.slice_block (p : Piece) (start stop : ℤ) (f : ℤ) (body : Bytes) (i : ℕ) :
    p.slice start stop ⟨f, ↑i, block rowBytes body i⟩ =
      sliceOf body (max (start - p.base).toNat (i * rowBytes))
        (min (stop + 1 - p.base).toNat ((i + 1) * rowBytes)) := by
  have hlen := @length_block _ rowBytes body i
  have hsucc : (i + 1) * rowBytes = i * rowBytes + rowBytes := Nat.succ_mul _ _
  simp only [Piece.slice, rowSlice]
  rw [hlen]
  have hcast : ((i : ℤ)) * (rowBytes : ℤ) = ((i * rowBytes : ℕ) : ℤ) := by push_cast; rfl
  rw [hcast]
  split
  · rename_i hle
    rw [Option.getD_some, block, sliceOf_sliceOf, hsucc]
    generalize i * rowBytes = x at *
    have hw := rowBytes_pos
    generalize rowBytes = w at *
    apply Eq.trans (b := sliceOf body (max (start - p.base).toNat x)
      (min (x + w) (x + ((min stop (p.base + ↑x + ↑(min w (body.length - x)) - 1) -
        (p.base + ↑x)).toNat + 1))))
    · congr 1
      omega
    · apply sliceOf_congr
      omega
  · rename_i hlt
    rw [Option.getD_none, hsucc]
    generalize i * rowBytes = x at *
    have hw := rowBytes_pos
    generalize rowBytes = w at *
    exact (sliceOf_eq_nil (by omega)).symm

theorem Piece.slice_rowsBetween (p : Piece) (start stop : ℤ) (f : ℤ) (body : Bytes) {a n : ℕ}
    (ha : a * rowBytes ≤ (start - p.base).toNat) (ha' : (start - p.base).toNat ≤ (a + 1) * rowBytes)
    (hn : min (stop + 1 - p.base).toNat body.length ≤ (a + n) * rowBytes) :
    (rowsBetween f body a n).flatMap (p.slice start stop) =
      sliceOf body (start - p.base).toNat (stop + 1 - p.base).toNat := by
  have hrows : (rowsBetween f body a n).flatMap (p.slice start stop) =
      (List.range n).flatMap fun i => sliceOf body
        (max (start - p.base).toNat ((a + i) * rowBytes))
        (min (stop + 1 - p.base).toNat ((a + i + 1) * rowBytes)) := by
    rw [rowsBetween, List.flatMap_map]
    exact List.flatMap_congr fun i _ => p.slice_block start stop f body (a + i)
  rw [hrows, flatMap_block_slices rowBytes_pos body n a ha ha']
  apply sliceOf_congr
  omega

/-! ## Ranges of rows -/

/-- The ranges of a span of rows are its blocks of `step` rows. -/
theorem partRanges_eq {lo hi step : ℕ} (hle : lo ≤ hi) (hhi : hi < 2 ^ 31) (hstep : 0 < step)
    (hstep' : step ≤ 2 ^ 31 - 1) :
    partRanges lo hi step = (List.range (blockCount step (hi + 1 - lo))).map fun (i : ℕ) =>
      (((lo + i * step : ℕ) : ℤ), ((min (lo + (i + 1) * step) (hi + 1) : ℕ) : ℤ) - 1) := by
  have hmin : max 1 (min step (2 ^ 31 - 1)) = step := by omega
  have hcount : (hi - lo) / step + 1 = blockCount step (hi + 1 - lo) := by
    have hsum : hi + 1 - lo + step - 1 = hi - lo + step := by omega
    rw [blockCount, hsum, Nat.add_div_right _ hstep]
  have hlt : ¬ (hi : ℤ) < lo := by omega
  have hsub : ((hi : ℤ) - lo).toNat = hi - lo := by omega
  simp only [partRanges, hmin, hlt, if_false, hsub, hcount]
  apply List.map_congr_left
  intro i hi'
  have hblock := (lt_blockCount_iff hstep).mp (List.mem_range.mp hi')
  have hsucc : (i + 1) * step = i * step + step := Nat.succ_mul _ _
  have hcast : (i : ℤ) * step = ((i * step : ℕ) : ℤ) := by push_cast; rfl
  rw [hcast, hsucc]
  generalize i * step = x at *
  refine Prod.ext (by push_cast; rfl) ?_
  simp only [satAddI32]
  push_cast
  omega

/-- A step beyond `i32::MAX` is clamped. -/
theorem partRanges_clamp (lo hi : ℤ) (step : ℕ) :
    partRanges lo hi step = partRanges lo hi (min step (2 ^ 31 - 1)) := by
  simp only [partRanges, min_assoc, min_self]

theorem partRanges_single {row : ℤ} (h : -2 ^ 31 ≤ row) (h' : row < 2 ^ 31) (step : ℕ) :
    partRanges row row step = [(row, row)] := by
  have hsat : row ≤ satAddI32 row (↑(max 1 (min step (2 ^ 31 - 1))) - 1) := by
    unfold satAddI32
    omega
  simp only [partRanges, lt_irrefl, if_false, sub_self, Int.toNat_zero, Nat.zero_div,
    Nat.zero_add, List.range_one, List.map_cons, List.map_nil, Nat.cast_zero, zero_mul, add_zero,
    min_eq_right hsat]

theorem partRanges_ends {lo hi step : ℕ} (hle : lo ≤ hi) (hhi : hi < 2 ^ 31) (hstep : 0 < step)
    (hstep' : step ≤ 2 ^ 31 - 1) :
    (partRanges lo hi step).head?.map (·.1) = some ↑lo ∧
      (partRanges lo hi step).getLast?.map (·.2) = some ↑hi := by
  rw [partRanges_eq hle hhi hstep hstep']
  obtain ⟨n, hn⟩ : ∃ n, blockCount step (hi + 1 - lo) = n + 1 := by
    have hpos := (lt_blockCount_iff (n := hi + 1 - lo) (i := 0) hstep).mpr (by omega)
    exact ⟨_, (Nat.sub_add_cancel hpos).symm⟩
  have hend : hi + 1 - lo ≤ (n + 1) * step := by
    rw [← hn]
    by_contra hlt
    have := (lt_blockCount_iff hstep).mpr (not_le.mp hlt)
    omega
  rw [hn]
  constructor
  · simp [List.range_succ_eq_map]
  · simp only [List.range_succ, List.map_append, List.map_cons, List.map_nil,
      List.getLast?_append, List.getLast?_singleton, Option.some_or, Option.map_some]
    congr 1
    omega

theorem partRanges_bounds {firstRow lastRow : ℤ} {step : ℕ} (hlo : -2 ^ 31 ≤ firstRow)
    (hhi : lastRow < 2 ^ 31) :
    ∀ r ∈ partRanges firstRow lastRow step, firstRow ≤ r.1 ∧ r.1 ≤ r.2 ∧ r.2 ≤ lastRow := by
  intro r hr
  simp only [partRanges, List.mem_map, List.mem_range] at hr
  obtain ⟨i, hi, rfl⟩ := hr
  have hw : 0 < max 1 (min step (2 ^ 31 - 1)) := by omega
  generalize max 1 (min step (2 ^ 31 - 1)) = w at *
  split at hi
  · omega
  · rename_i hle
    have hmul : i * w ≤ (lastRow - firstRow).toNat :=
      (Nat.le_div_iff_mul_le hw).mp (Nat.lt_succ_iff.mp hi)
    have hcast : (i : ℤ) * w = ((i * w : ℕ) : ℤ) := by push_cast; rfl
    rw [hcast]
    generalize i * w = x at *
    simp only [satAddI32]
    omega

section Segment

variable {written : ℤ → Bytes} {lo hi step : ℕ}

/-- The pieces of a span of rows ask for exactly its rows. -/
theorem partRanges_rows (f base : ℤ) (hle : lo ≤ hi) (hhi : hi < 2 ^ 31) (hstep : 0 < step)
    (hstep' : step ≤ 2 ^ 31 - 1) :
    (partRanges lo hi step).flatMap
        (fun r => Piece.rows written ⟨f, base, r.1, r.2⟩) =
      rowsBetween f (written f) lo (hi + 1 - lo) := by
  set rows := rowsBetween f (written f) lo (hi + 1 - lo) with hrows
  have hlen : rows.length = hi + 1 - lo := length_rowsBetween _ _ _ _
  rw [partRanges_eq hle hhi hstep hstep', List.flatMap_map]
  conv_rhs => rw [← flatMap_block hstep rows, hlen]
  apply List.flatMap_congr
  intro i hi'
  have hblock := (lt_blockCount_iff hstep).mp (List.mem_range.mp hi')
  have hsucc : (i + 1) * step = i * step + step := Nat.succ_mul _ _
  rw [block, hrows, sliceOf_rowsBetween, Piece.rows, hsucc]
  generalize i * step = x at *
  congr 1
  · dsimp only
    omega

theorem partRanges_inside {f base : ℤ} (hle : lo ≤ hi) (hhi : hi < 2 ^ 31)
    (hhi' : hi < blockCount rowBytes (written f).length) (hstep : 0 < step)
    (hstep' : step ≤ 2 ^ 31 - 1) :
    ∀ r ∈ partRanges lo hi step, Piece.Inside ⟨f, base, r.1, r.2⟩ written := by
  rw [partRanges_eq hle hhi hstep hstep']
  intro r hr
  obtain ⟨i, hi', rfl⟩ := List.mem_map.mp hr
  have hblock := (lt_blockCount_iff hstep).mp (List.mem_range.mp hi')
  have hsucc : (i + 1) * step = i * step + step := Nat.succ_mul _ _
  rw [hsucc]
  generalize i * step = x at *
  constructor <;> dsimp only <;> omega

end Segment

/-! ## The pieces of a segment -/

def segmentPlan (start stop : ℤ) (step : ℕ) (s : ℤ × ℤ × ℤ) : List Piece :=
  if s.2.2 ≤ 0 ∨ s.2.1 + s.2.2 - 1 < start ∨ s.2.1 > stop then []
  else
    let lo := asI32 ((max start s.2.1 - s.2.1).tdiv rowBytes)
    let hi := asI32 ((min stop (s.2.1 + s.2.2 - 1) - s.2.1).tdiv rowBytes)
    (partRanges lo hi step).map fun r => ⟨s.1, s.2.1, r.1, r.2⟩

theorem plan_eq (m : Meta) (start stop : ℤ) (step : ℕ) :
    plan m start stop step = m.segments.flatMap (segmentPlan start stop step) := rfl

theorem segmentPlan_of_misses {start stop : ℤ} {step : ℕ} {s : ℤ × ℤ × ℤ}
    (h : ¬ (0 < s.2.2 ∧ start ≤ s.2.1 + s.2.2 - 1 ∧ s.2.1 ≤ stop)) :
    segmentPlan start stop step s = [] := by
  rw [segmentPlan, if_pos (by omega)]

theorem lt_succ_div_mul (x : ℕ) : x < (x / rowBytes + 1) * rowBytes := by
  rw [Nat.mul_comm]
  exact Nat.lt_mul_div_succ x rowBytes_pos

/-- A segment that meets the range is planned as the rows from the one that holds its
first byte in the range to the one that holds its last, numbered in 32 bits. -/
theorem segmentPlan_of_meets {start stop base : ℤ} {len : ℕ} (f : ℤ) (step : ℕ)
    (hmeets : 0 < len ∧ start ≤ base + len - 1 ∧ base ≤ stop) :
    segmentPlan start stop step (f, base, len) =
      (partRanges (asI32 ↑((start - base).toNat / rowBytes))
        (asI32 ↑((min (stop + 1 - base).toNat len - 1) / rowBytes)) step).map
          fun r => ⟨f, base, r.1, r.2⟩ := by
  obtain ⟨hpos, hend, hbase⟩ := hmeets
  have hmax : max start base - base = ((start - base).toNat : ℤ) := by omega
  have hmin : min stop (base + len - 1) - base =
      ((min (stop + 1 - base).toNat len - 1 : ℕ) : ℤ) := by omega
  have hkeep : ¬ ((len : ℤ) ≤ 0 ∨ base + len - 1 < start ∨ base > stop) := by omega
  rw [segmentPlan, if_neg hkeep]
  simp only [hmax, hmin, Int.ofNat_tdiv]

/-- Row numbers below `2 ^ 31` are planned as they are. -/
theorem segmentPlan_eq {written : ℤ → Bytes} {start stop f base : ℤ} (step : ℕ)
    (hrange : start ≤ stop)
    (hmeets : 0 < (written f).length ∧ start ≤ base + (written f).length - 1 ∧ base ≤ stop)
    (hsmall : min (stop + 1 - base).toNat (written f).length ≤ 2 ^ 31 * rowBytes) :
    ∃ lo hi : ℕ, lo ≤ hi ∧ hi < 2 ^ 31 ∧ hi < blockCount rowBytes (written f).length ∧
      lo * rowBytes ≤ (start - base).toNat ∧ (start - base).toNat ≤ (lo + 1) * rowBytes ∧
      min (stop + 1 - base).toNat (written f).length ≤ (hi + 1) * rowBytes ∧
      segmentPlan start stop step (f, base, (written f).length) =
        (partRanges lo hi step).map fun r => ⟨f, base, r.1, r.2⟩ := by
  have hplan := segmentPlan_of_meets f step hmeets
  obtain ⟨hpos, hend, hbase⟩ := hmeets
  set first := (start - base).toNat with hfirst
  set last := min (stop + 1 - base).toNat (written f).length - 1 with hlast
  have hlastlt : last < 2 ^ 31 * rowBytes := by omega
  have hle : first / rowBytes ≤ last / rowBytes := Nat.div_le_div_right (by omega)
  have hhi : last / rowBytes < 2 ^ 31 := by
    rw [Nat.div_lt_iff_lt_mul rowBytes_pos]
    exact hlastlt
  refine ⟨first / rowBytes, last / rowBytes, hle, hhi, ?_, Nat.div_mul_le_self _ _,
    (lt_succ_div_mul first).le, ?_, ?_⟩
  · rw [lt_blockCount_iff rowBytes_pos]
    exact (Nat.div_mul_le_self _ _).trans_lt (by omega)
  · have := lt_succ_div_mul last
    omega
  · rw [hplan, asI32_of_lt (Int.natCast_nonneg _) (by omega),
      asI32_of_lt (Int.natCast_nonneg _) (by omega)]

section SmallSegment

variable {written : ℤ → Bytes} {start stop f base : ℤ} {step : ℕ}

/-- The rows of a segment's pieces carry the part of its body in the range. -/
theorem segmentPlan_covers (hrange : start ≤ stop)
    (hsmall : min (stop + 1 - base).toNat (written f).length ≤ 2 ^ 31 * rowBytes)
    (hstep : 0 < step) (hstep' : step ≤ 2 ^ 31 - 1) :
    (segmentPlan start stop step (f, base, (written f).length)).flatMap
        (fun p => (p.rows written).flatMap (p.slice start stop)) =
      sliceOf (written f) (start - base).toNat (stop + 1 - base).toNat := by
  by_cases hmeets : 0 < (written f).length ∧ start ≤ base + (written f).length - 1 ∧ base ≤ stop
  · obtain ⟨lo, hi, hle, hhi, -, hlo, hlo', hstop, hplan⟩ :=
      segmentPlan_eq step hrange hmeets hsmall
    have hslice : ∀ r : ℤ × ℤ, Piece.slice ⟨f, base, r.1, r.2⟩ start stop =
        Piece.slice ⟨f, base, 0, 0⟩ start stop := fun _ => rfl
    rw [hplan, List.flatMap_map]
    simp only [hslice]
    rw [← List.flatMap_assoc, partRanges_rows f base hle hhi hstep hstep']
    apply Piece.slice_rowsBetween ⟨f, base, 0, 0⟩ start stop f (written f) hlo hlo'
    rw [Nat.add_sub_cancel' (by omega)]
    exact hstop
  · rw [segmentPlan_of_misses (by simpa using hmeets)]
    exact (sliceOf_eq_nil (by omega)).symm

theorem segmentPlan_inside (hrange : start ≤ stop)
    (hsmall : min (stop + 1 - base).toNat (written f).length ≤ 2 ^ 31 * rowBytes)
    (hstep : 0 < step) (hstep' : step ≤ 2 ^ 31 - 1) :
    ∀ p ∈ segmentPlan start stop step (f, base, (written f).length),
      p.fileId = f ∧ p.Inside written := by
  by_cases hmeets : 0 < (written f).length ∧ start ≤ base + (written f).length - 1 ∧ base ≤ stop
  · obtain ⟨lo, hi, hle, hhi, hhi', -, -, -, hplan⟩ :=
      segmentPlan_eq step hrange hmeets hsmall
    rw [hplan]
    intro p hp
    obtain ⟨r, hr, rfl⟩ := List.mem_map.mp hp
    exact ⟨rfl, partRanges_inside hle hhi hhi' hstep hstep' r hr⟩
  · rw [segmentPlan_of_misses (by simpa using hmeets)]
    simp

end SmallSegment

theorem partRanges_of_lt {firstRow lastRow : ℤ} {step : ℕ} (h : lastRow < firstRow) :
    partRanges firstRow lastRow step = [] := by
  simp [partRanges, h]

theorem partRanges_hi_le {firstRow lastRow : ℤ} {step : ℕ} :
    ∀ r ∈ partRanges firstRow lastRow step, r.2 ≤ lastRow := by
  intro r hr
  simp only [partRanges, List.mem_map] at hr
  obtain ⟨i, -, rfl⟩ := hr
  exact min_le_right _ _

/-- No piece of a segment goes past the last row that the range needs. -/
theorem segmentPlan_hi_le {start stop f base : ℤ} {len step : ℕ}
    (hsmall : min (stop + 1 - base).toNat len ≤ 2 ^ 31 * rowBytes) :
    ∀ p ∈ segmentPlan start stop step (f, base, len),
      p.hi ≤ ((min (stop + 1 - base).toNat len - 1) / rowBytes : ℕ) := by
  by_cases hmeets : 0 < len ∧ start ≤ base + len - 1 ∧ base ≤ stop
  · have hlast : (min (stop + 1 - base).toNat len - 1) / rowBytes < 2 ^ 31 := by
      rw [Nat.div_lt_iff_lt_mul rowBytes_pos]
      omega
    rw [segmentPlan_of_meets f step hmeets,
      asI32_of_lt (x := ((min (stop + 1 - base).toNat len - 1) / rowBytes : ℕ))
        (Int.natCast_nonneg _) (by omega)]
    intro p hp
    obtain ⟨r, hr, rfl⟩ := List.mem_map.mp hp
    exact partRanges_hi_le r hr
  · rw [segmentPlan_of_misses (by simpa using hmeets)]
    simp

theorem lastRow_lt {stop base : ℤ} {len : ℕ} (hlen : blockCount rowBytes len ≤ 2 ^ 32)
    (hbig : 2 ^ 31 * rowBytes < min (stop + 1 - base).toNat len) :
    (min (stop + 1 - base).toNat len - 1) / rowBytes < 2 ^ 32 := by
  refine lt_of_lt_of_le ?_ hlen
  rw [lt_blockCount_iff rowBytes_pos]
  exact (Nat.div_mul_le_self _ _).trans_lt (by omega)

theorem asI32_lastRow {stop base : ℤ} {len : ℕ} (hlen : blockCount rowBytes len ≤ 2 ^ 32)
    (hbig : 2 ^ 31 * rowBytes < min (stop + 1 - base).toNat len) :
    asI32 ↑((min (stop + 1 - base).toNat len - 1) / rowBytes) =
      ↑((min (stop + 1 - base).toNat len - 1) / rowBytes) - 2 ^ 32 := by
  have hhi := lastRow_lt hlen hbig
  have hlo : 2 ^ 31 ≤ (min (stop + 1 - base).toNat len - 1) / rowBytes := by
    rw [Nat.le_div_iff_mul_le rowBytes_pos]
    omega
  exact asI32_of_ge (by omega) (by omega)

/-- A segment whose last row number wraps is not fetched at all by a range that begins at
or before it. -/
theorem segmentPlan_skipped {start stop f base : ℤ} {len step : ℕ}
    (hlen : blockCount rowBytes len ≤ 2 ^ 32)
    (hbig : 2 ^ 31 * rowBytes < min (stop + 1 - base).toNat len) (hbase : start ≤ base) :
    segmentPlan start stop step (f, base, len) = [] := by
  have hlast := lastRow_lt hlen hbig
  have hzero : (start - base).toNat = 0 := by omega
  rw [segmentPlan_of_meets _ _ (by omega), asI32_lastRow hlen hbig, hzero, Nat.zero_div,
    asI32_of_lt (by norm_num) (by norm_num), partRanges_of_lt (by push_cast; omega), List.map_nil]

/-- A segment whose last row in the range is numbered `2 ^ 31` or more is planned with
negative row numbers, if at all. -/
theorem segmentPlan_wrapped {start stop f base : ℤ} {len step : ℕ}
    (hlen : blockCount rowBytes len ≤ 2 ^ 32)
    (hbig : 2 ^ 31 * rowBytes < min (stop + 1 - base).toNat len) :
    ∀ p ∈ segmentPlan start stop step (f, base, len), p.fileId = f ∧ p.hi < 0 ∧ p.base ≤ start := by
  rcases lt_or_ge start base with hbase | hbase
  · rw [segmentPlan_skipped hlen hbig hbase.le]
    simp
  by_cases hmeets : 0 < len ∧ start ≤ base + len - 1 ∧ base ≤ stop
  · rw [segmentPlan_of_meets _ _ hmeets, asI32_lastRow hlen hbig]
    have hlast := lastRow_lt hlen hbig
    intro p hp
    obtain ⟨r, hr, rfl⟩ := List.mem_map.mp hp
    have := partRanges_hi_le r hr
    exact ⟨rfl, by dsimp only; omega, hbase⟩
  · rw [segmentPlan_of_misses (by simpa using hmeets)]
    simp

/-- A row with a negative number contributes nothing to a range inside or after its
segment. -/
theorem Piece.slice_of_neg {p : Piece} {start stop : ℤ} {r : ChunkRow} (hbase : p.base ≤ start)
    (hno : r.no < 0) (hlen : r.data.length ≤ rowBytes) : p.slice start stop r = [] := by
  have hrow : r.no * rowBytes ≤ -rowBytes := by
    have : r.no * rowBytes ≤ -1 * rowBytes := Int.mul_le_mul_of_nonneg_right (by omega) (by omega)
    omega
  simp only [Piece.slice, rowSlice]
  rw [if_neg (by omega), Option.getD_none]

/-! ## The plan of a layout -/

section Layout

variable {written : ℤ → Bytes} {files : List ℤ} {start stop base : ℤ} {step : ℕ}

theorem segmentPlan_fileId {s : ℤ × ℤ × ℤ} : ∀ p ∈ segmentPlan start stop step s, p.fileId = s.1 := by
  intro p hp
  unfold segmentPlan at hp
  split at hp
  · simp at hp
  · obtain ⟨r, -, rfl⟩ := List.mem_map.mp hp
    rfl

theorem layout_fileId :
    ∀ p ∈ (layout written base files).flatMap (segmentPlan start stop step), p.fileId ∈ files := by
  induction files generalizing base with
  | nil => simp [layout]
  | cons f fs ih =>
      intro p hp
      rw [layout, List.flatMap_cons, List.mem_append] at hp
      rcases hp with hp | hp
      · simp [segmentPlan_fileId p hp]
      · exact List.mem_cons_of_mem _ (ih p hp)

end Layout

end Pgvs3
