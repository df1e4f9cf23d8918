import Pgvs3.Verification.Read.Outcome

/-! # The plan is an exact cover

Whatever segments tile an object, the planned pieces ask for the rows that meet the range
and for no others, in object order. -/

namespace Pgvs3

open Library

/-! ## Rows that meet a range -/

/-- The segments lie one after another from `base` to `size`. -/
def Tiles : ℤ → List (ℤ × ℤ × ℤ) → ℤ → Prop
  | base, [], size => base = size
  | base, (_, b, len) :: rest, size => b = base ∧ 0 ≤ len ∧ Tiles (base + len) rest size

/-- Row `i` of segment `s` has a byte among object bytes `start ..= stop`: the last row of a
segment ends with it. -/
def RowMeets (start stop : ℤ) (s : ℤ × ℤ × ℤ) (i : ℕ) : Prop :=
  s.2.1 + ↑(i * rowBytes) ≤ stop ∧ start < s.2.1 + ↑((i + 1) * rowBytes) ∧
    start < s.2.1 + s.2.2

instance (start stop : ℤ) (s : ℤ × ℤ × ℤ) : DecidablePred (RowMeets start stop s) :=
  fun _ => inferInstanceAs (Decidable (_ ∧ _))

/-- File, base and number of the rows of a segment that meet the range. -/
def segmentRows (start stop : ℤ) (s : ℤ × ℤ × ℤ) : List (ℤ × ℤ × ℤ) :=
  ((List.range (blockCount rowBytes s.2.2.toNat)).filter (RowMeets start stop s ·)).map
    fun (i : ℕ) => (s.1, s.2.1, ↑i)

/-- The rows of an object that meet the range, in object order. -/
def rowsMeeting (start stop : ℤ) (segments : List (ℤ × ℤ × ℤ)) : List (ℤ × ℤ × ℤ) :=
  segments.flatMap (segmentRows start stop)

/-- File, base and number of the rows that a piece asks for. -/
def Piece.located (p : Piece) : List (ℤ × ℤ × ℤ) :=
  (List.range (p.hi + 1 - p.lo).toNat).map fun (i : ℕ) => (p.fileId, p.base, p.lo + i)

theorem Piece.located_eq {p : Piece} (h : 0 ≤ p.lo) (written : ℤ → Bytes) :
    p.located = (p.rows written).map fun r => (r.fileId, p.base, r.no) := by
  rw [located, rows, rowsBetween, List.map_map]
  refine List.map_congr_left fun i _ => ?_
  simp only [Function.comp_apply]
  congr 2
  omega

theorem located_pieces (f base : ℤ) {lo hi step : ℕ} (hle : lo ≤ hi) (hhi : hi < 2 ^ 31)
    (hstep : 0 < step) (hstep' : step ≤ 2 ^ 31 - 1) :
    (partRanges lo hi step).flatMap (fun r => Piece.located ⟨f, base, r.1, r.2⟩) =
      (List.range (hi + 1 - lo)).map fun (i : ℕ) => (f, base, ((lo + i : ℕ) : ℤ)) := by
  have hrows := @partRanges_rows (fun _ => []) lo hi step f base hle hhi hstep hstep'
  have hmap := congrArg (List.map fun r => (r.fileId, base, r.no)) hrows
  rw [List.map_flatMap, rowsBetween, List.map_map] at hmap
  refine Eq.trans (List.flatMap_congr fun r hr => ?_) hmap
  refine Piece.located_eq ?_ _
  rw [partRanges_eq hle hhi hstep hstep'] at hr
  obtain ⟨i, -, rfl⟩ := List.mem_map.mp hr
  exact Int.natCast_nonneg _

/-! ## One segment -/

section Segment

variable {start stop f base : ℤ} {len step : ℕ}

theorem segmentRows_of_misses
    (h : ¬ (0 < len ∧ start ≤ base + len - 1 ∧ base ≤ stop)) :
    segmentRows start stop (f, base, len) = [] := by
  rw [segmentRows, List.map_eq_nil_iff, List.filter_eq_nil_iff]
  intro i hi
  have hrow := (lt_blockCount_iff rowBytes_pos).mp (List.mem_range.mp hi)
  rw [Int.toNat_natCast] at hrow
  rw [decide_eq_true_eq]
  rintro ⟨hstart, -, hstop⟩
  dsimp only at hstart hstop
  omega

theorem segmentRows_of_meets (hrange : start ≤ stop)
    (hmeets : 0 < len ∧ start ≤ base + len - 1 ∧ base ≤ stop) :
    segmentRows start stop (f, base, len) =
      (List.range ((min (stop + 1 - base).toNat len - 1) / rowBytes + 1 -
        (start - base).toNat / rowBytes)).map fun (i : ℕ) =>
          (f, base, (((start - base).toNat / rowBytes + i : ℕ) : ℤ)) := by
  obtain ⟨hpos, hend, hbase⟩ := hmeets
  set first := (start - base).toNat with hfirst
  set last := min (stop + 1 - base).toNat len - 1 with hlast
  have hle : first / rowBytes ≤ last / rowBytes := Nat.div_le_div_right (by omega)
  have hlt : last / rowBytes < blockCount rowBytes len := by
    rw [lt_blockCount_iff rowBytes_pos]
    exact (Nat.div_mul_le_self _ _).trans_lt (by omega)
  have hmeets : ∀ i ∈ List.range (blockCount rowBytes len),
      decide (RowMeets start stop (f, base, ↑len) i) =
        decide (first / rowBytes ≤ i ∧ i ≤ last / rowBytes) := by
    intro i hi
    have hrow := (lt_blockCount_iff rowBytes_pos).mp (List.mem_range.mp hi)
    rw [decide_eq_decide, RowMeets, ← Nat.lt_succ_iff, Nat.div_lt_iff_lt_mul rowBytes_pos,
      Nat.le_div_iff_mul_le rowBytes_pos]
    dsimp only
    rw [Nat.succ_eq_add_one]
    have hnext : 0 < (i + 1) * rowBytes := Nat.mul_pos i.succ_pos rowBytes_pos
    generalize (i + 1) * rowBytes = y at *
    generalize i * rowBytes = x at *
    constructor
    · rintro ⟨hfrom, hto, -⟩
      constructor <;> omega
    · rintro ⟨hto, hfrom⟩
      refine ⟨?_, ?_, ?_⟩ <;> omega
  rw [segmentRows, Int.toNat_natCast, List.filter_congr hmeets, filter_range_Icc hle hlt,
    List.map_map]
  rfl

theorem segmentRows_nodup : (segmentRows start stop (f, base, len)).Nodup := by
  refine List.Nodup.map ?_ (List.nodup_range.filter _)
  intro i j hij
  simpa using hij

theorem lastRow_lt_of_rows (hrange : start ≤ stop)
    (hmeets : 0 < len ∧ start ≤ base + len - 1 ∧ base ≤ stop)
    (hrows : ∀ r ∈ segmentRows start stop (f, base, len), r.2.2 < 2 ^ 31) :
    (min (stop + 1 - base).toNat len - 1) / rowBytes < 2 ^ 31 := by
  have hle : (start - base).toNat / rowBytes ≤ (min (stop + 1 - base).toNat len - 1) / rowBytes :=
    Nat.div_le_div_right (by omega)
  rw [segmentRows_of_meets hrange hmeets] at hrows
  have hlast := hrows (f, base, ↑((min (stop + 1 - base).toNat len - 1) / rowBytes)) (by
    refine List.mem_map.mpr ⟨(min (stop + 1 - base).toNat len - 1) / rowBytes -
      (start - base).toNat / rowBytes, List.mem_range.mpr (by omega), ?_⟩
    rw [Nat.add_sub_cancel' hle])
  dsimp only at hlast
  exact_mod_cast hlast

/-- The pieces of a segment ask for its rows that meet the range, at most `step` at a time. -/
theorem segmentPlan_exact (hrange : start ≤ stop) (hstep : 1 ≤ step)
    (hrows : ∀ r ∈ segmentRows start stop (f, base, len), r.2.2 < 2 ^ 31) :
    (segmentPlan start stop step (f, base, len)).flatMap Piece.located =
        segmentRows start stop (f, base, len) ∧
      ∀ p ∈ segmentPlan start stop step (f, base, len),
        p.base = base ∧ 1 ≤ p.hi + 1 - p.lo ∧ p.hi + 1 - p.lo ≤ step := by
  by_cases hmeets : 0 < len ∧ start ≤ base + len - 1 ∧ base ≤ stop
  · have hlast := lastRow_lt_of_rows hrange hmeets hrows
    have hle : (start - base).toNat / rowBytes ≤ (min (stop + 1 - base).toNat len - 1) / rowBytes :=
      Nat.div_le_div_right (by omega)
    rw [segmentPlan_of_meets f step hmeets, segmentRows_of_meets hrange hmeets,
      asI32_of_lt (Int.natCast_nonneg _) (by omega), asI32_of_lt (Int.natCast_nonneg _) (by omega),
      partRanges_clamp]
    generalize (start - base).toNat / rowBytes = lo at *
    generalize (min (stop + 1 - base).toNat len - 1) / rowBytes = hi at *
    have hclamp : 0 < min step (2 ^ 31 - 1) := by omega
    have hclamp' : min step (2 ^ 31 - 1) ≤ 2 ^ 31 - 1 := min_le_right _ _
    refine ⟨?_, fun p hp => ?_⟩
    · rw [List.flatMap_map]
      exact located_pieces f base hle hlast hclamp hclamp'
    · rw [partRanges_eq hle hlast hclamp hclamp'] at hp
      obtain ⟨r, hr, rfl⟩ := List.mem_map.mp hp
      obtain ⟨i, hi, rfl⟩ := List.mem_map.mp hr
      have hblock := (lt_blockCount_iff hclamp).mp (List.mem_range.mp hi)
      have hmin : min step (2 ^ 31 - 1) ≤ step := min_le_left _ _
      rw [Nat.succ_mul]
      generalize min step (2 ^ 31 - 1) = w at *
      generalize i * w = x at *
      refine ⟨rfl, ?_, ?_⟩ <;> dsimp only <;> omega
  · rw [segmentPlan_of_misses (by simpa using hmeets), segmentRows_of_misses hmeets]
    simp

theorem length_rowSlice_congr (no : ℤ) {data data' : Bytes} (h : data.length = data'.length) :
    ((rowSlice base no data start stop).getD []).length =
      ((rowSlice base no data' start stop).getD []).length := by
  simp only [rowSlice, h]
  split
  · simp [h]
  · rfl

theorem length_segmentSlices (hrange : start ≤ stop) {data : ℤ × ℤ × ℤ → Bytes}
    (hdata : ∀ i < blockCount rowBytes len,
      (data (f, base, i)).length = min rowBytes (len - i * rowBytes)) :
    ((segmentRows start stop (f, base, len)).flatMap fun r =>
      (rowSlice base r.2.2 (data r) start stop).getD []).length =
        min (stop + 1 - base).toNat len - (start - base).toNat := by
  by_cases hmeets : 0 < len ∧ start ≤ base + len - 1 ∧ base ≤ stop
  · have hrows := segmentRows_of_meets (f := f) hrange hmeets
    obtain ⟨hpos, hend, hbase⟩ := hmeets
    set first := (start - base).toNat with hfirst
    set last := min (stop + 1 - base).toNat len - 1 with hlast
    set body : Bytes := List.replicate len 0 with hbody
    have hlen : body.length = len := List.length_replicate
    have hslice := Piece.slice_rowsBetween ⟨f, base, 0, 0⟩ start stop f body
      (a := first / rowBytes) (n := last / rowBytes + 1 - first / rowBytes)
      (Nat.div_mul_le_self _ _) (lt_succ_div_mul first).le (by
        have hle : first / rowBytes ≤ last / rowBytes := Nat.div_le_div_right (by omega)
        have hnext := lt_succ_div_mul last
        rw [Nat.add_sub_cancel' (by omega)]
        dsimp only
        omega)
    have hsum := congrArg List.length hslice
    rw [length_sliceOf, hlen, rowsBetween, List.flatMap_map] at hsum
    rw [hrows, List.flatMap_map, ← hsum, List.length_flatMap, List.length_flatMap]
    refine congrArg List.sum (List.map_congr_left fun i hi => ?_)
    refine length_rowSlice_congr _ ?_
    rw [hdata, length_block, hlen]
    rw [lt_blockCount_iff rowBytes_pos]
    have hle : first / rowBytes + i ≤ last / rowBytes := by
      have := List.mem_range.mp hi
      omega
    exact ((Nat.mul_le_mul_right _ hle).trans (Nat.div_mul_le_self _ _)).trans_lt (by omega)
  · rw [segmentRows_of_misses hmeets, List.flatMap_nil, List.length_nil]
    omega

end Segment

/-! ## The whole object -/

section Object

variable {m : Meta} {segments : List (ℤ × ℤ × ℤ)} {start stop base size : ℤ} {step : ℕ}

theorem Tiles.base_le (h : Tiles base segments size) : base ≤ size := by
  induction segments generalizing base with
  | nil => exact h.le
  | cons s rest ih =>
      obtain ⟨-, hlen, hrest⟩ := h
      have := ih hrest
      omega

theorem Tiles.le_of_mem (h : Tiles base segments size) :
    ∀ r ∈ rowsMeeting start stop segments, base ≤ r.2.1 := by
  induction segments generalizing base with
  | nil => simp [rowsMeeting]
  | cons s rest ih =>
      obtain ⟨rfl, hlen, hrest⟩ := h
      intro r hr
      rw [rowsMeeting, List.flatMap_cons, List.mem_append] at hr
      rcases hr with hr | hr
      · obtain ⟨i, -, rfl⟩ := List.mem_map.mp hr
        exact le_rfl
      · have := ih hrest r hr
        omega

/-- No row is met twice: the segments that have rows begin at different offsets. -/
theorem Tiles.nodup (h : Tiles base segments size) : (rowsMeeting start stop segments).Nodup := by
  induction segments generalizing base with
  | nil => exact List.nodup_nil
  | cons s rest ih =>
      obtain ⟨f, b, len⟩ := s
      obtain ⟨rfl, hlen, hrest⟩ := h
      lift len to ℕ using hlen
      rw [rowsMeeting, List.flatMap_cons]
      refine segmentRows_nodup.append (ih hrest) fun r hr hr' => ?_
      have hbase := hrest.le_of_mem r hr'
      by_cases hmeets : 0 < len ∧ start ≤ b + len - 1 ∧ b ≤ stop
      · obtain ⟨i, -, rfl⟩ := List.mem_map.mp hr
        dsimp only at hbase
        omega
      · rw [segmentRows_of_misses hmeets] at hr
        cases hr

/-- The rows that meet the range carry the range. -/
theorem Tiles.length_slices (h : Tiles base segments size) (hrange : start ≤ stop)
    {data : ℤ × ℤ × ℤ → Bytes}
    (hdata : ∀ s ∈ segments, ∀ i < blockCount rowBytes s.2.2.toNat,
      (data (s.1, s.2.1, i)).length = min rowBytes (s.2.2.toNat - i * rowBytes)) :
    ((rowsMeeting start stop segments).flatMap fun r =>
      (rowSlice r.2.1 r.2.2 (data r) start stop).getD []).length =
        min (stop + 1 - base).toNat (size - base).toNat - (start - base).toNat := by
  induction segments generalizing base with
  | nil =>
      obtain rfl : base = size := h
      simp [rowsMeeting]
  | cons s rest ih =>
      obtain ⟨f, b, len⟩ := s
      obtain ⟨rfl, hlen, hrest⟩ := h
      lift len to ℕ using hlen
      have hle := hrest.base_le
      have hone := @length_segmentSlices start stop f b len hrange data
        (hdata (f, b, ↑len) (by simp))
      have hone' : ((segmentRows start stop (f, b, len)).flatMap fun r =>
          (rowSlice r.2.1 r.2.2 (data r) start stop).getD []).length =
            min (stop + 1 - b).toNat len - (start - b).toNat := by
        rw [← hone]
        refine congrArg List.length (List.flatMap_congr fun r hr => ?_)
        obtain ⟨i, -, rfl⟩ := List.mem_map.mp hr
        rfl
      have hmore := ih hrest fun t ht => hdata t (List.mem_cons_of_mem _ ht)
      rw [rowsMeeting] at hmore ⊢
      rw [List.flatMap_cons, List.flatMap_append, List.length_append, hone', hmore]
      omega

/-- The pieces of `plan` are an exact and minimal cover of the range. -/
structure ExactCover (m : Meta) (start stop : ℤ) (step : ℕ) : Prop where
  rows : (plan m start stop step).flatMap Piece.located = rowsMeeting start stop m.segments
  once : ((plan m start stop step).flatMap Piece.located).Nodup
  sized : ∀ p ∈ plan m start stop step, 1 ≤ p.hi + 1 - p.lo ∧ p.hi + 1 - p.lo ≤ step
  bytes : ∀ data : ℤ × ℤ × ℤ → Bytes,
    (∀ s ∈ m.segments, ∀ i < blockCount rowBytes s.2.2.toNat,
      (data (s.1, s.2.1, i)).length = min rowBytes (s.2.2.toNat - i * rowBytes)) →
    (((plan m start stop step).flatMap Piece.located).flatMap fun r =>
      (rowSlice r.2.1 r.2.2 (data r) start stop).getD []).length = stop - start + 1
  onePiece : ∀ f, m.segments = [(f, 0, m.size)] → step = partRows → stop - start + 1 ≤ smallMax →
    (plan m start stop step).length = 1

theorem plan_located (hsegments : Tiles base segments size) (hrange : start ≤ stop)
    (hstep : 1 ≤ step) (hrows : ∀ r ∈ rowsMeeting start stop segments, r.2.2 < 2 ^ 31) :
    (segments.flatMap (segmentPlan start stop step)).flatMap Piece.located =
        rowsMeeting start stop segments ∧
      ∀ p ∈ segments.flatMap (segmentPlan start stop step),
        1 ≤ p.hi + 1 - p.lo ∧ p.hi + 1 - p.lo ≤ step := by
  induction segments generalizing base with
  | nil => simp [rowsMeeting]
  | cons s rest ih =>
      obtain ⟨f, b, len⟩ := s
      obtain ⟨rfl, hlen, hrest⟩ := hsegments
      lift len to ℕ using hlen
      simp only [rowsMeeting, List.flatMap_cons, List.mem_append] at hrows ih ⊢
      obtain ⟨heq, hsized⟩ := @segmentPlan_exact start stop f b len step hrange hstep
        fun r hr => hrows r (.inl hr)
      obtain ⟨heq', hsized'⟩ := ih hrest fun r hr => hrows r (.inr hr)
      rw [List.flatMap_append, heq, heq']
      refine ⟨rfl, fun p hp => ?_⟩
      rcases hp with hp | hp
      · exact (hsized p hp).2
      · exact hsized' p hp

/-- A span of `smallMax` bytes of one file fits one piece, wherever it starts within a row. -/
theorem plan_onePiece {f : ℤ} (hfile : m.segments = [(f, 0, m.size)]) (h0 : 0 ≤ start) (hrange : start ≤ stop)
    (hsize : stop < m.size) (hspan : stop - start + 1 ≤ smallMax)
    (hrows : ∀ r ∈ rowsMeeting start stop m.segments, r.2.2 < 2 ^ 31) :
    (plan m start stop partRows).length = 1 := by
  obtain ⟨len, hlen⟩ := Int.eq_ofNat_of_zero_le (h0.trans (hrange.trans hsize.le))
  rw [hfile, hlen] at hrows
  rw [hlen] at hsize
  have hmeets : 0 < len ∧ start ≤ 0 + ↑len - 1 ∧ 0 ≤ stop := by omega
  have hlast := @lastRow_lt_of_rows start stop f 0 len hrange hmeets
    (by simpa [rowsMeeting] using hrows)
  have hle : (start - 0).toNat / rowBytes ≤ (min (stop + 1 - 0).toNat len - 1) / rowBytes :=
    Nat.div_le_div_right (by omega)
  rw [plan_eq, hfile, hlen, List.flatMap_singleton, segmentPlan_of_meets f partRows hmeets,
    List.length_map, asI32_of_lt (Int.natCast_nonneg _) (by omega),
    asI32_of_lt (Int.natCast_nonneg _) (by omega), partRanges_eq hle hlast partRows_pos partRows_le,
    List.length_map, List.length_range, blockCount]
  simp only [partRows, smallMax, rowBytes_eq] at hspan ⊢
  omega

/-- The plan of a range of an object is an exact and minimal cover. -/
theorem plan_covers_exactly (hsegments : Tiles 0 m.segments m.size) (h0 : 0 ≤ start)
    (hrange : start ≤ stop) (hsize : stop < m.size) (hstep : 1 ≤ step)
    (hrows : ∀ r ∈ rowsMeeting start stop m.segments, r.2.2 < 2 ^ 31) :
    ExactCover m start stop step := by
  obtain ⟨hlocated, hsized⟩ := plan_located hsegments hrange hstep hrows
  rw [← plan_eq] at hlocated hsized
  refine ⟨hlocated, ?_, hsized, fun data hdata => ?_, fun f hfile hparts hspan => ?_⟩
  · rw [hlocated]
    exact hsegments.nodup
  · rw [hlocated, hsegments.length_slices hrange hdata]
    omega
  · rw [hparts]
    exact plan_onePiece hfile h0 hrange hsize hspan hrows

/-- Three parts, the second of them empty. -/
def threeParts : Meta := ⟨20000, [], 0, 1, some [1, 2, 3], some [10000, 10000, 20000]⟩

theorem plan_covers_exactly_threeParts : ExactCover threeParts 9000 12000 1 :=
  plan_covers_exactly ⟨rfl, by decide, rfl, by decide, rfl, by decide, rfl⟩ (by decide) (by decide)
    (by decide) (by decide) (by decide +kernel)

end Object

end Pgvs3
