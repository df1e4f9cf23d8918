import Pgvs3.Verification.Read.Plan

/-! # What a span delivers

Pieces that receive all their rows deliver the range; pieces that receive some rows of
the object's files deliver a prefix of it. -/

namespace Pgvs3

open Library

/-! ## One piece -/

namespace Piece

variable {written : ℤ → Bytes} {p : Piece} {start stop : ℤ}

theorem nodup_rows : ((p.rows written).map (·.no)).Nodup := nodup_rowsBetween _ _ _ _

theorem outcome_full (h : p.Inside written) (hhi : p.hi < 2 ^ 31 - 1) {rows : List ChunkRow}
    (hperm : rows.Perm (p.rows written)) :
    p.outcome start stop (rows.map .ok) =
      ((p.rows written).flatMap (p.slice start stop), true) := by
  obtain ⟨hlo, hle, -, -⟩ := h
  have hnodup : (rows.map (·.no)).Nodup := (hperm.map _).nodup_iff.mpr nodup_rows
  have hchain := chain_rowsBetween p.fileId (written p.fileId) (a := p.lo.toNat)
    (n := (p.hi + 1 - p.lo).toNat) (by omega)
  rw [Int.toNat_of_nonneg hlo] at hchain
  have hre : Reassembled nextNo (·.no) p.lo rows (p.rows written) []
      ↑(p.lo.toNat + (p.hi + 1 - p.lo).toNat) :=
    ⟨by simpa using hperm, hchain, by simp⟩
  rw [p.outcome_eq (by simpa using hnodup) (by simpa using hre)]
  refine Prod.ext rfl ?_
  simp only [fetchError?_map_ok, true_and, decide_eq_true_eq]
  omega

/-- The rows that a piece may receive: some rows of its file that it asked for. -/
structure Genuine (written : ℤ → Bytes) (p : Piece) (rows : List ChunkRow) : Prop where
  nodup : (rows.map (·.no)).Nodup
  rows_of : ∀ r ∈ rows, r ∈ rowsOf p.fileId (written p.fileId) ∧ p.lo ≤ r.no ∧ r.no ≤ p.hi

/-- The rows of a piece that are put are the first of those it asks for, all of them when it
is complete. -/
theorem outcome_taken (h : p.Inside written) (hdistinct : DistinctRows (written p.fileId))
    {fetch : Fetch} (hrows : Genuine written p (arrived fetch)) :
    ∃ taken, taken <+: p.rows written ∧ taken ⊆ arrived fetch ∧
      (p.outcome start stop fetch).1 = taken.flatMap (p.slice start stop) ∧
      ((p.outcome start stop fetch).2 = true → taken = p.rows written) := by
  obtain ⟨hnodup, hrows_of⟩ := hrows
  obtain ⟨taken, early, next, hre, -⟩ :=
    drainEarly_spec p start stop le_rfl hnodup p.lo []
  have hsub : ∀ r ∈ arrived fetch, r ∈ p.rows written := fun r hr =>
    (h.mem_rows hdistinct).mpr (hrows_of r hr)
  obtain ⟨hlo, hle, -, hsmall⟩ := h
  set a := p.lo.toNat with ha
  set n := (p.hi + 1 - p.lo).toNat with hn
  -- all rows but the last are numbered below `2 ^ 31 - 1`
  have hinit : Chain nextNo (·.no) ↑a (rowsBetween p.fileId (written p.fileId) a (n - 1))
      ↑(a + (n - 1)) := chain_rowsBetween _ _ (by omega)
  have hsnoc : p.rows written = rowsBetween p.fileId (written p.fileId) a (n - 1) ++
      [⟨p.fileId, ↑(a + (n - 1)), block rowBytes (written p.fileId) (a + (n - 1))⟩] := by
    have hpos : n = n - 1 + 1 := by omega
    rw [Piece.rows, ← ha, ← hn, rowsBetween]
    conv_lhs => rw [hpos]
    simp [rowsBetween, List.range_succ]
  have hchain : Chain nextNo (·.no) p.lo (p.rows written) (nextNo ↑(a + (n - 1))) := by
    rw [hsnoc, ← Int.toNat_of_nonneg hlo, ← ha]
    exact hinit.append ⟨rfl, rfl⟩
  have hpre := hre.isPrefix hsub hnodup hchain nodup_rows
  rw [p.outcome_eq hnodup hre]
  refine ⟨taken, hpre, fun r hr => hre.perm.mem_iff.mpr (List.mem_append_left _ hr), rfl,
    fun hdone => ?_⟩
  simp only [decide_eq_true_eq] at hdone
  by_contra hne
  obtain ⟨k, hk, hlt⟩ : ∃ k, taken = rowsBetween p.fileId (written p.fileId) a k ∧ k < n := by
    refine ⟨taken.length, ?_, ?_⟩
    · have htake := List.prefix_iff_eq_take.mp hpre
      have hslice := sliceOf_rowsBetween p.fileId (written p.fileId) a n 0 taken.length
      rw [sliceOf, List.drop_zero, Nat.add_zero, Nat.sub_zero] at hslice
      have hlen := hpre.length_le
      rw [Piece.rows, length_rowsBetween] at hlen
      rw [Nat.min_eq_left hlen] at hslice
      rw [← hslice]
      exact htake
    · have hlen := hpre.length_le
      have hne' : taken.length ≠ (p.rows written).length := fun heq =>
        hne (hpre.eq_of_length heq)
      rw [Piece.rows, length_rowsBetween] at hlen hne'
      omega
  have hchain' : Chain nextNo (·.no) p.lo taken ↑(a + k) := by
    rw [hk, ← Int.toNat_of_nonneg hlo, ← ha]
    exact chain_rowsBetween _ _ (by omega)
  have hnext := hre.chain.next_unique hchain'
  omega

/-- Some rows of a piece deliver a prefix of it, and all of it when it is complete. -/
theorem outcome_part (h : p.Inside written) (hdistinct : DistinctRows (written p.fileId))
    {fetch : Fetch} (hrows : Genuine written p (arrived fetch)) :
    (p.outcome start stop fetch).1 <+: (p.rows written).flatMap (p.slice start stop) ∧
      ((p.outcome start stop fetch).2 = true →
        (p.outcome start stop fetch).1 = (p.rows written).flatMap (p.slice start stop)) := by
  obtain ⟨taken, hpre, -, hout, hall⟩ := @outcome_taken _ _ start stop h hdistinct _ hrows
  rw [hout]
  exact ⟨hpre.flatMap _, fun hdone => by rw [hall hdone]⟩

theorem rows_subset_arrived (h : p.Inside written) (hdistinct : DistinctRows (written p.fileId))
    {fetch : Fetch} (hrows : Genuine written p (arrived fetch))
    (hdone : (p.outcome start stop fetch).2 = true) : p.rows written ⊆ arrived fetch := by
  obtain ⟨taken, -, hsub, -, hall⟩ := outcome_taken h hdistinct hrows
  exact hall hdone ▸ hsub

/-- A piece of negative row numbers before the range delivers nothing. -/
theorem outcome_wrapped (hbase : p.base ≤ start) (hhi : p.hi < 0) {fetch : Fetch}
    (hrows : Genuine written p (arrived fetch)) : (p.outcome start stop fetch).1 = [] := by
  obtain ⟨hnodup, hrows_of⟩ := hrows
  obtain ⟨taken, early, next, hre, -⟩ := drainEarly_spec p start stop le_rfl hnodup p.lo []
  rw [p.outcome_eq hnodup hre]
  simp only [List.flatMap_eq_nil_iff]
  intro r hr
  obtain ⟨hmem, -, hno⟩ := hrows_of r (hre.perm.mem_iff.mpr (List.mem_append_left _ hr))
  obtain ⟨i, -, rfl⟩ := mem_rowsOf.mp hmem
  exact slice_of_neg hbase (lt_of_le_of_lt hno hhi) (length_block_le _ _)

end Piece

theorem drainEarly_next_lt (p : Piece) (start stop : ℤ) {fuel : ℕ} {early : List ChunkRow}
    {next : ℤ} (hnext : next < 2 ^ 31) (chunk : Bytes) :
    (drainEarly p start stop fuel early next chunk).2.1 < 2 ^ 31 := by
  induction fuel generalizing early next chunk with
  | zero => exact hnext
  | succ fuel ih =>
      rw [drainEarly]
      split
      · exact hnext
      · exact ih (asI32_mem _).2 _

/-- A piece whose last row is numbered `2 ^ 31 - 1` is never complete: the number after it
wraps. -/
theorem Piece.outcome_last {p : Piece} {start stop : ℤ} (hle : p.lo ≤ p.hi)
    (hhi : p.hi = 2 ^ 31 - 1) (fetch : Fetch) : (p.outcome start stop fetch).2 = false := by
  have hlo : p.lo < 2 ^ 31 := by omega
  have hnext := @drainEarly_next_lt p start stop (arrived fetch).length (arrived fetch) _ hlo []
  refine decide_eq_false fun hdone => ?_
  have hpast : p.hi < (drainEarly p start stop (arrived fetch).length (arrived fetch) p.lo []).2.1 :=
    hdone.2
  omega

/-! ## Several pieces -/

theorem piecesOutcome_append (start stop : ℤ) (spawn : Piece → Fetch) (xs ys : List Piece) :
    piecesOutcome start stop spawn (xs ++ ys) =
      if (piecesOutcome start stop spawn xs).2 then
        ((piecesOutcome start stop spawn xs).1 ++ (piecesOutcome start stop spawn ys).1,
          (piecesOutcome start stop spawn ys).2)
      else piecesOutcome start stop spawn xs := by
  induction xs with
  | nil => simp [piecesOutcome]
  | cons p xs ih =>
      cases hp : (p.outcome start stop (spawn p)).2 with
      | false =>
          rw [List.cons_append, piecesOutcome_cons_of_incomplete hp,
            piecesOutcome_cons_of_incomplete hp]
          simp
      | true =>
          rw [List.cons_append, piecesOutcome_cons_of_complete hp,
            piecesOutcome_cons_of_complete hp, ih]
          split <;> simp

/-- `target` is what the pieces should deliver: they deliver a prefix of it, all of it when
they are complete. -/
def Delivers (o : Bytes × Bool) (target : Bytes) : Prop :=
  o.1 <+: target ∧ (o.2 = true → o.1 = target)

theorem Delivers.append {start stop : ℤ} {spawn : Piece → Fetch} {xs ys : List Piece}
    {s t : Bytes} (hx : Delivers (piecesOutcome start stop spawn xs) s)
    (hy : Delivers (piecesOutcome start stop spawn ys) t) :
    Delivers (piecesOutcome start stop spawn (xs ++ ys)) (s ++ t) := by
  rw [piecesOutcome_append]
  split
  · rename_i hdone
    rw [hx.2 hdone]
    exact ⟨(List.prefix_append_right_inj s).mpr hy.1, fun h => by rw [hy.2 h]⟩
  · rename_i hstop
    exact ⟨hx.1.trans (List.prefix_append s t), fun h => (hstop h).elim⟩

theorem delivers_pieces {written : ℤ → Bytes} {start stop : ℤ} {spawn : Piece → Fetch}
    {pieces : List Piece} (hinside : ∀ p ∈ pieces, p.Inside written)
    (hdistinct : ∀ p ∈ pieces, DistinctRows (written p.fileId))
    (hrows : ∀ p ∈ pieces, p.Genuine written (arrived (spawn p))) :
    Delivers (piecesOutcome start stop spawn pieces)
      (pieces.flatMap fun p => (p.rows written).flatMap (p.slice start stop)) := by
  induction pieces with
  | nil => exact ⟨List.nil_prefix, fun _ => rfl⟩
  | cons p pieces ih =>
      have hone : Delivers (piecesOutcome start stop spawn [p])
          ((p.rows written).flatMap (p.slice start stop)) := by
        have h := @Piece.outcome_part written p start stop (hinside p (by simp))
          (hdistinct p (by simp)) (spawn p) (hrows p (by simp))
        cases hp : (p.outcome start stop (spawn p)).2 with
        | false =>
            rw [piecesOutcome_cons_of_incomplete hp]
            exact ⟨h.1, fun hf => by cases hf⟩
        | true =>
            rw [piecesOutcome_cons_of_complete hp]
            simpa [Delivers, piecesOutcome] using And.intro h.1 (h.2 hp)
      exact hone.append (ih (fun q hq => hinside q (by simp [hq]))
        (fun q hq => hdistinct q (by simp [hq])) fun q hq => hrows q (by simp [hq]))

theorem piecesOutcome_full {written : ℤ → Bytes} {start stop : ℤ} {spawn : Piece → Fetch}
    {pieces : List Piece}
    (h : ∀ p ∈ pieces, p.outcome start stop (spawn p) =
      ((p.rows written).flatMap (p.slice start stop), true)) :
    piecesOutcome start stop spawn pieces =
      (pieces.flatMap fun p => (p.rows written).flatMap (p.slice start stop), true) := by
  induction pieces with
  | nil => rfl
  | cons p pieces ih =>
      have hp := h p (by simp)
      rw [piecesOutcome_cons_of_complete (by rw [hp]), hp,
        ih fun q hq => h q (List.mem_cons_of_mem _ hq), List.flatMap_cons]

theorem piecesOutcome_wrapped {written : ℤ → Bytes} {start stop : ℤ} {spawn : Piece → Fetch}
    {pieces : List Piece} (h : ∀ p ∈ pieces, p.base ≤ start ∧ p.hi < 0)
    (hrows : ∀ p ∈ pieces, p.Genuine written (arrived (spawn p))) :
    (piecesOutcome start stop spawn pieces).1 = [] := by
  induction pieces with
  | nil => rfl
  | cons p pieces ih =>
      have hp := @Piece.outcome_wrapped written p start stop (h p (by simp)).1 (h p (by simp)).2
        (spawn p) (hrows p (by simp))
      have hrest := ih (fun q hq => h q (by simp [hq])) fun q hq => hrows q (by simp [hq])
      cases hc : (p.outcome start stop (spawn p)).2 with
      | false => rw [piecesOutcome_cons_of_incomplete hc, hp]
      | true => rw [piecesOutcome_cons_of_complete hc, hp, hrest, List.append_nil]

/-! ## A whole object -/

section Object

variable {written : ℤ → Bytes} {files : List ℤ} {start stop : ℤ} {step : ℕ}
  {spawn : Piece → Fetch}

/-- The condition on a range under which 32-bit row numbers do no harm: no segment that it
meets and goes past has more than `2 ^ 31` rows. -/
def RowsFit (segments : List (ℤ × ℤ × ℤ)) (start stop : ℤ) : Prop :=
  ∀ s ∈ segments, start ≤ s.2.1 + s.2.2 - 1 → s.2.1 + s.2.2 ≤ stop →
    s.2.2 ≤ 2 ^ 31 * rowBytes

theorem layout_after {base : ℤ} (h : stop < base) :
    (layout written base files).flatMap (segmentPlan start stop step) = [] := by
  induction files generalizing base with
  | nil => rfl
  | cons f fs ih =>
      rw [layout, List.flatMap_cons, ih (by omega),
        segmentPlan_of_misses (fun hm => absurd hm.2.2 (not_le.mpr h)), List.nil_append]

/-- `bytes` is no longer than `target`, and it is `target` when it is as long. -/
def Fills (bytes target : Bytes) : Prop :=
  bytes.length ≤ target.length ∧ (bytes.length = target.length → bytes = target)

theorem Fills.of_isPrefix {bytes target : Bytes} (h : bytes <+: target) : Fills bytes target :=
  ⟨h.length_le, h.eq_of_length⟩

theorem Fills.append {s t s' t' : Bytes} (h : Fills s t) (h' : Fills s' t') :
    Fills (s ++ s') (t ++ t') := by
  have hle := h.1
  have hle' := h'.1
  unfold Fills
  rw [List.length_append, List.length_append]
  refine ⟨by omega, fun heq => ?_⟩
  rw [h.2 (by omega), h'.2 (by omega)]

theorem Fills.trans {s t u : Bytes} (h : Fills s t) (h' : t <+: u) : Fills s u := by
  have hle := h'.length_le
  refine ⟨h.1.trans hle, fun heq => ?_⟩
  have hle' := h.1
  rw [h.2 (by omega), h'.eq_of_length (by omega)]

theorem segment_fills {f base : ℤ} (hrange : start ≤ stop) (hstep : 0 < step)
    (hstep' : step ≤ 2 ^ 31 - 1) (hdistinct : DistinctRows (written f))
    (hrows : ∀ p ∈ segmentPlan start stop step (f, base, ↑(written f).length),
      p.Genuine written (arrived (spawn p))) :
    Fills (piecesOutcome start stop spawn
        (segmentPlan start stop step (f, base, ↑(written f).length))).1
      (sliceOf (written f) (start - base).toNat (stop + 1 - base).toNat) := by
  by_cases hsmall : min (stop + 1 - base).toNat (written f).length ≤ 2 ^ 31 * rowBytes
  · have hinside := segmentPlan_inside hrange hsmall hstep hstep'
    have hone := @delivers_pieces written start stop spawn _ (fun p hp => (hinside p hp).2)
      (fun p hp => (hinside p hp).1 ▸ hdistinct) hrows
    rw [segmentPlan_covers hrange hsmall hstep hstep'] at hone
    exact .of_isPrefix hone.1
  · rw [not_le] at hsmall
    have hwrapped := @segmentPlan_wrapped start stop f base _ step hdistinct hsmall
    rw [piecesOutcome_wrapped (fun p hp => ⟨(hwrapped p hp).2.2, (hwrapped p hp).2.1⟩) hrows]
    exact .of_isPrefix List.nil_prefix

/-- Planned pieces that receive rows of the object deliver its range, up to a failure. -/
theorem delivers_layout (hrange : start ≤ stop) (hstep : 0 < step) (hstep' : step ≤ 2 ^ 31 - 1)
    (hdistinct : ∀ f ∈ files, DistinctRows (written f)) (base : ℤ)
    (hfit : RowsFit (layout written base files) start stop)
    (hrows : ∀ p ∈ (layout written base files).flatMap (segmentPlan start stop step),
      p.Genuine written (arrived (spawn p))) :
    (piecesOutcome start stop spawn
        ((layout written base files).flatMap (segmentPlan start stop step))).1 <+:
      sliceOf (files.flatMap written) (start - base).toNat (stop + 1 - base).toNat := by
  induction files generalizing base with
  | nil => simp [layout, piecesOutcome]
  | cons f fs ih =>
      have hstart : (start - base).toNat - (written f).length =
          (start - (base + (written f).length)).toNat := by omega
      have hstop : (stop + 1 - base).toNat - (written f).length =
          (stop + 1 - (base + (written f).length)).toNat := by omega
      rw [layout, List.flatMap_cons] at hrows ⊢
      rw [List.flatMap_cons, sliceOf_append, hstart, hstop]
      have hrest := ih (fun g hg => hdistinct g (by simp [hg])) (base + (written f).length)
        (fun s hs => hfit s (List.mem_cons_of_mem _ hs))
        fun p hp => hrows p (List.mem_append_right _ hp)
      have hrows' : ∀ p ∈ segmentPlan start stop step (f, base, ↑(written f).length),
          p.Genuine written (arrived (spawn p)) :=
        fun p hp => hrows p (List.mem_append_left _ hp)
      by_cases hmeets : 0 < (written f).length ∧ start ≤ base + (written f).length - 1 ∧
          base ≤ stop
      · by_cases hsmall : min (stop + 1 - base).toNat (written f).length ≤ 2 ^ 31 * rowBytes
        · have hinside := segmentPlan_inside hrange hsmall hstep
            hstep'
          have hone := @delivers_pieces written start stop spawn _
            (fun p hp => (hinside p hp).2)
            (fun p hp => (hinside p hp).1 ▸ hdistinct f (by simp)) hrows'
          rw [segmentPlan_covers hrange hsmall hstep hstep'] at hone
          rw [piecesOutcome_append]
          split
          · rename_i hdone
            rw [hone.2 hdone]
            exact (List.prefix_append_right_inj _).mpr hrest
          · exact hone.1.trans (List.prefix_append _ _)
        · -- only the last segment that the range meets can be this long
          rw [not_le] at hsmall
          have hlast : stop < base + (written f).length := by
            by_contra hpast
            have hbound := hfit (f, base, ↑(written f).length) (by simp [layout]) hmeets.2.1
              (not_lt.mp hpast)
            dsimp only at hbound
            omega
          rw [layout_after hlast, List.append_nil]
          have hwrapped := @segmentPlan_wrapped start stop f base _ step
            (hdistinct f (by simp)) hsmall
          rw [piecesOutcome_wrapped (fun p hp => ⟨(hwrapped p hp).2.2, (hwrapped p hp).2.1⟩) hrows']
          exact List.nil_prefix
      · rw [segmentPlan_of_misses (by simpa using hmeets), List.nil_append,
          sliceOf_eq_nil (l := written f) (by omega), List.nil_append]
        exact hrest

/-- Pieces that receive rows of the object deliver no more bytes than the range has, and
the range itself when they deliver as many. -/
theorem layout_fills (hrange : start ≤ stop) (hstep : 0 < step) (hstep' : step ≤ 2 ^ 31 - 1)
    (hdistinct : ∀ f ∈ files, DistinctRows (written f)) (base : ℤ)
    (hrows : ∀ p ∈ (layout written base files).flatMap (segmentPlan start stop step),
      p.Genuine written (arrived (spawn p))) :
    Fills (piecesOutcome start stop spawn
        ((layout written base files).flatMap (segmentPlan start stop step))).1
      (sliceOf (files.flatMap written) (start - base).toNat (stop + 1 - base).toNat) := by
  induction files generalizing base with
  | nil => exact ⟨by simp [layout, piecesOutcome], fun _ => by simp [layout, piecesOutcome]⟩
  | cons f fs ih =>
      have hstart : (start - base).toNat - (written f).length =
          (start - (base + (written f).length)).toNat := by omega
      have hstop : (stop + 1 - base).toNat - (written f).length =
          (stop + 1 - (base + (written f).length)).toNat := by omega
      rw [layout, List.flatMap_cons] at hrows ⊢
      rw [List.flatMap_cons, sliceOf_append, hstart, hstop, piecesOutcome_append]
      have hrest := ih (fun g hg => hdistinct g (by simp [hg])) (base + (written f).length)
        fun p hp => hrows p (List.mem_append_right _ hp)
      have hone := @segment_fills _ start stop _ spawn f base hrange hstep hstep' (hdistinct f (by simp))
        fun p hp => hrows p (List.mem_append_left _ hp)
      split
      · exact hone.append hrest
      · exact hone.trans (List.prefix_append _ _)

theorem layout_inside (hrange : start ≤ stop) (hstep : 0 < step) (hstep' : step ≤ 2 ^ 31 - 1)
    (hfew : ∀ f ∈ files, FewRows (written f)) (base : ℤ) :
    ∀ p ∈ (layout written base files).flatMap (segmentPlan start stop step),
      p.fileId ∈ files ∧ p.Inside written := by
  induction files generalizing base with
  | nil => simp [layout]
  | cons f fs ih =>
      have hsmall : min (stop + 1 - base).toNat (written f).length ≤ 2 ^ 31 * rowBytes :=
        (min_le_right _ _).trans (hfew f (by simp)).length_le
      intro p hp
      rw [layout, List.flatMap_cons, List.mem_append] at hp
      rcases hp with hp | hp
      · obtain ⟨hf, hin⟩ := segmentPlan_inside hrange hsmall hstep hstep' p hp
        exact ⟨by simp [hf], hin⟩
      · obtain ⟨hf, hin⟩ := ih (fun g hg => hfew g (by simp [hg])) _ p hp
        exact ⟨List.mem_cons_of_mem _ hf, hin⟩

theorem segment_outcome_full {f base : ℤ} (hrange : start ≤ stop) (hstep : 0 < step)
    (hstep' : step ≤ 2 ^ 31 - 1)
    (hfew : min (stop + 1 - base).toNat (written f).length ≤ (2 ^ 31 - 1) * rowBytes)
    (hrows : ∀ p ∈ segmentPlan start stop step (f, base, ↑(written f).length),
      p.fileId = f → p.Inside written →
        ∃ rows : List ChunkRow, rows.Perm (p.rows written) ∧ spawn p = rows.map .ok) :
    piecesOutcome start stop spawn (segmentPlan start stop step (f, base, ↑(written f).length)) =
      (sliceOf (written f) (start - base).toNat (stop + 1 - base).toNat, true) := by
  have hsmall : min (stop + 1 - base).toNat (written f).length ≤ 2 ^ 31 * rowBytes := by omega
  rw [← segmentPlan_covers hrange hsmall hstep hstep']
  apply piecesOutcome_full
  intro p hp
  obtain ⟨hf, hin⟩ := segmentPlan_inside hrange hsmall hstep hstep' p hp
  obtain ⟨rows, hperm, hspawn⟩ := hrows p hp hf hin
  have hhi : p.hi < 2 ^ 31 - 1 := by
    have hle := segmentPlan_hi_le hsmall p hp
    have hlo := hin.lo_nonneg
    have hlt : (min (stop + 1 - base).toNat (written f).length - 1) / rowBytes < 2 ^ 31 - 1 := by
      rw [Nat.div_lt_iff_lt_mul rowBytes_pos]
      have := rowBytes_pos
      omega
    omega
  rw [hspawn]
  exact p.outcome_full hin hhi hperm

/-- Planned pieces that receive all rows of the object deliver its range. -/
theorem layout_outcome_full (hrange : start ≤ stop) (hstep : 0 < step)
    (hstep' : step ≤ 2 ^ 31 - 1) (hfew : ∀ f ∈ files, FewRows (written f)) (base : ℤ)
    (hrows : ∀ p ∈ (layout written base files).flatMap (segmentPlan start stop step),
      p.fileId ∈ files → p.Inside written →
        ∃ rows : List ChunkRow, rows.Perm (p.rows written) ∧ spawn p = rows.map .ok) :
    piecesOutcome start stop spawn
        ((layout written base files).flatMap (segmentPlan start stop step)) =
      (sliceOf (files.flatMap written) (start - base).toNat (stop + 1 - base).toNat, true) := by
  induction files generalizing base with
  | nil => simp [layout, piecesOutcome]
  | cons f fs ih =>
      have hstart : (start - base).toNat - (written f).length =
          (start - (base + (written f).length)).toNat := by omega
      have hstop : (stop + 1 - base).toNat - (written f).length =
          (stop + 1 - (base + (written f).length)).toNat := by omega
      rw [layout, List.flatMap_cons] at hrows ⊢
      have hone := @segment_outcome_full written start stop step spawn f base hrange hstep hstep'
        ((min_le_right _ _).trans (hfew f (by simp)).length_le_pred) fun p hp hf hin =>
          hrows p (List.mem_append_left _ hp) (by simp [hf]) hin
      have hrest := ih (fun g hg => hfew g (by simp [hg])) (base + (written f).length)
        fun p hp hf hin => hrows p (List.mem_append_right _ hp) (by simp [hf]) hin
      rw [piecesOutcome_append, hone, hrest, List.flatMap_cons, sliceOf_append, hstart, hstop]
      simp

end Object

/-! ## The stream -/

section Stream

variable {written : ℤ → Bytes} {files : List ℤ} {m : Meta} {start stop : ℤ}
  {spawn : Piece → Fetch}

theorem partRows_pos : 0 < partRows := by simp [partRows]

theorem partRows_le : partRows ≤ 2 ^ 31 - 1 := by
  simp only [partRows, smallMax, rowBytes_eq]
  norm_num

theorem length_range (h : m.Describes written files) (h0 : 0 ≤ start) (hrange : start ≤ stop)
    (hsize : stop < m.size) :
    ((sliceOf (files.flatMap written) start.toNat (stop + 1).toNat).length : ℤ) =
      stop - start + 1 := by
  have hlen := h.size_eq
  rw [length_sliceOf]
  omega

/-- With all rows of the object, the stream is exactly the range, in whatever order they
arrive. -/
theorem streamSpan_full (h : m.Describes written files) (hfew : ∀ f ∈ files, FewRows (written f))
    (h0 : 0 ≤ start) (hrange : start ≤ stop) (hsize : stop < m.size)
    (hrows : ∀ p : Piece, p.fileId ∈ files → p.Inside written →
      ∃ rows : List ChunkRow, rows.Perm (p.rows written) ∧ spawn p = rows.map .ok) :
    ∃ out, streamSpan (fun _ => true) spawn m start stop = (out, none) ∧ (∀ c ∈ out, c ≠ []) ∧
      out.flatten = sliceOf (files.flatMap written) start.toNat (stop + 1).toNat := by
  have hout := @layout_outcome_full _ _ start stop _ spawn hrange partRows_pos partRows_le hfew 0
    fun p _ => hrows p
  rw [← h.segments_eq, ← plan_eq, sub_zero, sub_zero] at hout
  have hnodup : ∀ p ∈ plan m start stop partRows, ((arrived (spawn p)).map (·.no)).Nodup := by
    rw [plan_eq, h.segments_eq]
    intro p hp
    obtain ⟨hf, hin⟩ := layout_inside hrange partRows_pos partRows_le hfew 0 p hp
    obtain ⟨rows, hperm, hspawn⟩ := hrows p hf hin
    rw [hspawn, arrived_map_ok]
    exact (hperm.map _).nodup_iff.mpr Piece.nodup_rows
  cases hrun : streamSpan (fun _ => true) spawn m start stop with
  | mk out e =>
      obtain ⟨hne, -, hiff, hall⟩ := streamSpan_spec hrun hnodup
      rw [hout] at hiff hall
      have he : e = none := hiff.mpr ⟨rfl, length_range h h0 hrange hsize⟩
      exact ⟨out, by rw [he], hne, hall he⟩

/-- A first file of more than `2 ^ 31` rows is left out of the plan of a whole object, so its
stream begins with the bytes of the second file. -/
theorem streamSpan_wrapped {f g : ℤ} (h : m.Describes written [f, g])
    (hbig : 2 ^ 31 * rowBytes < (written f).length) (hdistinct : DistinctRows (written f))
    (hchunk : chunkSize ≤ (written g).length) (hfew : FewRows (written g))
    (hrows : ∀ p : Piece, p.fileId = g → p.Inside written →
      ∃ rows : List ChunkRow, rows.Perm (p.rows written) ∧ spawn p = rows.map .ok) :
    ∃ head rest e, streamSpan (fun _ => true) spawn m 0 (m.size - 1) = (head :: rest, e) ∧
      head ≠ [] ∧ head <+: written g := by
  have hsize : m.size = (written f).length + (written g).length := by
    rw [h.size_eq]
    simp
  have hfirst : segmentPlan 0 (m.size - 1) partRows (f, 0, ↑(written f).length) = [] :=
    segmentPlan_skipped hdistinct (by omega) le_rfl
  have hplan : plan m 0 (m.size - 1) partRows =
      (layout written (written f).length [g]).flatMap (segmentPlan 0 (m.size - 1) partRows) := by
    rw [plan_eq, h.segments_eq, layout, List.flatMap_cons, hfirst, List.nil_append, zero_add]
  have hall : ∀ h ∈ [g], FewRows (written h) := by simpa using hfew
  have hspawned : ∀ p ∈ plan m 0 (m.size - 1) partRows,
      ∃ rows : List ChunkRow, rows.Perm (p.rows written) ∧ spawn p = rows.map .ok := by
    rw [hplan]
    intro p hp
    obtain ⟨hg, hin⟩ := layout_inside (by omega) partRows_pos partRows_le hall _ p hp
    exact hrows p (List.mem_singleton.mp hg) hin
  have hnodup : ∀ p ∈ plan m 0 (m.size - 1) partRows, ((arrived (spawn p)).map (·.no)).Nodup := by
    intro p hp
    obtain ⟨rows, hperm, hspawn⟩ := hspawned p hp
    rw [hspawn, arrived_map_ok]
    exact (hperm.map _).nodup_iff.mpr Piece.nodup_rows
  have hout : piecesOutcome 0 (m.size - 1) spawn (plan m 0 (m.size - 1) partRows) =
      (written g, true) := by
    rw [hplan, layout_outcome_full (by omega) partRows_pos partRows_le hall _
      fun p _ hg hin => hrows p (List.mem_singleton.mp hg) hin]
    have hto : (0 - ((written f).length : ℤ)).toNat = 0 := by omega
    rw [List.flatMap_singleton, hto, sliceOf_full (by omega)]
  cases hrun : streamSpan (fun _ => true) spawn m 0 (m.size - 1) with
  | mk out e =>
      obtain ⟨hne, ⟨hpre, hheld⟩, -, -⟩ := streamSpan_spec hrun hnodup
      rw [hout] at hpre hheld
      dsimp only at hpre hheld
      cases out with
      | nil =>
          simp only [List.flatten_nil, List.length_nil] at hheld
          omega
      | cons head rest =>
          exact ⟨head, rest, e, rfl, hne head (by simp), (List.prefix_append _ _).trans hpre⟩

theorem plan_fileId {step : ℕ} (h : m.Describes written files) :
    ∀ p ∈ plan m start stop step, p.fileId ∈ files := by
  rw [plan_eq, h.segments_eq]
  exact layout_fileId

section Part

variable {step inflight cut : ℕ} (h : m.Describes written files)
  (hdistinct : ∀ f ∈ files, DistinctRows (written f)) (h0 : 0 ≤ start) (hrange : start ≤ stop)
  (hsize : stop < m.size) (hstep : 0 < step) (hstep' : step ≤ 2 ^ 31 - 1)
  (hinflight : 0 < inflight) (hcut : 0 < cut)
  (hgenuine : ∀ p ∈ plan m start stop step, p.Genuine written (arrived (spawn p)))
  {out : List Bytes} {e : Option ReadError}
  (hrun : streamSpanOf step inflight cut (fun _ => true) spawn m start stop = (out, e))

include h hdistinct hrange hstep hstep' hinflight hcut hgenuine hrun in
/-- With some rows of the object, the stream fills the range. -/
theorem streamSpanOf_fills :
    Fills out.flatten (sliceOf (files.flatMap written) start.toNat (stop + 1).toNat) := by
  obtain ⟨-, ⟨hpre, -⟩, -, -⟩ :=
    streamSpanOf_spec hinflight hcut hrun fun p hp => (hgenuine p hp).nodup
  have hfills := @layout_fills _ _ start stop _ spawn hrange hstep hstep' hdistinct 0
    (by rwa [← h.segments_eq, ← plan_eq])
  rw [← h.segments_eq, ← plan_eq, sub_zero, sub_zero] at hfills
  have hle := hpre.length_le
  have hle' := hfills.1
  refine ⟨hle.trans hle', fun heq => ?_⟩
  rw [hpre.eq_of_length (by omega), hfills.2 (by omega)]

include h hdistinct h0 hrange hsize hstep hstep' hinflight hcut hgenuine hrun in
/-- With some rows of the object, a stream that reports no error is exactly the range. -/
theorem streamSpanOf_complete (he : e = none) :
    out.flatten = sliceOf (files.flatMap written) start.toNat (stop + 1).toNat := by
  obtain ⟨-, -, hiff, hall⟩ :=
    streamSpanOf_spec hinflight hcut hrun fun p hp => (hgenuine p hp).nodup
  apply (streamSpanOf_fills h hdistinct hrange hstep hstep' hinflight hcut hgenuine hrun).2
  rw [hall he]
  have := (hiff.mp he).2
  have := length_range h h0 hrange hsize
  omega

include h hdistinct hrange hstep hstep' hinflight hcut hgenuine hrun in
/-- With some rows of the object, the stream is a prefix of the range. -/
theorem streamSpanOf_prefix (hfit : RowsFit m.segments start stop) :
    out.flatten <+: sliceOf (files.flatMap written) start.toNat (stop + 1).toNat := by
  obtain ⟨-, ⟨hpre, -⟩, -, -⟩ :=
    streamSpanOf_spec hinflight hcut hrun fun p hp => (hgenuine p hp).nodup
  have hdel := @delivers_layout _ _ start stop _ spawn hrange hstep hstep' hdistinct 0
    (h.segments_eq ▸ hfit) (by rwa [← h.segments_eq, ← plan_eq])
  rw [← h.segments_eq, ← plan_eq, sub_zero, sub_zero] at hdel
  exact hpre.trans hdel

end Part

end Stream

end Pgvs3
