import Pgvs3.Verification.Read.Cover
import Pgvs3.Verification.Read.Receiver

/-! # A stream delivers its range or reports an error

Whatever rows arrive, in whatever order and up to whatever failure, no byte is skipped as
long as no segment whose row numbers wrap is followed by one whose numbers do not. -/

namespace Pgvs3

open Library

/-! ## Rows that wrap -/

/-- The last row that the range needs of each segment that it meets. -/
def lastRows (start stop : ℤ) (segments : List (ℤ × ℤ × ℤ)) : List ℕ :=
  segments.filterMap fun s =>
    if 0 < s.2.2 ∧ start ≤ s.2.1 + s.2.2 - 1 ∧ s.2.1 ≤ stop then
      some ((min (stop + 1 - s.2.1).toNat s.2.2.toNat - 1) / rowBytes)
    else none

/-- No last row whose number wraps comes before one that keeps its number, unless the stream
is stopped before it by row `2 ^ 31 - 1`, after which the counter wraps. -/
def WrapsLast : List ℕ → Prop
  | [] => True
  | last :: rest => (last < 2 ^ 31 - 1 ∧ WrapsLast rest) ∨ last = 2 ^ 31 - 1 ∨
      2 ^ 31 ≤ last ∧ ∀ next ∈ rest, 2 ^ 31 ≤ next

section Sufficient

variable {written : ℤ → Bytes} {files : List ℤ} {start stop base : ℤ} {step : ℕ}
  {spawn : Piece → Fetch}

theorem lastRows_cons_of_meets {f : ℤ} {len : ℕ} {rest : List (ℤ × ℤ × ℤ)}
    (h : 0 < len ∧ start ≤ base + len - 1 ∧ base ≤ stop) :
    lastRows start stop ((f, base, ↑len) :: rest) =
      (min (stop + 1 - base).toNat len - 1) / rowBytes :: lastRows start stop rest := by
  rw [lastRows, List.filterMap_cons_some (b := (min (stop + 1 - base).toNat len - 1) / rowBytes)]
  · rfl
  · rw [if_pos (by simpa using h), Int.toNat_natCast]

theorem lastRows_cons_of_misses {f : ℤ} {len : ℕ} {rest : List (ℤ × ℤ × ℤ)}
    (h : ¬ (0 < len ∧ start ≤ base + len - 1 ∧ base ≤ stop)) :
    lastRows start stop ((f, base, ↑len) :: rest) = lastRows start stop rest := by
  rw [lastRows, List.filterMap_cons_none]
  · rfl
  · exact if_neg (by simpa using h)

theorem piecesOutcome_incomplete {pieces : List Piece} {p : Piece} (hp : p ∈ pieces)
    (h : (p.outcome start stop (spawn p)).2 = false) :
    (piecesOutcome start stop spawn pieces).2 = false := by
  induction pieces with
  | nil => cases hp
  | cons q pieces ih =>
      cases hq : (q.outcome start stop (spawn q)).2 with
      | false => rw [piecesOutcome_cons_of_incomplete hq]
      | true =>
          rw [piecesOutcome_cons_of_complete hq]
          rcases List.mem_cons.mp hp with rfl | hp
          · rw [h] at hq
            cases hq
          · exact ih hp

theorem layout_wrapped (hdistinct : ∀ f ∈ files, DistinctRows (written f))
    (hwrap : ∀ last ∈ lastRows start stop (layout written base files), 2 ^ 31 ≤ last)
    (hrows : ∀ p ∈ (layout written base files).flatMap (segmentPlan start stop step),
      p.Genuine written (arrived (spawn p))) :
    (piecesOutcome start stop spawn
      ((layout written base files).flatMap (segmentPlan start stop step))).1 = [] := by
  refine piecesOutcome_wrapped (fun p hp => ?_) hrows
  clear hrows
  induction files generalizing base with
  | nil => simp [layout] at hp
  | cons f fs ih =>
      rw [layout] at hwrap hp
      rw [List.flatMap_cons, List.mem_append] at hp
      by_cases hmeets : 0 < (written f).length ∧ start ≤ base + (written f).length - 1 ∧ base ≤ stop
      · rw [lastRows_cons_of_meets hmeets] at hwrap
        rcases hp with hp | hp
        · have hlast := hwrap _ List.mem_cons_self
          rw [Nat.le_div_iff_mul_le rowBytes_pos] at hlast
          have hwrapped := @segmentPlan_wrapped start stop f base _ step (hdistinct f (by simp))
            (by omega) p hp
          exact ⟨hwrapped.2.2, hwrapped.2.1⟩
        · exact ih (fun g hg => hdistinct g (by simp [hg]))
            (fun last hl => hwrap last (List.mem_cons_of_mem _ hl)) hp
      · rw [lastRows_cons_of_misses hmeets] at hwrap
        rcases hp with hp | hp
        · rw [segmentPlan_of_misses (by simpa using hmeets)] at hp
          cases hp
        · exact ih (fun g hg => hdistinct g (by simp [hg])) hwrap hp

/-- The piece with row `2 ^ 31 - 1` stops the stream. -/
theorem segment_stops {f : ℤ} {len : ℕ} (hrange : start ≤ stop) (hstep : 0 < step)
    (hstep' : step ≤ 2 ^ 31 - 1) (hmeets : 0 < len ∧ start ≤ base + len - 1 ∧ base ≤ stop)
    (hlast : (min (stop + 1 - base).toNat len - 1) / rowBytes = 2 ^ 31 - 1) :
    (piecesOutcome start stop spawn (segmentPlan start stop step (f, base, len))).2 = false := by
  have hle : (start - base).toNat / rowBytes ≤ (min (stop + 1 - base).toNat len - 1) / rowBytes :=
    Nat.div_le_div_right (by omega)
  rw [segmentPlan_of_meets f step hmeets, asI32_of_lt (Int.natCast_nonneg _) (by omega),
    asI32_of_lt (Int.natCast_nonneg _) (by omega)]
  rw [hlast] at hle ⊢
  obtain ⟨-, hend⟩ := partRanges_ends hle (by norm_num) hstep hstep'
  obtain ⟨r, hr, hhi⟩ := Option.map_eq_some_iff.mp hend
  have hmem : r ∈ partRanges ↑((start - base).toNat / rowBytes) ↑(2 ^ 31 - 1 : ℕ) step :=
    List.mem_of_getLast? hr
  have hbounds := partRanges_bounds (le_trans (by norm_num) (Int.natCast_nonneg _)) (by norm_num)
    r hmem
  exact piecesOutcome_incomplete (List.mem_map_of_mem hmem)
    (Piece.outcome_last hbounds.2.1 (by simpa using hhi) _)

/-- The planned pieces deliver a prefix of the range when the rows that wrap come last. -/
theorem delivers_wrapsLast (hrange : start ≤ stop) (hstep : 0 < step) (hstep' : step ≤ 2 ^ 31 - 1)
    (hdistinct : ∀ f ∈ files, DistinctRows (written f)) (base : ℤ)
    (horder : WrapsLast (lastRows start stop (layout written base files)))
    (hrows : ∀ p ∈ (layout written base files).flatMap (segmentPlan start stop step),
      p.Genuine written (arrived (spawn p))) :
    (piecesOutcome start stop spawn
        ((layout written base files).flatMap (segmentPlan start stop step))).1 <+:
      sliceOf (files.flatMap written) (start - base).toNat (stop + 1 - base).toNat := by
  induction files generalizing base with
  | nil => simp [layout, piecesOutcome]
  | cons f fs ih =>
      have hstart : (start - base).toNat - (written f).length =
          (start - (base + (written f).length)).toNat := by omega
      have hstop : (stop + 1 - base).toNat - (written f).length =
          (stop + 1 - (base + (written f).length)).toNat := by omega
      have hdistinct' : ∀ g ∈ fs, DistinctRows (written g) := fun g hg => hdistinct g (by simp [hg])
      by_cases hmeets : 0 < (written f).length ∧ start ≤ base + (written f).length - 1 ∧
          base ≤ stop
      · by_cases hwrap : 2 ^ 31 ≤ (min (stop + 1 - base).toNat (written f).length - 1) / rowBytes
        · -- nothing is delivered from here on
          rw [layout_wrapped hdistinct ?_ hrows]
          · exact List.nil_prefix
          · rw [layout, lastRows_cons_of_meets hmeets] at horder ⊢
            rcases horder with ⟨hlt, -⟩ | heq | ⟨-, hrest⟩
            · omega
            · omega
            · intro last hl
              rcases List.mem_cons.mp hl with rfl | hl
              · exact hwrap
              · exact hrest last hl
        · rw [layout, lastRows_cons_of_meets hmeets] at horder
          rw [layout, List.flatMap_cons] at hrows ⊢
          rw [List.flatMap_cons, sliceOf_append, hstart, hstop, piecesOutcome_append]
          have hlt := not_le.mp hwrap
          rw [Nat.div_lt_iff_lt_mul rowBytes_pos] at hlt
          have hsmall : min (stop + 1 - base).toNat (written f).length ≤ 2 ^ 31 * rowBytes := by
            omega
          have hinside := @segmentPlan_inside written start stop f base step hrange hsmall hstep hstep'
          have hone := @delivers_pieces written start stop spawn _ (fun p hp => (hinside p hp).2)
            (fun p hp => (hinside p hp).1 ▸ hdistinct f (by simp))
            fun p hp => hrows p (List.mem_append_left _ hp)
          rw [segmentPlan_covers hrange hsmall hstep hstep'] at hone
          rcases horder with ⟨-, hrest⟩ | hlast | ⟨hge, -⟩
          · have hmore := ih hdistinct' (base + (written f).length) hrest
              fun p hp => hrows p (List.mem_append_right _ hp)
            split
            · rename_i hdone
              rw [hone.2 hdone]
              exact (List.prefix_append_right_inj _).mpr hmore
            · exact hone.1.trans (List.prefix_append _ _)
          · rw [if_neg (by rw [segment_stops hrange hstep hstep' hmeets hlast]; simp)]
            exact hone.1.trans (List.prefix_append _ _)
          · exact absurd hge hwrap
      · rw [layout, lastRows_cons_of_misses hmeets] at horder
        rw [layout, List.flatMap_cons, segmentPlan_of_misses (by simpa using hmeets),
          List.nil_append] at hrows ⊢
        rw [List.flatMap_cons, sliceOf_append, hstart, hstop,
          sliceOf_eq_nil (l := written f) (by omega), List.nil_append]
        exact ih hdistinct' _ horder hrows

end Sufficient

/-! ## What a stream without an error has received -/

section Complete

variable {written : ℤ → Bytes} {files : List ℤ} {start stop base : ℤ} {step : ℕ}
  {spawn : Piece → Fetch}

theorem layout_tiles :
    Tiles base (layout written base files) (base + (files.flatMap written).length) := by
  induction files generalizing base with
  | nil => simp [layout, Tiles]
  | cons f fs ih =>
      rw [List.flatMap_cons, List.length_append, Nat.cast_add, ← Int.add_assoc]
      exact ⟨rfl, Int.natCast_nonneg _, ih⟩

theorem lastRows_lt (hrange : start ≤ stop) (hstep : 0 < step) (hstep' : step ≤ 2 ^ 31 - 1)
    (hdistinct : ∀ f ∈ files, DistinctRows (written f)) (base : ℤ)
    (hrows : ∀ p ∈ (layout written base files).flatMap (segmentPlan start stop step),
      p.Genuine written (arrived (spawn p)))
    (hdone : (piecesOutcome start stop spawn
      ((layout written base files).flatMap (segmentPlan start stop step))).2 = true)
    (hfull : (sliceOf (files.flatMap written) (start - base).toNat
      (stop + 1 - base).toNat).length ≤ (piecesOutcome start stop spawn
        ((layout written base files).flatMap (segmentPlan start stop step))).1.length) :
    ∀ last ∈ lastRows start stop (layout written base files), last < 2 ^ 31 := by
  induction files generalizing base with
  | nil => simp [layout, lastRows]
  | cons f fs ih =>
      have hstart : (start - base).toNat - (written f).length =
          (start - (base + (written f).length)).toNat := by omega
      have hstop : (stop + 1 - base).toNat - (written f).length =
          (stop + 1 - (base + (written f).length)).toNat := by omega
      have hdistinct' : ∀ g ∈ fs, DistinctRows (written g) := fun g hg => hdistinct g (by simp [hg])
      rw [layout, List.flatMap_cons] at hrows hdone hfull
      rw [List.flatMap_cons, sliceOf_append, hstart, hstop, List.length_append] at hfull
      rw [piecesOutcome_append] at hdone hfull
      have hhead : (piecesOutcome start stop spawn
          (segmentPlan start stop step (f, base, ↑(written f).length))).2 = true := by
        split at hdone
        · assumption
        · exact hdone
      rw [if_pos hhead] at hdone hfull
      rw [List.length_append] at hfull
      have hone := (@segment_fills written start stop step spawn f base hrange hstep hstep'
        (hdistinct f (by simp)) fun p hp => hrows p (List.mem_append_left _ hp)).1
      have hmore := (@layout_fills written fs start stop step spawn hrange hstep hstep' hdistinct'
        (base + (written f).length) fun p hp => hrows p (List.mem_append_right _ hp)).1
      have hrest := ih hdistinct' (base + (written f).length)
        (fun p hp => hrows p (List.mem_append_right _ hp)) hdone (by omega)
      by_cases hmeets : 0 < (written f).length ∧ start ≤ base + (written f).length - 1 ∧ base ≤ stop
      · rw [layout, lastRows_cons_of_meets hmeets]
        intro last hl
        rcases List.mem_cons.mp hl with rfl | hl
        · -- a segment whose last row wraps delivers nothing
          by_contra hwrap
          rw [not_lt, Nat.le_div_iff_mul_le rowBytes_pos] at hwrap
          have hwrapped := @segmentPlan_wrapped start stop f base _ step (hdistinct f (by simp))
            (by omega)
          have hnone := @piecesOutcome_wrapped written start stop spawn _
            (fun p hp => ⟨(hwrapped p hp).2.2, (hwrapped p hp).2.1⟩) fun p hp => hrows p (List.mem_append_left _ hp)
          rw [hnone, List.length_nil, length_sliceOf] at hone hfull
          omega
        · exact hrest last hl
      · rw [layout, lastRows_cons_of_misses hmeets]
        exact hrest

theorem rowsMeeting_lt (hrange : start ≤ stop)
    (hlast : ∀ last ∈ lastRows start stop (layout written base files), last < 2 ^ 31) :
    ∀ r ∈ rowsMeeting start stop (layout written base files), r.2.2 < 2 ^ 31 := by
  induction files generalizing base with
  | nil => simp [layout, rowsMeeting]
  | cons f fs ih =>
      intro r hr
      rw [layout, rowsMeeting, List.flatMap_cons, List.mem_append] at hr
      by_cases hmeets : 0 < (written f).length ∧ start ≤ base + (written f).length - 1 ∧ base ≤ stop
      · rw [layout, lastRows_cons_of_meets hmeets] at hlast
        rcases hr with hr | hr
        · have hlt := hlast _ List.mem_cons_self
          rw [segmentRows_of_meets hrange hmeets] at hr
          obtain ⟨i, hi, rfl⟩ := List.mem_map.mp hr
          have hi := List.mem_range.mp hi
          dsimp only
          omega
        · exact ih (fun last hl => hlast last (List.mem_cons_of_mem _ hl)) r hr
      · rw [layout, lastRows_cons_of_misses hmeets] at hlast
        rw [segmentRows_of_misses hmeets] at hr
        rcases hr with hr | hr
        · cases hr
        · exact ih hlast r hr

theorem layout_inside_of_last (hrange : start ≤ stop) (hstep : 0 < step)
    (hstep' : step ≤ 2 ^ 31 - 1)
    (hlast : ∀ last ∈ lastRows start stop (layout written base files), last < 2 ^ 31) :
    ∀ p ∈ (layout written base files).flatMap (segmentPlan start stop step), p.Inside written := by
  induction files generalizing base with
  | nil => simp [layout]
  | cons f fs ih =>
      intro p hp
      rw [layout, List.flatMap_cons, List.mem_append] at hp
      by_cases hmeets : 0 < (written f).length ∧ start ≤ base + (written f).length - 1 ∧ base ≤ stop
      · rw [layout, lastRows_cons_of_meets hmeets] at hlast
        rcases hp with hp | hp
        · have hlt := hlast _ List.mem_cons_self
          rw [Nat.div_lt_iff_lt_mul rowBytes_pos] at hlt
          exact (segmentPlan_inside hrange (by omega) hstep hstep' p hp).2
        · exact ih (fun last hl => hlast last (List.mem_cons_of_mem _ hl)) p hp
      · rw [layout, lastRows_cons_of_misses hmeets] at hlast
        rw [segmentPlan_of_misses (by simpa using hmeets)] at hp
        exact ih hlast p (by simpa using hp)

/-- The stored row that `x` locates: its file, the base of its segment and its number. -/
def rowAt (written : ℤ → Bytes) (x : ℤ × ℤ × ℤ) : ChunkRow :=
  ⟨x.1, asI32 x.2.2, block rowBytes (written x.1) x.2.2.toNat⟩

theorem Piece.Inside.rowAt_mem {p : Piece} (h : p.Inside written) {x : ℤ × ℤ × ℤ}
    (hx : x ∈ p.located) : x.1 = p.fileId ∧ x.2.1 = p.base ∧ rowAt written x ∈ p.rows written := by
  obtain ⟨hlo, hle, -, hsmall⟩ := h
  obtain ⟨i, hi, rfl⟩ := List.mem_map.mp hx
  have hi := List.mem_range.mp hi
  refine ⟨rfl, rfl, mem_rowsBetween.mpr ⟨p.lo.toNat + i, by omega, by omega, ?_⟩⟩
  have hnat : (p.lo + i).toNat = p.lo.toNat + i := by omega
  rw [rowAt, asI32_of_lt (by dsimp only; omega) (by dsimp only; omega), hnat]
  congr 1
  push_cast
  rw [Int.toNat_of_nonneg hlo]

end Complete

/-! ## The stream -/

/-- What `stream_span` owes for a range of the object of `m`, whose `files` hold `written`. -/
structure Delivered (m : Meta) (files : List ℤ) (written : ℤ → Bytes) (start stop : ℤ) (step : ℕ)
    (spawn : Piece → Fetch) (open? : ℕ → Bool) (r : SpanStop) : Prop where
  isPrefix : r.1.flatten <+: sliceOf (files.flatMap written) start.toNat (stop + 1).toNat
  whole : (∀ n, open? n = true) → r.2 = none →
    r.1.flatten = sliceOf (files.flatMap written) start.toNat (stop + 1).toNat ∧
      (r.1.flatten.length : ℤ) = stop - start + 1
  missing : (∀ n, open? n = true) → ∀ x ∈ rowsMeeting start stop m.segments,
    (∀ p ∈ plan m start stop step, p.fileId = x.1 → p.base = x.2.1 →
      rowAt written x ∉ arrived (spawn p)) → r.2.isSome
  failed : (∀ n, open? n = true) →
    ∀ p ∈ plan m start stop step, (fetchError? (spawn p)).isSome → r.2.isSome

/-- Whatever the contents of the files, the rows that arrive of them, their order, the failures
of queries and the receiver, and at every chunk size and number of pieces in flight, the stream
delivers the range or reports an error. -/
def StreamsRange (m : Meta) (files : List ℤ) (start stop : ℤ) (step : ℕ) : Prop :=
  ∀ (written : ℤ → Bytes) (spawn : Piece → Fetch) (open? : ℕ → Bool) (inflight cut : ℕ),
    m.Describes written files → (∀ f ∈ files, DistinctRows (written f)) →
    (∀ p ∈ plan m start stop step, p.Genuine written (arrived (spawn p))) →
    0 < inflight → 0 < cut →
    Delivered m files written start stop step spawn open?
      (streamSpanOf step inflight cut open? spawn m start stop)

section Stream

variable {written : ℤ → Bytes} {files : List ℤ} {m : Meta} {start stop : ℤ} {step inflight cut : ℕ}
  {spawn : Piece → Fetch}

theorem plan_clamp : plan m start stop step = plan m start stop (min step (2 ^ 31 - 1)) := by
  unfold plan
  refine List.flatMap_congr fun s _ => ?_
  dsimp only
  split
  · rfl
  · rw [partRanges_clamp]

theorem streamSpanOf_clamp {open? : ℕ → Bool} :
    streamSpanOf step inflight cut open? spawn m start stop =
      streamSpanOf (min step (2 ^ 31 - 1)) inflight cut open? spawn m start stop := by
  simp only [streamSpanOf, ← plan_clamp]

variable (h : m.Describes written files) (hdistinct : ∀ f ∈ files, DistinctRows (written f))
  (h0 : 0 ≤ start) (hrange : start ≤ stop) (hsize : stop < m.size) (hstep : 0 < step)
  (hstep' : step ≤ 2 ^ 31 - 1) (hinflight : 0 < inflight) (hcut : 0 < cut)
  (hgenuine : ∀ p ∈ plan m start stop step, p.Genuine written (arrived (spawn p)))
  {out : List Bytes}
  (hrun : streamSpanOf step inflight cut (fun _ => true) spawn m start stop = (out, none))

include hinflight hcut hgenuine hrun in
theorem fetched_of_no_error : ∀ p ∈ plan m start stop step, fetchError? (spawn p) = none := by
  obtain ⟨-, -, hiff, -⟩ := streamSpanOf_spec hinflight hcut hrun fun p hp => (hgenuine p hp).nodup
  have hdone := (hiff.mp rfl).1
  intro p hp
  by_contra hfailed
  have hstops : (p.outcome start stop (spawn p)).2 = false :=
    decide_eq_false fun hc => hfailed hc.1
  rw [piecesOutcome_incomplete hp hstops] at hdone
  cases hdone

include h hdistinct h0 hrange hsize hstep hstep' hinflight hcut hgenuine hrun in
theorem arrived_of_no_error : ∀ x ∈ rowsMeeting start stop m.segments,
    ∃ p ∈ plan m start stop step, p.fileId = x.1 ∧ p.base = x.2.1 ∧
      rowAt written x ∈ arrived (spawn p) := by
  obtain ⟨-, -, hiff, -⟩ := streamSpanOf_spec hinflight hcut hrun fun p hp => (hgenuine p hp).nodup
  obtain ⟨hdone, hlen⟩ := hiff.mp rfl
  have hplan : plan m start stop step =
      (layout written 0 files).flatMap (segmentPlan start stop step) := by
    rw [plan_eq, h.segments_eq]
  have hlength := length_range h h0 hrange hsize
  have hlast := @lastRows_lt written files start stop step spawn hrange hstep hstep' hdistinct 0
    (hplan ▸ hgenuine) (hplan ▸ hdone) (by
      rw [← hplan, sub_zero, sub_zero]
      omega)
  have hinside := layout_inside_of_last hrange hstep hstep' hlast
  have hfew := rowsMeeting_lt hrange hlast
  obtain ⟨hlocated, -⟩ := plan_located layout_tiles hrange hstep hfew
  intro x hx
  rw [h.segments_eq, ← hlocated, ← hplan] at hx
  rw [← hplan] at hinside
  obtain ⟨p, hp, hx⟩ := List.mem_flatMap.mp hx
  obtain ⟨hf, hb, hmem⟩ := (hinside p hp).rowAt_mem hx
  have hcomplete : (p.outcome start stop (spawn p)).2 = true := by
    by_contra hstops
    rw [piecesOutcome_incomplete hp (by simpa using hstops)] at hdone
    cases hdone
  refine ⟨p, hp, hf.symm, hb.symm, ?_⟩
  have hdistinct' : DistinctRows (written p.fileId) := hdistinct _ (plan_fileId h p hp)
  exact Piece.rows_subset_arrived (hinside p hp) hdistinct' (hgenuine p hp) hcomplete hmem

include h hdistinct h0 hrange hsize hstep hstep' hinflight hcut hgenuine in
/-- What a stream in order delivers, with a step that fits. -/
theorem delivered_of_wrapsLast (horder : WrapsLast (lastRows start stop m.segments))
    (open? : ℕ → Bool) :
    Delivered m files written start stop step spawn open?
      (streamSpanOf step inflight cut open? spawn m start stop) := by
  have hplan : plan m start stop step =
      (layout written 0 files).flatMap (segmentPlan start stop step) := by
    rw [plan_eq, h.segments_eq]
  have hdel := @delivers_wrapsLast written files start stop step spawn hrange hstep hstep' hdistinct 0
    (h.segments_eq ▸ horder) (hplan ▸ hgenuine)
  rw [← hplan, sub_zero, sub_zero] at hdel
  have hopen : (∀ n, open? n = true) → open? = fun _ => true := fun hn => funext hn
  refine ⟨?_, fun hn hnone => ?_, fun hn x hx hmissing => ?_, fun hn p hp hfailed => ?_⟩
  · -- a receiver that leaves has had a prefix of what a receiver that stays gets
    have hpre := @streamSpanOf_isPrefix cut inflight open? spawn start stop step m
    have hsent := (streamSpanOf_spec hinflight hcut
      (Eq.refl (streamSpanOf step inflight cut (fun _ => true) spawn m start stop))
      fun p hp => (hgenuine p hp).nodup).2.1.isPrefix
    exact (hpre.flatten.trans hsent).trans hdel
  · rw [hopen hn] at hnone ⊢
    have hall := streamSpanOf_complete h hdistinct h0 hrange hsize hstep hstep' hinflight hcut
      hgenuine rfl hnone
    exact ⟨hall, hall ▸ length_range h h0 hrange hsize⟩
  · rw [hopen hn]
    by_contra herr
    obtain ⟨p, hp, hf, hb, hmem⟩ := arrived_of_no_error h hdistinct h0 hrange hsize hstep hstep'
      hinflight hcut hgenuine (Prod.ext rfl (by simpa using herr)) x hx
    exact hmissing p hp hf hb hmem
  · rw [hopen hn]
    by_contra herr
    have hnone := fetched_of_no_error hinflight hcut hgenuine
      (Prod.ext rfl (by simpa using herr)) p hp
    rw [hnone] at hfailed
    cases hfailed

end Stream

theorem streamsRange_of_wrapsLast {m : Meta} {files : List ℤ} {start stop : ℤ} {step : ℕ}
    (h0 : 0 ≤ start) (hrange : start ≤ stop) (hsize : stop < m.size) (hstep : 1 ≤ step)
    (horder : WrapsLast (lastRows start stop m.segments)) : StreamsRange m files start stop step := by
  intro written spawn open? inflight cut h hdistinct hgenuine hinflight hcut
  rw [streamSpanOf_clamp]
  rw [plan_clamp] at hgenuine
  have hdelivered := delivered_of_wrapsLast h hdistinct h0 hrange hsize (by omega) (min_le_right _ _)
    hinflight hcut hgenuine horder open?
  obtain ⟨hpre, hwhole, hmissing, hfailed⟩ := hdelivered
  refine ⟨hpre, hwhole, ?_, ?_⟩
  · rwa [plan_clamp]
  · rwa [plan_clamp]

/-! ## Rows that wrap in the middle -/

section Necessary

variable {written : ℤ → Bytes} {files : List ℤ} {start stop base : ℤ} {step : ℕ} {p : Piece}

/-- Rows `lo` to `lo + n - 1` of a file, numbered in 32 bits. -/
def numberedRows (fileId : ℤ) (body : Bytes) (lo : ℤ) (n : ℕ) : List ChunkRow :=
  (List.range n).map fun (i : ℕ) =>
    ⟨fileId, lo + i, block rowBytes body ((lo + i) % 2 ^ 32).toNat⟩

/-- A query that returns all the rows of its piece. -/
def spawnAll (written : ℤ → Bytes) (p : Piece) : Fetch :=
  (numberedRows p.fileId (written p.fileId) p.lo (p.hi + 1 - p.lo).toNat).map .ok

theorem chain_numberedRows (fileId : ℤ) (body : Bytes) {lo : ℤ} {n : ℕ} (hlo : -2 ^ 31 ≤ lo)
    (hhi : lo + n < 2 ^ 31) :
    Chain nextNo (·.no) lo (numberedRows fileId body lo n) (lo + n) := by
  induction n with
  | zero => simp [numberedRows, Chain]
  | succ n ih =>
      have hsucc : nextNo (lo + n) = lo + (n + 1 : ℕ) := by
        unfold nextNo asI32
        rw [Int.bmod_eq_of_le (by norm_num; omega) (by norm_num; omega)]
        push_cast
        ring
      have hrows : numberedRows fileId body lo (n + 1) = numberedRows fileId body lo n ++
          [⟨fileId, lo + n, block rowBytes body ((lo + n) % 2 ^ 32).toNat⟩] := by
        simp [numberedRows, List.range_succ]
      rw [hrows]
      exact (ih (by omega)).append ⟨rfl, hsucc.symm⟩

theorem nodup_numberedRows (fileId : ℤ) (body : Bytes) (lo : ℤ) (n : ℕ) :
    ((numberedRows fileId body lo n).map (·.no)).Nodup := by
  rw [numberedRows, List.map_map]
  refine List.nodup_range.map fun i j hij => ?_
  have : lo + (i : ℤ) = lo + j := hij
  omega

theorem outcome_spawnAll (hlo : -2 ^ 31 ≤ p.lo) (hle : p.lo ≤ p.hi) (hhi : p.hi < 2 ^ 31 - 1) :
    p.outcome start stop (spawnAll written p) =
      ((numberedRows p.fileId (written p.fileId) p.lo (p.hi + 1 - p.lo).toNat).flatMap
        (p.slice start stop), true) := by
  have hchain := @chain_numberedRows p.fileId (written p.fileId) p.lo
    (p.hi + 1 - p.lo).toNat hlo (by omega)
  have hre : Reassembled nextNo (·.no) p.lo
      (numberedRows p.fileId (written p.fileId) p.lo (p.hi + 1 - p.lo).toNat)
      (numberedRows p.fileId (written p.fileId) p.lo (p.hi + 1 - p.lo).toNat) []
      (p.lo + (p.hi + 1 - p.lo).toNat) := ⟨by simp, hchain, by simp⟩
  have hnodup := nodup_numberedRows p.fileId (written p.fileId) p.lo (p.hi + 1 - p.lo).toNat
  rw [spawnAll, p.outcome_eq (by simpa using hnodup) (by simpa using hre)]
  refine Prod.ext rfl ?_
  simp only [fetchError?_map_ok, true_and, decide_eq_true_eq]
  omega

theorem numberedRows_eq_rows (h : p.Inside written) :
    numberedRows p.fileId (written p.fileId) p.lo (p.hi + 1 - p.lo).toNat = p.rows written := by
  obtain ⟨hlo, hle, -, hsmall⟩ := h
  refine List.map_congr_left fun i hi => ?_
  have hi := List.mem_range.mp hi
  have hno : ((p.lo + i) % 2 ^ 32).toNat = p.lo.toNat + i := by omega
  rw [hno]
  congr 1
  omega

theorem segmentPlan_asks {f : ℤ} {body : Bytes} (hrange : start ≤ stop)
    (hdistinct : DistinctRows body) :
    ∀ p ∈ segmentPlan start stop step (f, base, ↑body.length),
      -2 ^ 31 ≤ p.lo ∧ p.lo ≤ p.hi ∧ p.hi < 2 ^ 31 ∧ ∀ no, p.lo ≤ no → no ≤ p.hi →
        (no % 2 ^ 32).toNat < blockCount rowBytes body.length := by
  by_cases hmeets : 0 < body.length ∧ start ≤ base + body.length - 1 ∧ base ≤ stop
  · rw [segmentPlan_of_meets f step hmeets]
    have hle : (start - base).toNat / rowBytes ≤
        (min (stop + 1 - base).toNat body.length - 1) / rowBytes := Nat.div_le_div_right (by omega)
    have hlast : (min (stop + 1 - base).toNat body.length - 1) / rowBytes <
        blockCount rowBytes body.length := by
      rw [lt_blockCount_iff rowBytes_pos]
      exact (Nat.div_mul_le_self _ _).trans_lt (by omega)
    have hcount : blockCount rowBytes body.length ≤ 2 ^ 32 := hdistinct
    generalize (start - base).toNat / rowBytes = first at *
    generalize (min (stop + 1 - base).toNat body.length - 1) / rowBytes = last at *
    intro p hp
    obtain ⟨r, hr, rfl⟩ := List.mem_map.mp hp
    obtain ⟨hlo, hrr, hhi⟩ := partRanges_bounds (asI32_mem first).1 (asI32_mem last).2 r hr
    have hmin := (asI32_mem first).1
    have hmax := (asI32_mem last).2
    refine ⟨hmin.trans hlo, hrr, hhi.trans_lt hmax, fun no hno hno' => ?_⟩
    dsimp only at hno hno'
    rcases lt_or_ge last (2 ^ 31) with hsmall | hbig
    · rw [asI32_of_lt (by omega) (by omega)] at hlo hhi
      omega
    · rw [asI32_of_ge (by omega) (by omega)] at hhi
      omega
  · rw [segmentPlan_of_misses (by simpa using hmeets)]
    simp

theorem layout_asks (hrange : start ≤ stop) (hdistinct : ∀ f ∈ files, DistinctRows (written f)) :
    ∀ p ∈ (layout written base files).flatMap (segmentPlan start stop step),
      -2 ^ 31 ≤ p.lo ∧ p.lo ≤ p.hi ∧ p.hi < 2 ^ 31 ∧ ∀ no, p.lo ≤ no → no ≤ p.hi →
        (no % 2 ^ 32).toNat < blockCount rowBytes (written p.fileId).length := by
  induction files generalizing base with
  | nil => simp [layout]
  | cons f fs ih =>
      intro p hp
      rw [layout, List.flatMap_cons, List.mem_append] at hp
      rcases hp with hp | hp
      · rw [segmentPlan_fileId p hp]
        exact segmentPlan_asks hrange (hdistinct f (by simp)) p hp
      · exact ih (fun g hg => hdistinct g (by simp [hg])) p hp

theorem genuine_spawnAll (hrange : start ≤ stop) (hdistinct : ∀ f ∈ files, DistinctRows (written f)) :
    ∀ p ∈ (layout written base files).flatMap (segmentPlan start stop step),
      p.Genuine written (arrived (spawnAll written p)) := by
  intro p hp
  obtain ⟨hlo, -, hhi, hcount⟩ := layout_asks hrange hdistinct p hp
  rw [spawnAll, arrived_map_ok]
  refine ⟨nodup_numberedRows _ _ _ _, fun r hr => ?_⟩
  obtain ⟨i, hi, rfl⟩ := List.mem_map.mp hr
  have hi := List.mem_range.mp hi
  refine ⟨mem_rowsOf.mpr ⟨((p.lo + i) % 2 ^ 32).toNat, hcount _ (by omega) (by omega), ?_⟩,
    by dsimp only; omega, by dsimp only; omega⟩
  congr 1
  unfold asI32
  rw [Int.toNat_of_nonneg (by omega)]
  have hmod : Int.bmod ((p.lo + i) % 2 ^ 32) (2 ^ 32) = Int.bmod (p.lo + i) (2 ^ 32) :=
    Int.emod_bmod _ _
  rw [hmod, Int.bmod_eq_of_le (by norm_num; omega) (by norm_num; omega)]

theorem piecesOutcome_silent {spawn : Piece → Fetch} {pieces : List Piece}
    (h : ∀ p ∈ pieces, p.outcome start stop (spawn p) = ([], true)) :
    piecesOutcome start stop spawn pieces = ([], true) := by
  induction pieces with
  | nil => rfl
  | cons p pieces ih =>
      have hp := h p (by simp)
      rw [piecesOutcome_cons_of_complete (by rw [hp]), hp,
        ih fun q hq => h q (List.mem_cons_of_mem _ hq), List.nil_append]

/-- A segment whose last row wraps delivers nothing and does not stop the stream. -/
theorem segment_silent {f : ℤ} (hrange : start ≤ stop) (hdistinct : DistinctRows (written f))
    (hwrap : 2 ^ 31 ≤ (min (stop + 1 - base).toNat (written f).length - 1) / rowBytes) :
    piecesOutcome start stop (spawnAll written)
      (segmentPlan start stop step (f, base, ↑(written f).length)) = ([], true) := by
  rw [Nat.le_div_iff_mul_le rowBytes_pos] at hwrap
  have hbig : 2 ^ 31 * rowBytes < min (stop + 1 - base).toNat (written f).length := by
    have := rowBytes_pos
    omega
  refine piecesOutcome_silent fun p hp => ?_
  obtain ⟨-, hneg, hbase⟩ := segmentPlan_wrapped hdistinct hbig p hp
  obtain ⟨hlo, hle, -, -⟩ := segmentPlan_asks hrange hdistinct p hp
  rw [outcome_spawnAll hlo hle (by omega)]
  refine Prod.ext (List.flatMap_eq_nil_iff.mpr fun r hr => ?_) rfl
  obtain ⟨i, hi, rfl⟩ := List.mem_map.mp hr
  have hi := List.mem_range.mp hi
  exact Piece.slice_of_neg hbase (by dsimp only; omega) (length_block_le _ _)

theorem segment_whole {f : ℤ} (hrange : start ≤ stop) (hstep : 0 < step)
    (hstep' : step ≤ 2 ^ 31 - 1)
    (hlast : (min (stop + 1 - base).toNat (written f).length - 1) / rowBytes < 2 ^ 31 - 1) :
    piecesOutcome start stop (spawnAll written)
        (segmentPlan start stop step (f, base, ↑(written f).length)) =
      (sliceOf (written f) (start - base).toNat (stop + 1 - base).toNat, true) := by
  rw [Nat.div_lt_iff_lt_mul rowBytes_pos] at hlast
  have hfew : min (stop + 1 - base).toNat (written f).length ≤ (2 ^ 31 - 1) * rowBytes := by
    omega
  refine segment_outcome_full hrange hstep hstep' hfew fun p _ _ hin => ?_
  exact ⟨p.rows written, List.Perm.refl _, by rw [spawnAll, numberedRows_eq_rows hin]⟩

/-! ### Contents that tell the files apart -/

/-- Files as long as those of `written`: zeros in `z`, ones everywhere else. -/
def marked (written : ℤ → Bytes) (z f : ℤ) : Bytes :=
  List.replicate (written f).length (if f = z then 0 else 1)

@[simp] theorem length_marked (z f : ℤ) : (marked written z f).length = (written f).length :=
  List.length_replicate

theorem layout_marked (z : ℤ) : layout (marked written z) base files = layout written base files := by
  induction files generalizing base with
  | nil => rfl
  | cons f fs ih => rw [layout, layout, length_marked, ih]

theorem distinctRows_marked {z f : ℤ} (h : DistinctRows (written f)) :
    DistinctRows (marked written z f) := by
  unfold DistinctRows
  rwa [length_marked]

theorem sliceOf_marked {z f : ℤ} {len : ℕ} (hlen : (written f).length = len) (hrange : start ≤ stop)
    (hmeets : 0 < len ∧ start ≤ base + len - 1 ∧ base ≤ stop) :
    ∃ t, sliceOf (marked written z f) (start - base).toNat (stop + 1 - base).toNat =
      (if f = z then 0 else 1) :: t := by
  have hpos : ∃ k, min (stop + 1 - base).toNat len - (start - base).toNat = k + 1 :=
    Nat.exists_eq_succ_of_ne_zero (by omega)
  obtain ⟨k, hk⟩ := hpos
  rw [marked, sliceOf_replicate, hlen, hk]
  exact ⟨_, rfl⟩

theorem segment_delivers {z f : ℤ} (hstep : 0 < step)
    (hstep' : step ≤ 2 ^ 31 - 1) (hf : f ≠ z) (hbase : start ≤ base)
    (hmeets : 0 < (written f).length ∧ start ≤ base + (written f).length - 1 ∧ base ≤ stop)
    (hlast : (min (stop + 1 - base).toNat (written f).length - 1) / rowBytes < 2 ^ 31)
    (more : List Piece) :
    ∃ t, (piecesOutcome start stop (spawnAll (marked written z))
      (segmentPlan start stop step (f, base, ↑(written f).length) ++ more)).1 = 1 :: t := by
  have hzero : (start - base).toNat / rowBytes = 0 := by
    have hnat : (start - base).toNat = 0 := by omega
    rw [hnat, Nat.zero_div]
  rw [segmentPlan_of_meets f step hmeets, hzero]
  generalize (min (stop + 1 - base).toNat (written f).length - 1) / rowBytes = last at *
  rw [asI32_of_lt (by norm_num) (by norm_num), asI32_of_lt (Int.natCast_nonneg _) (by omega),
    partRanges_eq (Nat.zero_le _) hlast hstep hstep']
  obtain ⟨n, hn⟩ : ∃ n, blockCount step (last + 1 - 0) = n + 1 := by
    have hpos := (lt_blockCount_iff (n := last + 1 - 0) (i := 0) hstep).mpr (by omega)
    exact ⟨_, (Nat.sub_add_cancel hpos).symm⟩
  rw [hn, List.range_succ_eq_map, List.map_cons, List.map_cons, List.cons_append]
  set p : Piece := ⟨f, base, ((0 + 0 * step : ℕ) : ℤ),
    ((min (0 + (0 + 1) * step) (last + 1) : ℕ) : ℤ) - 1⟩ with hp
  have hlo : p.lo = 0 := by simp [hp]
  have hhi : p.hi = (min step (last + 1) : ℕ) - 1 := by simp [hp]
  have hout := @outcome_spawnAll (marked written z) start stop p (by omega) (by omega) (by omega)
  -- the first row of the segment is put whole or up to the end of the range
  have hrow : ∃ t, (p.outcome start stop (spawnAll (marked written z) p)).1 = 1 :: t := by
    obtain ⟨k, hk⟩ : ∃ k, (p.hi + 1 - p.lo).toNat = k + 1 :=
      Nat.exists_eq_succ_of_ne_zero (by omega)
    have hslice := p.slice_block start stop f (marked written z f) 0
    have hcount : ∃ c, min (min (stop + 1 - base).toNat ((0 + 1) * rowBytes)) (written f).length -
        max (start - base).toNat (0 * rowBytes) = c + 1 :=
      Nat.exists_eq_succ_of_ne_zero (by
        have := rowBytes_pos
        omega)
    obtain ⟨c, hc⟩ := hcount
    have hfirst : ∃ t, p.slice start stop ⟨f, ((0 : ℕ) : ℤ), block rowBytes (marked written z f) 0⟩ =
        1 :: t := by
      rw [hslice, marked, sliceOf_replicate, if_neg hf, hc]
      exact ⟨_, rfl⟩
    obtain ⟨t, ht⟩ := hfirst
    rw [hout, hk, numberedRows, List.range_succ_eq_map, List.map_cons, List.flatMap_cons, hlo]
    exact ⟨_, congrArg (· ++ _) ht⟩
  obtain ⟨t, ht⟩ := hrow
  cases hc : (p.outcome start stop (spawnAll (marked written z) p)).2 with
  | false =>
      rw [piecesOutcome_cons_of_incomplete hc]
      exact ⟨t, ht⟩
  | true =>
      rw [piecesOutcome_cons_of_complete hc, ht]
      exact ⟨_, rfl⟩

/-- Segments after the start of the range deliver their first byte, if one of them does not
wrap. -/
theorem layout_delivers {z : ℤ} (hstep : 0 < step)
    (hstep' : step ≤ 2 ^ 31 - 1) (hz : z ∉ files)
    (hdistinct : ∀ f ∈ files, DistinctRows (written f)) (hbase : start ≤ base)
    (hlast : ∃ last ∈ lastRows start stop (layout written base files), last < 2 ^ 31) :
    ∃ t, (piecesOutcome start stop (spawnAll (marked written z))
      ((layout written base files).flatMap (segmentPlan start stop step))).1 = 1 :: t := by
  induction files generalizing base with
  | nil =>
      obtain ⟨last, hmem, -⟩ := hlast
      simp [layout, lastRows] at hmem
  | cons f fs ih =>
      rw [List.mem_cons, not_or] at hz
      have hdistinct' : ∀ g ∈ fs, DistinctRows (written g) := fun g hg => hdistinct g (by simp [hg])
      have hnext : start ≤ base + (written f).length := by omega
      rw [layout] at hlast ⊢
      rw [List.flatMap_cons]
      by_cases hmeets : 0 < (written f).length ∧ start ≤ base + (written f).length - 1 ∧ base ≤ stop
      · rcases lt_or_ge ((min (stop + 1 - base).toNat (written f).length - 1) / rowBytes) (2 ^ 31)
          with hlt | hwrap
        · exact segment_delivers hstep hstep' (Ne.symm hz.1) hbase hmeets hlt _
        · have hskip : segmentPlan start stop step (f, base, ↑(written f).length) = [] := by
            rw [Nat.le_div_iff_mul_le rowBytes_pos] at hwrap
            have hpos := rowBytes_pos
            exact segmentPlan_skipped (hdistinct f (by simp)) (by omega) hbase
          rw [hskip, List.nil_append]
          refine ih hz.2 hdistinct' hnext ?_
          obtain ⟨last, hmem, hlt⟩ := hlast
          rw [lastRows_cons_of_meets hmeets] at hmem
          rcases List.mem_cons.mp hmem with rfl | hmem
          · omega
          · exact ⟨last, hmem, hlt⟩
      · rw [lastRows_cons_of_misses hmeets] at hlast
        rw [segmentPlan_of_misses (by simpa using hmeets), List.nil_append]
        exact ih hz.2 hdistinct' hnext hlast

/-- Out of order, some contents tell the bytes that are skipped from those sent instead. -/
theorem skips_of_disorder (hrange : start ≤ stop) (hstep : 0 < step) (hstep' : step ≤ 2 ^ 31 - 1)
    (hnodup : files.Nodup) (hdistinct : ∀ f ∈ files, DistinctRows (written f)) (base : ℤ)
    (hdisorder : ¬ WrapsLast (lastRows start stop (layout written base files))) :
    ∃ z ∈ files, ∃ sent s t,
      (piecesOutcome start stop (spawnAll (marked written z))
        ((layout written base files).flatMap (segmentPlan start stop step))).1 = sent ++ 1 :: s ∧
      sliceOf (files.flatMap (marked written z)) (start - base).toNat (stop + 1 - base).toNat =
        sent ++ 0 :: t := by
  induction files generalizing base with
  | nil => exact absurd trivial hdisorder
  | cons f fs ih =>
      obtain ⟨hf, hnodup'⟩ := List.nodup_cons.mp hnodup
      have hstart : (start - base).toNat - (written f).length =
          (start - (base + (written f).length)).toNat := by omega
      have hstop : (stop + 1 - base).toNat - (written f).length =
          (stop + 1 - (base + (written f).length)).toNat := by omega
      have hdistinct' : ∀ g ∈ fs, DistinctRows (written g) := fun g hg => hdistinct g (by simp [hg])
      rw [layout] at hdisorder ⊢
      simp only [List.flatMap_cons, sliceOf_append, length_marked, hstart, hstop]
      by_cases hmeets : 0 < (written f).length ∧ start ≤ base + (written f).length - 1 ∧ base ≤ stop
      · rw [lastRows_cons_of_meets hmeets] at hdisorder
        simp only [WrapsLast, not_or, not_and] at hdisorder
        obtain ⟨hrest, hstops, hwraps⟩ := hdisorder
        rcases lt_or_ge ((min (stop + 1 - base).toNat (written f).length - 1) / rowBytes) (2 ^ 31 - 1)
          with hlt | hge
        · obtain ⟨z, hz, sent, s, t, hout, hslice⟩ := ih hnodup' hdistinct' _ (hrest hlt)
          have hwhole := @segment_whole (marked written z) start stop base step f hrange hstep hstep'
            (by rwa [length_marked])
          rw [length_marked] at hwhole
          refine ⟨z, List.mem_cons_of_mem _ hz,
            sliceOf (marked written z f) (start - base).toNat (stop + 1 - base).toNat ++ sent, s, t,
            ?_, ?_⟩
          · rw [piecesOutcome_append, hwhole, if_pos rfl, hout, List.append_assoc]
          · rw [hslice, List.append_assoc]
        · -- the rows of `f` wrap, and a later segment is read in their place
          have hwrap : 2 ^ 31 ≤ (min (stop + 1 - base).toNat (written f).length - 1) / rowBytes := by
            omega
          have hlater := hwraps hwrap
          push Not at hlater
          have hsilent := @segment_silent (marked written f) start stop base step f hrange
            (distinctRows_marked (hdistinct f (by simp))) (by rwa [length_marked])
          rw [length_marked] at hsilent
          obtain ⟨s, hs⟩ := @layout_delivers written fs start stop
            (base + (written f).length) step f hstep hstep' hf hdistinct' (by omega) hlater
          obtain ⟨t, ht⟩ := @sliceOf_marked written start stop base f f _ rfl hrange hmeets
          rw [if_pos rfl] at ht
          refine ⟨f, List.mem_cons_self, [], s, _, ?_, by rw [ht]; rfl⟩
          rw [piecesOutcome_append, hsilent, if_pos rfl, hs]
      · rw [lastRows_cons_of_misses hmeets] at hdisorder
        obtain ⟨z, hz, sent, s, t, hout, hslice⟩ := ih hnodup' hdistinct' _ hdisorder
        refine ⟨z, List.mem_cons_of_mem _ hz, sent, s, t, ?_, ?_⟩
        · rw [segmentPlan_of_misses (by simpa using hmeets), List.nil_append, hout]
        · rw [hslice, sliceOf_eq_nil (by rw [length_marked]; omega), List.nil_append]

/-- Out of order, the stream sends other bytes in place of those it skips. -/
theorem not_streamsRange_of_disorder {m : Meta} (h : m.Describes written files)
    (hnodup : files.Nodup) (hdistinct : ∀ f ∈ files, DistinctRows (written f)) (hrange : start ≤ stop)
    (hstep : 1 ≤ step) (hdisorder : ¬ WrapsLast (lastRows start stop m.segments)) :
    ¬ StreamsRange m files start stop step := by
  intro hstreams
  rw [h.segments_eq] at hdisorder
  obtain ⟨z, -, sent, s, t, hout, hslice⟩ := @skips_of_disorder written files start stop
    (min step (2 ^ 31 - 1)) hrange (by omega) (min_le_right _ _) hnodup hdistinct 0 hdisorder
  have hmarked : m.Describes (marked written z) files := by
    refine ⟨by rw [h.segments_eq, layout_marked], ?_⟩
    rw [h.size_eq, List.length_flatMap, List.length_flatMap]
    simp
  have hplan : plan m start stop step =
      (layout written 0 files).flatMap (segmentPlan start stop (min step (2 ^ 31 - 1))) := by
    rw [plan_clamp, plan_eq, h.segments_eq]
  have hgenuine : ∀ p ∈ plan m start stop step,
      p.Genuine (marked written z) (arrived (spawnAll (marked written z) p)) := by
    rw [hplan, ← layout_marked z]
    exact genuine_spawnAll hrange fun f hf => distinctRows_marked (hdistinct f hf)
  have hdelivered := hstreams (marked written z) (spawnAll (marked written z)) (fun _ => true) 1 1
    hmarked (fun f hf => distinctRows_marked (hdistinct f hf)) hgenuine one_pos one_pos
  have hpre := hdelivered.isPrefix
  cases hrun : streamSpanOf step 1 1 (fun _ => true) (spawnAll (marked written z)) m start stop with
  | mk out e =>
      obtain ⟨-, hsent, -, -⟩ :=
        streamSpanOf_spec one_pos one_pos hrun fun p hp => (hgenuine p hp).nodup
      -- chunks of one byte hold nothing back
      have hall := hsent.isPrefix.eq_of_length
        (le_antisymm hsent.isPrefix.length_le (Nat.lt_succ_iff.mp hsent.held_lt))
      rw [sub_zero, sub_zero] at hslice
      rw [hrun, hall, hplan, hout, hslice, List.prefix_append_right_inj, List.cons_prefix_cons] at hpre
      exact absurd hpre.1 (by decide)

end Necessary

/-! ## The exact condition -/

/-- A range is streamed or reported, whatever happens, exactly when no segment whose last
needed row wraps comes before one whose last needed row does not. -/
theorem stream_span_delivers_iff {m : Meta} {written : ℤ → Bytes} {files : List ℤ}
    {start stop : ℤ} {step : ℕ} (h : m.Describes written files) (hnodup : files.Nodup)
    (hdistinct : ∀ f ∈ files, DistinctRows (written f)) (h0 : 0 ≤ start) (hrange : start ≤ stop)
    (hsize : stop < m.size) (hstep : 1 ≤ step) :
    StreamsRange m files start stop step ↔ WrapsLast (lastRows start stop m.segments) := by
  constructor
  · intro hstreams
    by_contra hdisorder
    exact not_streamsRange_of_disorder h hnodup hdistinct hrange hstep hdisorder hstreams
  · exact streamsRange_of_wrapsLast h0 hrange hsize hstep

/-- Two parts of one byte each. -/
def twoBytes : Meta := ⟨2, [], 0, 1, some [1, 2], some [1, 2]⟩

theorem stream_span_delivers_iff_twoBytes :
    StreamsRange twoBytes [1, 2] 0 1 partRows ↔ WrapsLast (lastRows 0 1 twoBytes.segments) :=
  @stream_span_delivers_iff twoBytes (fun f => [f.toNat.toUInt8]) [1, 2] 0 1 partRows
    ⟨by decide, by decide⟩ (by decide)
    (fun _ _ => by simp [DistinctRows, blockCount, rowBytes_eq]) (by decide) (by decide) (by decide)
    partRows_pos

/-- A part of `2 ^ 31` full rows and one byte, then a part of one output chunk. -/
def longPart : Meta :=
  ⟨2 ^ 31 * 8120 + 1 + 262144, [], 0, 1, some [1, 2],
    some [2 ^ 31 * 8120 + 1, 2 ^ 31 * 8120 + 1 + 262144]⟩

/-- With all rows there and no failure, the long part is skipped without an error, and the bytes
of the part after it are sent in its place. -/
theorem longPart_skipped :
    ∃ (written : ℤ → Bytes) (spawn : Piece → Fetch),
      longPart.Describes written [1, 2] ∧ (∀ f ∈ [(1 : ℤ), 2], DistinctRows (written f)) ∧
      (∀ p ∈ plan longPart 0 (longPart.size - 1) partRows,
        p.Genuine written (arrived (spawn p))) ∧
      ¬ Delivered longPart [1, 2] written 0 (longPart.size - 1) partRows spawn (fun _ => true)
        (streamSpan (fun _ => true) spawn longPart 0 (longPart.size - 1)) := by
  -- a first part of zeros, and then ones
  obtain ⟨written, hfirst, hsecond⟩ : ∃ written : ℤ → Bytes,
      written 1 = List.replicate (2 ^ 31 * 8120 + 1) 0 ∧ written 2 = List.replicate 262144 1 :=
    ⟨fun f => if f = 1 then List.replicate (2 ^ 31 * 8120 + 1) 0 else List.replicate 262144 1,
      rfl, rfl⟩
  have hlen : (written 1).length = 2 ^ 31 * 8120 + 1 := by rw [hfirst, List.length_replicate]
  have hlen' : (written 2).length = 262144 := by rw [hsecond, List.length_replicate]
  have hdescribes : longPart.Describes written [1, 2] := by
    constructor
    · simp [layout, hlen, hlen', longPart, Meta.segments, segmentsFrom]
    · simp [hlen, hlen', longPart]
  have hdistinct : ∀ f ∈ [(1 : ℤ), 2], DistinctRows (written f) := by
    have hone : DistinctRows (written 1) := by
      rw [DistinctRows, hlen, blockCount, rowBytes_eq]
      norm_num
    have htwo : DistinctRows (written 2) := by
      rw [DistinctRows, hlen', blockCount, rowBytes_eq]
      norm_num
    simpa using ⟨hone, htwo⟩
  have hsize : longPart.size = 2 ^ 31 * 8120 + 1 + 262144 := rfl
  have hfew : FewRows (written 2) := by
    rw [FewRows, hlen', blockCount, rowBytes_eq]
    norm_num
  have hgenuine : ∀ p ∈ plan longPart 0 (longPart.size - 1) partRows,
      p.Genuine written (arrived (spawnAll written p)) := by
    rw [plan_eq, hdescribes.segments_eq]
    exact genuine_spawnAll (by omega) hdistinct
  refine ⟨written, spawnAll written, hdescribes, hdistinct, hgenuine, fun hdelivered => ?_⟩
  have hrows : ∀ p : Piece, p.fileId = 2 → p.Inside written →
      ∃ rows : List ChunkRow, rows.Perm (p.rows written) ∧ spawnAll written p = rows.map .ok :=
    fun p _ hin => ⟨_, .refl _, by rw [← numberedRows_eq_rows hin, spawnAll]⟩
  obtain ⟨head, rest, e, hrun, hne, hhead⟩ := streamSpan_wrapped hdescribes
    (by rw [hlen, rowBytes_eq]; norm_num) (hdistinct 1 (by simp)) (by rw [hlen']; rfl) hfew hrows
  have hpre := hdelivered.isPrefix
  have hall := hdescribes.size_eq
  rw [hrun, Int.toNat_zero, sliceOf_full (by omega), List.flatMap_cons] at hpre
  obtain ⟨x, head, rfl⟩ := List.exists_cons_of_ne_nil hne
  have hx : x = 1 := List.eq_of_mem_replicate (hsecond ▸ hhead.subset (List.mem_cons_self ..))
  cases hbody : written 1 with
  | nil => simp [hbody] at hlen
  | cons y body =>
      have hy : y = 0 := List.eq_of_mem_replicate (hfirst ▸ hbody ▸ List.mem_cons_self ..)
      rw [hbody, List.flatten_cons, List.cons_append, List.cons_append, List.cons_prefix_cons, hx,
        hy] at hpre
      exact absurd hpre.1 (by decide)

end Pgvs3
