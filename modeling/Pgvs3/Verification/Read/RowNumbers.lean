import Pgvs3.Verification.Ingest.RoundTrip
import Pgvs3.Verification.Read.Outcome

/-! # Row numbers in 32 bits

The writer, the plan and the reader number the rows of a file independently, each in 32-bit
arithmetic. They agree exactly for files of fewer than `2 ^ 31` rows. -/

namespace Pgvs3

open Library

/-! ## Planning inside one file -/

/-- File `fileId` begins at offset `base` of the object that `m` describes. -/
def Placed (m : Meta) (written : ℤ → Bytes) (fileId base : ℤ) : Prop :=
  ∃ before after, m.Describes written (before ++ fileId :: after) ∧
    base = (before.flatMap written).length

section Layout

variable {written : ℤ → Bytes} {files : List ℤ} {start stop base : ℤ} {step : ℕ}

theorem layout_append (files' : List ℤ) :
    layout written base (files ++ files') =
      layout written base files ++ layout written (base + (files.flatMap written).length) files' := by
  induction files generalizing base with
  | nil => simp [layout]
  | cons f fs ih =>
      rw [List.cons_append, layout, layout, ih, List.cons_append, List.flatMap_cons,
        List.length_append, Nat.cast_add, Int.add_assoc]

theorem layout_before (h : base + (files.flatMap written).length ≤ start) :
    (layout written base files).flatMap (segmentPlan start stop step) = [] := by
  induction files generalizing base with
  | nil => rfl
  | cons f fs ih =>
      rw [List.flatMap_cons, List.length_append] at h
      push_cast at h
      rw [layout, List.flatMap_cons, ih (by omega),
        segmentPlan_of_misses (fun hm => by have := hm.2.1; dsimp only at this; omega),
        List.nil_append]

theorem Placed.plan_eq {m : Meta} {fileId : ℤ} (h : Placed m written fileId base)
    (hstart : base ≤ start) (hstop : stop < base + (written fileId).length) :
    plan m start stop step = segmentPlan start stop step (fileId, base, (written fileId).length) := by
  obtain ⟨before, after, hdescribes, rfl⟩ := h
  rw [Pgvs3.plan_eq, hdescribes.segments_eq, layout_append, List.flatMap_append,
    layout_before (by omega), List.nil_append, layout, List.flatMap_cons, layout_after (by omega),
    List.append_nil, Int.zero_add]

end Layout

/-! ## What the stored rows of a file are for -/

/-- The query of `p` returns its rows among `rows`, in any order. -/
def Answers (rows : List ChunkRow) (p : Piece) (fetch : Fetch) : Prop :=
  ∃ got : List ChunkRow,
    got.Perm (rows.filter fun r => r.fileId = p.fileId ∧ p.lo ≤ r.no ∧ r.no ≤ p.hi) ∧
      fetch = got.map .ok

/-- A range of bytes inside file `fileId`, which begins at `base` in the object of `m`. -/
structure FileRange (m : Meta) (written : ℤ → Bytes) (fileId base start stop : ℤ) : Prop where
  placed : Placed m written fileId base
  size_lt : m.size < 2 ^ 63
  base_le : base ≤ start
  ordered : start ≤ stop
  inside : stop < base + (written fileId).length

/-- The `rows` written for `body` are numbered from 0, the plan finds the rows of every range
and `rowSlice` its bytes in them, and reading delivers it. -/
structure Numbered (fileId : ℤ) (body : Bytes) (rows : List ChunkRow) : Prop where
  numbers : rows.map (·.no) = (List.range rows.length).map Nat.cast
  planned : ∀ (m : Meta) (written : ℤ → Bytes) (base start stop : ℤ) (step : ℕ),
    FileRange m written fileId base start stop → written fileId = body → 1 ≤ step →
    (plan m start stop step).head?.map (·.lo) = some ((start - base) / rowBytes) ∧
      (plan m start stop step).getLast?.map (·.hi) = some ((stop - base) / rowBytes)
  sliced : ∀ (m : Meta) (written : ℤ → Bytes) (base start stop : ℤ) (i : ℕ) (r : ChunkRow),
    FileRange m written fileId base start stop → written fileId = body → rows[i]? = some r →
    (rowSlice base r.no r.data start stop).getD [] =
      sliceOf body (max (start - base).toNat (i * rowBytes))
        (min (stop + 1 - base).toNat ((i + 1) * rowBytes))
  readBack : ∀ (m : Meta) (written : ℤ → Bytes) (base start stop : ℤ) (spawn : Piece → Fetch),
    FileRange m written fileId base start stop → written fileId = body →
    (∀ p, p.fileId = fileId → Answers rows p (spawn p)) →
    ∃ out, streamSpan (fun _ => true) spawn m start stop = (out, none) ∧
      out.flatten = sliceOf body (start - base).toNat (stop + 1 - base).toNat

/-- The ingest of `pushes` sends rows that are numbered soundly. -/
def NumbersRows (sha256 : Bytes → Bytes) (fileId : ℤ) (pushes : List Bytes) : Prop :=
  ∃ rows, copyDecode (copyStream sha256 fileId pushes).1 = some rows ∧
    Numbered fileId pushes.flatten rows

/-! ## Fewer than `2 ^ 31` rows -/

section Few

variable {m : Meta} {written : ℤ → Bytes} {fileId base start stop : ℤ}

theorem FileRange.rows_eq (h : FileRange m written fileId base start stop) :
    (((start - base).toNat / rowBytes : ℕ) : ℤ) = (start - base) / rowBytes ∧
      (((min (stop + 1 - base).toNat (written fileId).length - 1) / rowBytes : ℕ) : ℤ) =
        (stop - base) / rowBytes := by
  obtain ⟨-, -, hbase, hrange, hinside⟩ := h
  have hstart : start - base = ((start - base).toNat : ℤ) := by omega
  have hstop : stop - base =
      ((min (stop + 1 - base).toNat (written fileId).length - 1 : ℕ) : ℤ) := by omega
  rw [hstop]
  constructor
  · conv_rhs => rw [hstart]
    norm_cast
  · norm_cast

theorem FileRange.lastRow_lt (h : FileRange m written fileId base start stop)
    (hfew : FewRows (written fileId)) :
    (min (stop + 1 - base).toNat (written fileId).length - 1) / rowBytes < 2 ^ 31 := by
  obtain ⟨-, -, hbase, hrange, hinside⟩ := h
  refine lt_trans ?_ hfew
  rw [lt_blockCount_iff rowBytes_pos]
  exact (Nat.div_mul_le_self _ _).trans_lt (by omega)

theorem FileRange.plan_ends (h : FileRange m written fileId base start stop)
    (hfew : FewRows (written fileId)) {step : ℕ} (hstep : 1 ≤ step) :
    (plan m start stop step).head?.map (·.lo) = some ((start - base) / rowBytes) ∧
      (plan m start stop step).getLast?.map (·.hi) = some ((stop - base) / rowBytes) := by
  obtain ⟨hfirst, hlast⟩ := h.rows_eq
  have hlt := h.lastRow_lt hfew
  obtain ⟨hplaced, -, hbase, hrange, hinside⟩ := h
  have hle : (start - base).toNat / rowBytes ≤
      (min (stop + 1 - base).toNat (written fileId).length - 1) / rowBytes :=
    Nat.div_le_div_right (by omega)
  rw [hplaced.plan_eq hbase hinside, segmentPlan_of_meets _ _ (by omega),
    asI32_of_lt (Int.natCast_nonneg _) (by omega), asI32_of_lt (Int.natCast_nonneg _) (by omega),
    partRanges_clamp, ← hfirst, ← hlast]
  have hends := @partRanges_ends _ _ (min step (2 ^ 31 - 1)) hle hlt (by omega) (min_le_right _ _)
  rw [List.head?_map, List.getLast?_map, Option.map_map, Option.map_map]
  exact hends

theorem rowsOf_getElem? {body : Bytes} (h : blockCount rowBytes body.length ≤ 2 ^ 31) {i : ℕ}
    {r : ChunkRow} (hr : (rowsOf fileId body)[i]? = some r) :
    r = ⟨fileId, i, block rowBytes body i⟩ := by
  rw [rowsOf_eq h, List.getElem?_map] at hr
  obtain ⟨j, hj, rfl⟩ := Option.map_eq_some_iff.mp hr
  obtain ⟨-, rfl⟩ := List.getElem?_eq_some_iff.mp hj
  simp

theorem nodup_rowsOf {body : Bytes} (h : blockCount rowBytes body.length ≤ 2 ^ 31) :
    ((rowsOf fileId body).map (·.no)).Nodup := by
  rw [rowsOf_eq h, List.map_map]
  exact List.nodup_range.map Nat.cast_injective

theorem Answers.perm_rows {p : Piece} {fetch : Fetch} (h : Answers (rowsOf fileId (written fileId)) p fetch)
    (hfew : FewRows (written fileId)) (hf : p.fileId = fileId) (hin : p.Inside written) :
    ∃ rows : List ChunkRow, rows.Perm (p.rows written) ∧ fetch = rows.map .ok := by
  obtain ⟨got, hperm, rfl⟩ := h
  refine ⟨got, hperm.trans ?_, rfl⟩
  have hnodup := (@nodup_rowsOf fileId _ hfew.le).of_map
  refine (List.perm_ext_iff_of_nodup (hnodup.filter _) Piece.nodup_rows.of_map).mpr fun r => ?_
  rw [hin.mem_rows (hf ▸ hfew.distinct), hf, List.mem_filter, decide_eq_true_eq]
  constructor
  · rintro ⟨hmem, -, hlo, hhi⟩
    exact ⟨hmem, hlo, hhi⟩
  · rintro ⟨hmem, hlo, hhi⟩
    exact ⟨hmem, (fileId_of_mem_rowsOf hmem), hlo, hhi⟩

theorem FileRange.read (h : FileRange m written fileId base start stop)
    (hfew : FewRows (written fileId)) {spawn : Piece → Fetch}
    (hspawn : ∀ p, p.fileId = fileId → Answers (rowsOf fileId (written fileId)) p (spawn p)) :
    ∃ out, streamSpan (fun _ => true) spawn m start stop = (out, none) ∧
      out.flatten = sliceOf (written fileId) (start - base).toNat (stop + 1 - base).toNat := by
  obtain ⟨hplaced, -, hbase, hrange, hinside⟩ := h
  have hplan := @Placed.plan_eq written start stop base partRows m fileId hplaced hbase hinside
  have hout := @segment_outcome_full written start stop partRows spawn fileId base hrange
    partRows_pos partRows_le
    ((min_le_right _ _).trans hfew.length_le_pred) fun p _ hf hin => (hspawn p hf).perm_rows hfew hf hin
  have hnodup : ∀ p ∈ plan m start stop partRows, ((arrived (spawn p)).map (·.no)).Nodup := by
    intro p hp
    rw [hplan] at hp
    obtain ⟨got, hperm, heq⟩ := hspawn p (segmentPlan_fileId p hp)
    rw [heq, arrived_map_ok]
    refine (hperm.map _).nodup_iff.mpr ?_
    exact (nodup_rowsOf hfew.le).sublist (List.filter_sublist.map _)
  cases hrun : streamSpan (fun _ => true) spawn m start stop with
  | mk out e =>
      obtain ⟨-, -, hiff, hall⟩ := streamSpan_spec hrun hnodup
      rw [hplan, hout] at hiff hall
      have he : e = none := by
        refine hiff.mpr ⟨rfl, ?_⟩
        rw [length_sliceOf]
        omega
      exact ⟨out, by rw [he], hall he⟩

theorem numbered_of_few {body : Bytes} (hfew : FewRows body) :
    Numbered fileId body (rowsOf fileId body) where
  numbers := by
    rw [rowsOf_eq hfew.le, List.map_map, List.length_map, List.length_range]
    rfl
  planned := by
    rintro m written base start stop step h rfl hstep
    exact h.plan_ends hfew hstep
  sliced := by
    rintro m written base start stop i r - rfl hr
    rw [rowsOf_getElem? hfew.le hr]
    exact Piece.slice_block ⟨fileId, base, 0, 0⟩ start stop fileId (written fileId) i
  readBack := by
    rintro m written base start stop spawn h rfl hspawn
    exact h.read hfew hspawn

end Few

/-! ## `2 ^ 31` rows or more -/

def soleFile (fileId : ℤ) (body : Bytes) : Meta := ⟨body.length, [], 0, fileId, none, none⟩

theorem placed_soleFile (fileId : ℤ) (body : Bytes) :
    Placed (soleFile fileId body) (fun _ => body) fileId 0 :=
  ⟨[], [], ⟨rfl, by simp [soleFile]⟩, rfl⟩

/-- The last row of a file of `2 ^ 31` rows cannot be read. -/
theorem not_readBack_lastRow {fileId : ℤ} {body : Bytes}
    (h : blockCount rowBytes body.length = 2 ^ 31) :
    ¬ Numbered fileId body (rowsOf fileId body) := by
  intro hnumbered
  have hle : body.length ≤ 2 ^ 31 * rowBytes := by
    by_contra hlt
    have := (lt_blockCount_iff rowBytes_pos).mpr (not_le.mp hlt)
    omega
  have hlt : (2 ^ 31 - 1) * rowBytes < body.length :=
    (lt_blockCount_iff rowBytes_pos).mp (by omega)
  set x : ℕ := (2 ^ 31 - 1) * rowBytes with hx
  have hrange : FileRange (soleFile fileId body) (fun _ => body) fileId 0 x x :=
    ⟨placed_soleFile fileId body, by
      rw [rowBytes_eq] at hle
      simp only [soleFile]
      omega, by omega, le_rfl, by omega⟩
  set spawn : Piece → Fetch := fun p => ((rowsOf fileId body).filter fun r =>
    r.fileId = p.fileId ∧ p.lo ≤ r.no ∧ r.no ≤ p.hi).map .ok with hspawn
  obtain ⟨out, hrun, -⟩ := hnumbered.readBack _ _ _ _ _ spawn hrange rfl
    fun p _ => ⟨_, List.Perm.refl _, rfl⟩
  have hplan : plan (soleFile fileId body) x x partRows =
      [⟨fileId, 0, 2 ^ 31 - 1, 2 ^ 31 - 1⟩] := by
    have hfirst : ((x : ℤ) - 0).toNat / rowBytes = 2 ^ 31 - 1 := by
      rw [sub_zero, Int.toNat_natCast, hx, Nat.mul_div_cancel _ rowBytes_pos]
    have hlast : (min ((x : ℤ) + 1 - 0).toNat body.length - 1) / rowBytes = 2 ^ 31 - 1 := by
      have hmin : min ((x : ℤ) + 1 - 0).toNat body.length - 1 = x := by omega
      rw [hmin, hx, Nat.mul_div_cancel _ rowBytes_pos]
    rw [hrange.placed.plan_eq (by omega) (by omega), segmentPlan_of_meets _ _ (by omega), hfirst,
      hlast, asI32_of_lt (by norm_num) (by norm_num),
      partRanges_single (by norm_num) (by norm_num)]
    rfl
  have hnodup : ∀ p ∈ plan (soleFile fileId body) x x partRows,
      ((arrived (spawn p)).map (·.no)).Nodup := by
    intro p _
    rw [hspawn, arrived_map_ok]
    exact (nodup_rowsOf h.le).sublist (List.filter_sublist.map _)
  obtain ⟨-, -, hiff, -⟩ := streamSpan_spec hrun hnodup
  have hdone := (hiff.mp rfl).1
  rw [hplan, piecesOutcome_cons_of_incomplete (Piece.outcome_last le_rfl rfl _)] at hdone
  cases hdone

theorem not_numbered_of_many {fileId : ℤ} {body : Bytes} (h : ¬ FewRows body) :
    ¬ Numbered fileId body (rowsOf fileId body) := by
  rcases eq_or_lt_of_le (not_lt.mp h) with heq | hlt
  · exact not_readBack_lastRow heq.symm
  · -- row `2 ^ 31` is numbered `-2 ^ 31`
    intro hnumbered
    have hlen : (rowsOf fileId body).length = blockCount rowBytes body.length := by
      simp [rowsOf, rowsFrom]
    have hwritten : ((rowsOf fileId body).map (·.no))[2 ^ 31]? = some (asI32 ↑(2 ^ 31 : ℕ)) := by
      rw [rowsOf, rowsFrom, List.getElem?_map, List.getElem?_map, List.getElem?_range hlt,
        Option.map_some, Option.map_some, Nat.zero_add]
    rw [hnumbered.numbers, hlen, List.getElem?_map, List.getElem?_range hlt, Option.map_some,
      asI32_of_ge (by norm_num) (by norm_num)] at hwritten
    have hno := Option.some.inj hwritten
    norm_num at hno

/-- Rows are numbered soundly exactly in files of fewer than `2 ^ 31` rows. -/
theorem row_numbers_sound_iff (sha256 : Bytes → Bytes) {fileId : ℤ} (hlo : -2 ^ 63 ≤ fileId)
    (hhi : fileId < 2 ^ 63) (pushes : List Bytes) :
    NumbersRows sha256 fileId pushes ↔ FewRows pushes.flatten := by
  obtain ⟨hdecode, -⟩ := copyStream_decodes sha256 hlo hhi pushes
  unfold NumbersRows
  rw [hdecode]
  constructor
  · rintro ⟨rows, heq, hnumbered⟩
    obtain rfl := Option.some.inj heq
    by_contra hmany
    exact not_numbered_of_many hmany hnumbered
  · intro hfew
    exact ⟨_, rfl, numbered_of_few hfew⟩

/-- A full row and one byte, pushed across the boundary. -/
theorem row_numbers_sound_iff_twoRows : NumbersRows id 7 [List.replicate 8119 1, [2, 3]] :=
  (row_numbers_sound_iff id (by norm_num) (by norm_num) _).mpr (by decide +kernel)

/-- A file of exactly `2 ^ 31` full rows is written, but its last row is not read back. -/
theorem longFile_not_readable :
    ¬ NumbersRows id 7 [List.replicate (2 ^ 31 * rowBytes) 0] := by
  obtain ⟨hdecode, -⟩ := @copyStream_decodes id 7 (by norm_num) (by norm_num)
    [List.replicate (2 ^ 31 * rowBytes) 0]
  rintro ⟨rows, heq, hnumbered⟩
  rw [hdecode] at heq
  obtain rfl := Option.some.inj heq
  refine not_readBack_lastRow ?_ hnumbered
  have hcount := blockCount_mul_add rowBytes_pos (2 ^ 31) 0
  rw [blockCount_zero rowBytes_pos] at hcount
  simpa using hcount

end Pgvs3
