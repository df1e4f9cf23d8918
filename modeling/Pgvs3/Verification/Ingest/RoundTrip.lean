import Pgvs3.Verification.Read.Plan

/-! # COPY framing round trip

The stream of an ingest, read by the format of PostgreSQL, is the body cut into rows,
wherever the body was cut into pushes. -/

namespace Pgvs3

open Library

/-- `d 0, …, d (k - 1)` is `body` in full rows, but for a last one that may be shorter. -/
structure RowCut (body : Bytes) (k : ℕ) (d : ℕ → Bytes) : Prop where
  full : ∀ i, i + 1 < k → (d i).length = rowBytes
  last : ∀ i, i + 1 = k → 1 ≤ (d i).length ∧ (d i).length ≤ rowBytes
  joined : (List.range k).flatMap d = body
  empty : body = [] → k = 0

theorem rowCut_block (body : Bytes) :
    RowCut body (blockCount rowBytes body.length) (block rowBytes body) where
  full i hi := length_block_of_lt rowBytes_pos hi
  last i hi := ⟨length_block_pos rowBytes_pos (by omega), length_block_le _ _⟩
  joined := flatMap_block rowBytes_pos body
  empty h := by rw [h, List.length_nil, blockCount_zero rowBytes_pos]

/-- Row numbers up to `2 ^ 31 - 1` are written as they are. -/
theorem rowsOf_eq {fileId : ℤ} {body : Bytes} (h : blockCount rowBytes body.length ≤ 2 ^ 31) :
    rowsOf fileId body = (List.range (blockCount rowBytes body.length)).map fun (i : ℕ) =>
      ⟨fileId, i, block rowBytes body i⟩ := by
  unfold rowsOf rowsFrom
  refine List.map_congr_left fun i hi => ?_
  have hlt : i < 2 ^ 31 := (List.mem_range.mp hi).trans_le h
  rw [Nat.zero_add, asI32_of_lt (by omega) (by omega)]

/-- The ingest of `pushes` as file `fileId` sends the body in numbered rows, reports its size
and hash, and never holds a full row back. -/
structure RoundTrips (sha256 : Bytes → Bytes) (fileId : ℤ) (pushes : List Bytes) : Prop where
  decodes : ∃ (k : ℕ) (d : ℕ → Bytes), RowCut pushes.flatten k d ∧
    copyDecode (copyStream sha256 fileId pushes).1 =
      some ((List.range k).map fun (i : ℕ) => ⟨fileId, i, d i⟩)
  reports : (copyStream sha256 fileId pushes).2 =
    (↑pushes.flatten.length, sha256 pushes.flatten)
  pending_lt : ∀ n, ((RowFramer.new fileId).pushAll (pushes.take n)).2.pending.length < rowBytes

/-- Every body of fewer than `2 ^ 31` rows round-trips, whatever its pushes. -/
theorem copy_stream_round_trips (sha256 : Bytes → Bytes) {fileId : ℤ} (hlo : -2 ^ 63 ≤ fileId)
    (hhi : fileId < 2 ^ 63) (pushes : List Bytes) (hfew : FewRows pushes.flatten) :
    RoundTrips sha256 fileId pushes := by
  obtain ⟨hdecode, hreport⟩ := copyStream_decodes sha256 hlo hhi pushes
  refine ⟨⟨_, _, rowCut_block pushes.flatten, ?_⟩, hreport, fun n => ?_⟩
  · rw [hdecode, rowsOf_eq hfew.le]
  · exact ((RowFramer.after_new fileId).pushAll (pushes.take n)).pending_lt

/-- The third push crosses the end of the first row. -/
theorem copy_stream_round_trips_threePushes :
    RoundTrips id 7 [List.replicate 8119 1, [], [2, 3, 4]] :=
  copy_stream_round_trips id (by norm_num) (by norm_num) _ (by decide +kernel)

end Pgvs3
