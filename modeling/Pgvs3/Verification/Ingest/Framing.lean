import Pgvs3.Model.Ingest

/-! # The COPY stream decodes to the rows of the body

However a body is cut into pushes, the stream that the framer sends decodes to the
8120-byte blocks of the whole body. -/

namespace Pgvs3

open Library

theorem rowBytes_eq : rowBytes = 8120 := by
  unfold rowBytes
  rfl

theorem rowBytes_pos : 0 < rowBytes := by
  rw [rowBytes_eq]
  norm_num

/-! ## 32-bit row numbers -/

theorem asI32_of_lt {x : ℤ} (h0 : 0 ≤ x) (h : x < 2 ^ 31) : asI32 x = x := by
  unfold asI32
  exact Int.bmod_eq_of_le (by norm_num; omega) (by norm_num; omega)

theorem asI32_add_asI32 (x y : ℤ) : asI32 (asI32 x + asI32 y) = asI32 (x + y) := by
  unfold asI32
  rw [Int.bmod_add_bmod, Int.add_bmod_bmod]

theorem asI32_mem (x : ℤ) : -2 ^ 31 ≤ asI32 x ∧ asI32 x < 2 ^ 31 := by
  have hlo := Int.le_bmod (x := x) (m := 2 ^ 32) (by norm_num)
  have hhi := Int.bmod_lt (x := x) (m := 2 ^ 32) (by norm_num)
  unfold asI32
  norm_num at hlo hhi ⊢
  omega

/-! ## Big-endian integers -/

@[simp] theorem length_beBytes (width : ℕ) (x : ℤ) : (beBytes width x).length = width := by
  induction width with
  | zero => rfl
  | succ width ih => simp [beBytes, ih]

theorem beNat_append_singleton (bs : Bytes) (b : UInt8) :
    beNat (bs ++ [b]) = beNat bs * 256 + b.toNat := by
  simp [beNat]

theorem beNat_cons (b : UInt8) (bs : Bytes) :
    beNat (b :: bs) = b.toNat * 256 ^ bs.length + beNat bs := by
  induction bs using List.reverseRecOn with
  | nil => simp [beNat]
  | append_singleton bs c ih =>
      rw [← List.cons_append, beNat_append_singleton, ih, beNat_append_singleton,
        List.length_append, List.length_singleton, pow_succ]
      ring

theorem beNat_beBytes (width : ℕ) (x : ℤ) :
    (beNat (beBytes width x) : ℤ) = x % 256 ^ width := by
  induction width with
  | zero => simp [beBytes, beNat]
  | succ width ih =>
      have hpos : (0 : ℤ) < 256 ^ width := by positivity
      have hdigit : 0 ≤ x / 256 ^ width % 256 := Int.emod_nonneg _ (by norm_num)
      have hlt : x / 256 ^ width % 256 < 256 := Int.emod_lt_of_pos _ (by norm_num)
      have hbyte : ((UInt8.ofNat (x / 256 ^ width % 256).toNat).toNat : ℤ) =
          x / 256 ^ width % 256 := by
        rw [UInt8.toNat_ofNat', Nat.mod_eq_of_lt (by omega)]
        omega
      rw [beBytes, beNat_cons, length_beBytes]
      push_cast
      rw [hbyte, ih, pow_succ]
      generalize (256 : ℤ) ^ width = p at *
      have hx := Int.emod_add_mul_ediv x p
      have hq := Int.emod_add_mul_ediv (x / p) 256
      have hr := Int.emod_nonneg x hpos.ne'
      have hr' := Int.emod_lt_of_pos x hpos
      generalize x / p % 256 = d at *
      generalize x / p / 256 = q at *
      generalize x % p = r at *
      have hsum : x = d * p + r + p * 256 * q := by rw [← hx, ← hq]; ring
      rw [hsum, Int.add_mul_emod_self_left, Int.emod_eq_of_lt (by nlinarith) (by nlinarith)]

/-- Reading a written integer gives it back when it fits the width. -/
theorem beInt_beBytes {width : ℕ} {x : ℤ} (hlo : -(256 ^ width / 2) ≤ x)
    (hhi : x < (256 ^ width + 1) / 2) : beInt (beBytes width x) = x := by
  rw [beInt, length_beBytes, beNat_beBytes]
  have hcast : (256 : ℤ) ^ width = ((256 ^ width : ℕ) : ℤ) := by push_cast; rfl
  rw [hcast, Int.emod_bmod]
  apply Int.bmod_eq_of_le <;> push_cast <;> assumption

/-! ## Reading one tuple -/

theorem takeBytes_append (xs ys : Bytes) : takeBytes xs.length (xs ++ ys) = some (xs, ys) := by
  simp [takeBytes]

theorem readInt_beBytes {width : ℕ} {x : ℤ} (rest : Bytes) (hlo : -(256 ^ width / 2) ≤ x)
    (hhi : x < (256 ^ width + 1) / 2) :
    readInt width (beBytes width x ++ rest) = some (x, rest) := by
  have h := takeBytes_append (beBytes width x) rest
  rw [length_beBytes] at h
  simp only [readInt, h, Option.map_some, beInt_beBytes hlo hhi]

theorem readIntField_beBytes {width : ℕ} {x : ℤ} (rest : Bytes) (hw : width < 128)
    (hlo : -(256 ^ width / 2) ≤ x) (hhi : x < (256 ^ width + 1) / 2) :
    readIntField width (beBytes 4 width ++ (beBytes width x ++ rest)) = some (x, rest) := by
  rw [readIntField, readInt_beBytes _ (by norm_num) (by norm_num; omega)]
  simp only [ite_true]
  exact readInt_beBytes rest hlo hhi

theorem readByteaField_append (data rest : Bytes) (h : data.length < 2 ^ 31) :
    readByteaField (beBytes 4 data.length ++ (data ++ rest)) = some (data, rest) := by
  have hlen : (data.length : ℤ) < 2 ^ 31 := by exact_mod_cast h
  rw [readByteaField, readInt_beBytes _ (by norm_num) (by norm_num; omega)]
  simp [takeBytes_append]

/-- A row that the chunk columns can hold and a binary tuple can carry. -/
structure ChunkRow.Storable (r : ChunkRow) : Prop where
  fileId_lo : -2 ^ 63 ≤ r.fileId
  fileId_hi : r.fileId < 2 ^ 63
  no_lo : -2 ^ 31 ≤ r.no
  no_hi : r.no < 2 ^ 31
  data_lt : r.data.length < 2 ^ 31

def ChunkRow.framed (r : ChunkRow) : Bytes := frameRow r.fileId r.no r.data

/-- What follows the field count in the framed tuple of a row. -/
private def fieldsOf (r : ChunkRow) (rest : Bytes) : Bytes :=
  beBytes 4 (8 : ℕ) ++ (beBytes 8 r.fileId ++ (beBytes 4 (4 : ℕ) ++ (beBytes 4 r.no ++
    (beBytes 4 r.data.length ++ (r.data ++ rest)))))

private theorem readCount_framed (r : ChunkRow) (rest : Bytes) :
    readInt 2 (r.framed ++ rest) = some (3, fieldsOf r rest) := by
  simp only [ChunkRow.framed, frameRow, List.append_assoc]
  exact readInt_beBytes _ (by norm_num) (by norm_num)

private theorem readFileId_framed {r : ChunkRow} (h : r.Storable) (bs : Bytes) :
    readIntField 8 (beBytes 4 (8 : ℕ) ++ (beBytes 8 r.fileId ++ bs)) = some (r.fileId, bs) :=
  @readIntField_beBytes 8 r.fileId bs (by norm_num)
    (le_of_eq_of_le (by norm_num) h.fileId_lo) (lt_of_lt_of_eq h.fileId_hi (by norm_num))

private theorem readNo_framed {r : ChunkRow} (h : r.Storable) (bs : Bytes) :
    readIntField 4 (beBytes 4 (4 : ℕ) ++ (beBytes 4 r.no ++ bs)) = some (r.no, bs) :=
  @readIntField_beBytes 4 r.no bs (by norm_num)
    (le_of_eq_of_le (by norm_num) h.no_lo) (lt_of_lt_of_eq h.no_hi (by norm_num))

private theorem readRow_of_fields {bs bs₁ bs₂ rest data : Bytes} {fileId no : ℤ}
    (h₁ : readIntField 8 bs = some (fileId, bs₁)) (h₂ : readIntField 4 bs₁ = some (no, bs₂))
    (h₃ : readByteaField bs₂ = some (data, rest)) :
    readRow bs = some (⟨fileId, no, data⟩, rest) := by
  simp only [readRow, h₁, h₂, h₃]

private theorem readRow_framed {r : ChunkRow} (h : r.Storable) (rest : Bytes) :
    readRow (fieldsOf r rest) = some (r, rest) :=
  readRow_of_fields (readFileId_framed h _) (readNo_framed h _)
    (readByteaField_append _ _ h.data_lt)

/-- The tuples of storable rows, then the trailer, read back as those rows. -/
theorem readTuples_framed (rows : List ChunkRow) (h : ∀ r ∈ rows, r.Storable) (fuel : ℕ)
    (hfuel : rows.length < fuel) :
    readTuples fuel (rows.flatMap ChunkRow.framed ++ copyTrailer) = some rows := by
  induction rows generalizing fuel with
  | nil =>
      cases fuel with
      | zero => simp at hfuel
      | succ fuel =>
          have htrailer : readInt 2 copyTrailer = some (-1, []) := by decide
          simp [readTuples, htrailer]
  | cons r rows ih =>
      cases fuel with
      | zero => simp at hfuel
      | succ fuel =>
          rw [List.flatMap_cons, List.append_assoc, readTuples, readCount_framed]
          simp only [readRow_framed (h r (by simp))]
          rw [if_neg (by decide), if_pos trivial,
            ih (fun r hr => h r (by simp [hr])) fuel (by simpa using hfuel), Option.map_some]

/-! ## Rows of a body -/

/-- The rows of `body` under `fileId`, counted from `first`. -/
def rowsFrom (fileId : ℤ) (first : ℕ) (body : Bytes) : List ChunkRow :=
  (List.range (blockCount rowBytes body.length)).map fun (i : ℕ) =>
    ⟨fileId, asI32 ↑(first + i), block rowBytes body i⟩

/-- The chunk rows that hold `body` as file `fileId`. -/
def rowsOf (fileId : ℤ) (body : Bytes) : List ChunkRow := rowsFrom fileId 0 body

theorem mem_rowsOf {fileId : ℤ} {body : Bytes} {r : ChunkRow} :
    r ∈ rowsOf fileId body ↔ ∃ i < blockCount rowBytes body.length,
      r = ⟨fileId, asI32 i, block rowBytes body i⟩ := by
  simp [rowsOf, rowsFrom, eq_comm]

theorem fileId_of_mem_rowsOf {fileId : ℤ} {body : Bytes} {r : ChunkRow}
    (h : r ∈ rowsOf fileId body) : r.fileId = fileId := by
  obtain ⟨i, _, rfl⟩ := mem_rowsOf.mp h
  rfl

@[simp] theorem rowsOf_nil (fileId : ℤ) : rowsOf fileId [] = [] := by
  simp [rowsOf, rowsFrom, blockCount_zero rowBytes_pos]

theorem rowsFrom_append {fileId : ℤ} {first k : ℕ} {x y : Bytes}
    (hx : x.length = k * rowBytes) :
    rowsFrom fileId first (x ++ y) = rowsFrom fileId first x ++ rowsFrom fileId (first + k) y := by
  have hcount : blockCount rowBytes (x ++ y).length = k + blockCount rowBytes y.length := by
    rw [List.length_append, hx, blockCount_mul_add rowBytes_pos]
  have hcount' : blockCount rowBytes x.length = k := by
    rw [hx, ← Nat.add_zero (k * rowBytes), blockCount_mul_add rowBytes_pos,
      blockCount_zero rowBytes_pos, Nat.add_zero]
  rw [rowsFrom, rowsFrom, rowsFrom, hcount, hcount', List.range_add, List.map_append,
    List.map_map]
  congr 1
  · apply List.map_congr_left
    intro i hi
    rw [List.mem_range] at hi
    have hle : (i + 1) * rowBytes ≤ x.length := by
      rw [hx]
      exact Nat.mul_le_mul_right _ hi
    simp [block_append_left hle]
  · apply List.map_congr_left
    intro i _
    simp only [Function.comp_apply, block_append_right hx, Nat.add_assoc]

theorem storable_of_mem_rowsFrom {fileId : ℤ} {first : ℕ} {body : Bytes} {r : ChunkRow}
    (hf : -2 ^ 63 ≤ fileId) (hf' : fileId < 2 ^ 63) (h : r ∈ rowsFrom fileId first body) :
    r.Storable := by
  simp only [rowsFrom, List.mem_map, List.mem_range] at h
  obtain ⟨i, _, rfl⟩ := h
  have hno := asI32_mem ↑(first + i)
  refine ⟨hf, hf', hno.1, hno.2, ?_⟩
  refine lt_of_le_of_lt (length_block_le body i) ?_
  rw [rowBytes_eq]
  norm_num

theorem frameRows_eq (fileId : ℤ) (first : ℕ) (data out : Bytes) :
    frameRows fileId (asI32 first) data out =
      out ++ (rowsFrom fileId first data).flatMap ChunkRow.framed := by
  simp only [frameRows, rowsFrom, List.flatMap_map]
  congr 1
  apply List.flatMap_congr
  intro i _
  simp only [ChunkRow.framed, asI32_add_asI32, sliceOf_min_length, block]
  norm_cast

/-! ## The framer -/

/-- What a framer has done after `body` was pushed and `sent` flushed: a whole number
of rows is framed, less than a row is pending. -/
structure RowFramer.After (f : RowFramer) (fileId : ℤ) (body sent : Bytes) : Prop where
  fileId_eq : f.fileId = fileId
  hashed_eq : f.hashed = body
  total_eq : f.total = body.length
  framed : ∃ (k : ℕ) (done : Bytes), done.length = k * rowBytes ∧ body = done ++ f.pending ∧
    f.nextNo = asI32 k ∧ sent ++ f.frame = (rowsOf fileId done).flatMap ChunkRow.framed
  pending_lt : f.pending.length < rowBytes

theorem RowFramer.after_new (fileId : ℤ) : (RowFramer.new fileId).After fileId [] [] where
  fileId_eq := rfl
  hashed_eq := rfl
  total_eq := rfl
  framed := ⟨0, [], by simp, rfl, (asI32_of_lt le_rfl (by norm_num)).symm, by simp [RowFramer.new]⟩
  pending_lt := rowBytes_pos

theorem RowFramer.After.push {f : RowFramer} {fileId : ℤ} {body sent : Bytes}
    (h : f.After fileId body sent) (chunk : Bytes) :
    (f.push chunk).2.After fileId (body ++ chunk) (sent ++ (f.push chunk).1.getD []) := by
  obtain ⟨hid, hhashed, htotal, ⟨k, done, hk, hbody, hno, hframed⟩, hpend⟩ := h
  set pending := f.pending ++ chunk with hpending
  set whole := pending.length - pending.length % rowBytes with hwhole
  have hmod := Nat.mod_add_div pending.length rowBytes
  have hlt := Nat.mod_lt pending.length rowBytes_pos
  have hwholeLe : whole ≤ pending.length := Nat.sub_le _ _
  by_cases h0 : whole = 0
  · have hpush : f.push chunk = (none, { f with
        hashed := f.hashed ++ chunk, total := f.total + chunk.length, pending := pending }) := by
      simp only [RowFramer.push]
      rw [if_pos h0]
    rw [hpush]
    refine ⟨hid, by simp [hhashed], by simp [htotal], ⟨k, done, hk, ?_, hno, ?_⟩, ?_⟩
    · simp [hpending, hbody, List.append_assoc]
    · simpa using hframed
    · change pending.length < rowBytes
      omega
  · -- the framed rows grow by the whole blocks of the pending bytes
    set m := whole / rowBytes with hm
    have hwm : whole = m * rowBytes := by
      have heq : whole = rowBytes * (pending.length / rowBytes) := by omega
      rw [hm, heq, Nat.mul_div_cancel_left _ rowBytes_pos, Nat.mul_comm]
    have htake : (pending.take whole).length = m * rowBytes := by
      rw [List.length_take, Nat.min_eq_left hwholeLe, hwm]
    set frame := frameRows f.fileId f.nextNo (pending.take whole) f.frame with hframe
    have hsent : sent ++ frame =
        (rowsOf fileId (done ++ pending.take whole)).flatMap ChunkRow.framed := by
      rw [hframe, hid, hno, frameRows_eq, ← List.append_assoc, hframed, rowsOf, rowsOf,
        rowsFrom_append hk, List.flatMap_append, Nat.zero_add]
    have hafter : ∀ (out rest : Bytes), sent ++ out ++ rest = sent ++ frame →
        RowFramer.After ⟨f.fileId, f.hashed ++ chunk, pending.drop whole, rest,
          asI32 (f.nextNo + asI32 ↑m), f.total + chunk.length⟩ fileId (body ++ chunk) (sent ++ out) := by
      intro out rest hout
      refine ⟨hid, by simp [hhashed], by simp [htotal],
        ⟨k + m, done ++ pending.take whole, ?_, ?_, ?_, ?_⟩, ?_⟩
      · rw [List.length_append, hk, htake, Nat.add_mul]
      · simp [hbody, hpending, List.append_assoc, List.take_append_drop]
      · change asI32 (f.nextNo + asI32 ↑m) = _
        rw [hno, asI32_add_asI32]
        norm_cast
      · change sent ++ out ++ rest = _
        rw [hout, hsent]
      · change (pending.drop whole).length < rowBytes
        rw [List.length_drop]
        omega
    have hpush : f.push chunk =
        if sendBatch ≤ frame.length then
          (some frame, ⟨f.fileId, f.hashed ++ chunk, pending.drop whole, [],
            asI32 (f.nextNo + asI32 ↑m), f.total + chunk.length⟩)
        else
          (none, ⟨f.fileId, f.hashed ++ chunk, pending.drop whole, frame,
            asI32 (f.nextNo + asI32 ↑m), f.total + chunk.length⟩) := by
      simp only [RowFramer.push]
      rw [if_neg h0]
    rw [hpush]
    split
    · exact hafter frame [] (by simp)
    · exact hafter [] frame (by simp)

theorem RowFramer.After.pushAll {f : RowFramer} {fileId : ℤ} {body sent : Bytes}
    (h : f.After fileId body sent) (pushes : List Bytes) :
    (f.pushAll pushes).2.After fileId (body ++ pushes.flatten) (sent ++ (f.pushAll pushes).1) := by
  induction pushes generalizing f body sent with
  | nil => simpa [RowFramer.pushAll] using h
  | cons chunk rest ih =>
      have hrest := ih (h.push chunk)
      simpa [RowFramer.pushAll, List.append_assoc] using hrest

theorem RowFramer.After.finish {f : RowFramer} {fileId : ℤ} {body sent : Bytes}
    (h : f.After fileId body sent) (sha256 : Bytes → Bytes) :
    sent ++ (f.finish sha256).1 = (rowsOf fileId body).flatMap ChunkRow.framed ++ copyTrailer ∧
      (f.finish sha256).2 = (↑body.length, sha256 body) := by
  obtain ⟨hid, hhashed, htotal, ⟨k, done, hk, hbody, hno, hframed⟩, _⟩ := h
  refine ⟨?_, by simp [RowFramer.finish, htotal, hhashed]⟩
  have hrows : rowsOf fileId body = rowsOf fileId done ++ rowsFrom fileId k f.pending := by
    rw [hbody, rowsOf, rowsOf, rowsFrom_append hk, Nat.zero_add]
  rw [hrows, List.flatMap_append, ← hframed]
  simp only [RowFramer.finish]
  split
  · rename_i hnil
    have hnone : rowsFrom fileId k f.pending = [] := by
      simp [rowsFrom, hnil, blockCount_zero rowBytes_pos]
    simp [hnone, List.append_assoc]
  · rw [hid, hno, frameRows_eq]
    simp [List.append_assoc]

/-- The stream of an ingest decodes to the rows of the whole body, and it reports the
body's length and hash. -/
theorem copyStream_decodes (sha256 : Bytes → Bytes) {fileId : ℤ} (hlo : -2 ^ 63 ≤ fileId)
    (hhi : fileId < 2 ^ 63) (pushes : List Bytes) :
    copyDecode (copyStream sha256 fileId pushes).1 = some (rowsOf fileId pushes.flatten) ∧
      (copyStream sha256 fileId pushes).2 =
        (↑pushes.flatten.length, sha256 pushes.flatten) := by
  have h := ((RowFramer.after_new fileId).pushAll pushes).finish sha256
  rw [List.nil_append, List.nil_append] at h
  obtain ⟨hstream, hsum⟩ := h
  refine ⟨?_, hsum⟩
  have heq : (copyStream sha256 fileId pushes).1 = copyHeader ++
      ((rowsOf fileId pushes.flatten).flatMap ChunkRow.framed ++ copyTrailer) := by
    rw [← hstream]
    simp [copyStream, List.append_assoc]
  rw [heq, copyDecode, List.take_left, if_pos rfl, List.drop_left]
  apply readTuples_framed
  · intro r hr
    exact storable_of_mem_rowsFrom hlo hhi hr
  · have hlen : (rowsOf fileId pushes.flatten).length ≤
        ((rowsOf fileId pushes.flatten).flatMap ChunkRow.framed).length := by
      rw [List.length_flatMap]
      have hone : ∀ n ∈ (rowsOf fileId pushes.flatten).map (fun r => r.framed.length), 1 ≤ n := by
        intro n hn
        obtain ⟨r, _, rfl⟩ := List.mem_map.mp hn
        simp [ChunkRow.framed, frameRow]
        omega
      have hsum := List.card_nsmul_le_sum _ 1 hone
      simpa using hsum
    simp only [List.length_append]
    have hheader : copyHeader.length = 19 := by decide
    omega

end Pgvs3
