import Pgvs3.Model.Operation
import Pgvs3.Verification.Ingest.Framing

/-! # What each transaction does to the tables

One statement per transaction of `db.rs`; the invariants of the store are derived from
these and never unfold a transaction again. -/

namespace Pgvs3

open Library

/-- The files that a write reaps with the row it replaces. -/
def deadFiles : Option ObjectRow → List ℤ
  | none => []
  | some r => r.parts.getD [] ++ [r.fileId]

@[simp] theorem deleteWhere_false {α κ : Type*} {key : α → κ} (t : Table key) :
    t.deleteWhere (fun _ => false) = t :=
  Table.ext (by simp [Table.deleteWhere])

@[simp] theorem mem_reap_chunks {db : Db} {fileId : ℤ} {parts : Option (List ℤ)} {c : ChunkRow} :
    c ∈ (reap db fileId parts).chunks ↔
      c ∈ db.chunks ∧ c.fileId ∉ parts.getD [] ++ [fileId] := by
  simp only [reap, Table.mem_deleteWhere, decide_eq_false_iff_not]

/-! ## Publishing an object -/

theorem upsertObject_ok_iff {db db' : Db} {row : ObjectRow} :
    upsertObject db row = .ok db' ↔
      db.buckets.find? row.bucket ≠ none ∧
      (∀ r ∈ db.objects, r.fileId = row.fileId → r.primaryKey = row.primaryKey) ∧
      db' = { db with objects := db.objects.upsert row } := by
  unfold upsertObject
  split
  · rename_i h
    simp [h]
  · rename_i hb
    split
    · rename_i h
      obtain ⟨r, hr, hf, hk⟩ := h
      constructor
      · intro he
        cases he
      · rintro ⟨_, huniq, _⟩
        exact (hk (huniq r hr hf)).elim
    · rename_i h
      push Not at h
      constructor
      · intro he
        cases he
        exact ⟨hb, h, rfl⟩
      · rintro ⟨_, _, rfl⟩
        rfl

def published (db : Db) (row : ObjectRow) (old : Option ObjectRow) : Db :=
  { db with
    objects := db.objects.upsert row
    chunks := db.chunks.deleteWhere (fun c => c.fileId ∈ deadFiles old) }

theorem swapObject_ok_iff {db db' : Db} {now : ℤ} {bucket key : Text} {write : ObjectWrite} :
    swapObject db now bucket key write = .ok db' ↔
      write.condition.allows (db.objects.find? (bucket, key)) = true ∧
      db.buckets.find? bucket ≠ none ∧
      (∀ r ∈ db.objects, r.fileId = write.fileId → r.primaryKey = (bucket, key)) ∧
      db' = published db (write.row now bucket key) (db.objects.find? (bucket, key)) := by
  have hrow : (write.row now bucket key).primaryKey = (bucket, key) := rfl
  have hup : ∀ db', _ ↔ _ := fun db' => @upsertObject_ok_iff db db' (write.row now bucket key)
  simp only [swapObject]
  split
  · rename_i hallow
    simp only [hallow, true_and]
    cases hu : upsertObject db (write.row now bucket key) with
    | error e =>
        constructor
        · intro he
          cases he
        · rintro ⟨hb, huniq, _⟩
          have := (hup _).mpr ⟨hb, huniq, rfl⟩
          rw [hu] at this
          cases this
    | ok db₁ =>
        obtain ⟨hb, huniq, rfl⟩ := (hup _).mp hu
        have hb' : db.buckets.find? bucket ≠ none := hb
        cases hold : db.objects.find? (bucket, key) with
        | none =>
            simp only [Except.ok.injEq, hb', ne_eq, not_false_eq_true, true_and]
            constructor
            · rintro rfl
              exact ⟨huniq, by simp [published, deadFiles]⟩
            · rintro ⟨_, rfl⟩
              simp [published, deadFiles]
        | some r =>
            simp only [Except.ok.injEq, hb', ne_eq, not_false_eq_true, true_and]
            constructor
            · rintro rfl
              exact ⟨huniq, rfl⟩
            · rintro ⟨_, rfl⟩
              rfl
  · rename_i hallow
    simp [hallow]

def recorded (db : Db) (part : UploadPartRow) : Db :=
  { db with
    uploadParts := db.uploadParts.upsert part
    chunks := db.chunks.deleteWhere fun c =>
      c.fileId ∈ ((db.uploadParts.find? part.primaryKey).map (·.fileId)).toList }

theorem commitPart_ok_iff {db db' : Db} {uploadId : Text} {partNo fileId total : ℤ}
    {sum : Bytes} :
    commitPart db uploadId partNo fileId total sum = .ok db' ↔
      db.uploads.find? uploadId ≠ none ∧
      db' = recorded db ⟨uploadId, partNo, fileId, total, sum⟩ := by
  have hins : (db.uploadParts.deleteWhere (fun p => p.primaryKey = (uploadId, partNo))).insert?
      ⟨uploadId, partNo, fileId, total, sum⟩ =
        some (db.uploadParts.upsert ⟨uploadId, partNo, fileId, total, sum⟩) := by
    rw [Table.insert?_eq_some_iff]
    constructor
    · intro b hb
      simpa [UploadPartRow.primaryKey] using (Table.mem_deleteWhere.mp hb).2
    · simp [Table.upsert, Table.deleteWhere, UploadPartRow.primaryKey]
  have hkey : UploadPartRow.primaryKey ⟨uploadId, partNo, fileId, total, sum⟩ =
      (uploadId, partNo) := rfl
  unfold commitPart
  by_cases hu : db.uploads.find? uploadId = none
  · cases db.uploadParts.find? (uploadId, partNo) <;> simp [hu]
  · cases hold : db.uploadParts.find? (uploadId, partNo) with
    | none =>
        simp only [hu, if_false, hins, ne_eq, not_false_eq_true, true_and, Except.ok.injEq,
          recorded, hkey, hold]
        constructor <;> (rintro rfl; simp)
    | some p =>
        simp only [hu, if_false, hins, ne_eq, not_false_eq_true, true_and, Except.ok.injEq,
          recorded, hkey, hold]
        constructor <;> (rintro rfl; simp)

/-! ## Ingests -/

theorem nextval_ok_iff {db db' : Db} {fileId : ℤ} :
    nextval db = .ok (fileId, db') ↔
      db.fileSeq < maxFileId ∧ fileId = db.fileSeq + 1 ∧
        db' = { db with fileSeq := db.fileSeq + 1 } := by
  unfold nextval
  split
  · rename_i h
    simp [h, eq_comm]
  · rename_i h
    simp [h]

theorem copyIn_copyStream {sha256 : Bytes → Bytes} {db db' : Db} {fileId : ℤ}
    (hlo : -2 ^ 63 ≤ fileId) (hhi : fileId < 2 ^ 63) (pushes : List Bytes) :
    copyIn db (copyStream sha256 fileId pushes).1 = .ok db' ↔
      ∃ chunks, db.chunks.insertAll? (rowsOf fileId pushes.flatten) = some chunks ∧
        db' = { db with chunks := chunks } := by
  rw [copyIn, (copyStream_decodes sha256 hlo hhi pushes).1]
  cases hins : db.chunks.insertAll? (rowsOf fileId pushes.flatten) with
  | none => simp [hins]
  | some chunks => simp [hins, eq_comm]

theorem ingestWriter_ok_iff {sha256 : Bytes → Bytes} {db db' : Db} {now fileId total : ℤ}
    {target : WriterTarget} {pushes : List Bytes} {sum : Bytes}
    (hlo : -2 ^ 63 ≤ fileId) (hhi : fileId < 2 ^ 63) :
    ingestWriter sha256 db now fileId target pushes = .ok (db', total, sum) ↔
      target.bucketExists db = true ∧
      total = pushes.flatten.length ∧ sum = sha256 pushes.flatten ∧
      ∃ chunks, db.chunks.insertAll? (rowsOf fileId pushes.flatten) = some chunks ∧
        publish { db with chunks := chunks } now target fileId pushes.flatten.length
          (sha256 pushes.flatten) = .ok db' := by
  have hcopy : ∀ db', _ ↔ _ := fun db' =>
    @copyIn_copyStream sha256 db db' fileId hlo hhi pushes
  have hsum := (copyStream_decodes sha256 hlo hhi pushes).2
  unfold ingestWriter
  cases hb : target.bucketExists db with
  | false => simp
  | true =>
      simp only [ite_true, true_and, hsum]
      cases hc : copyIn db (copyStream sha256 fileId pushes).1 with
      | error e =>
          simp only [reduceCtorEq, false_iff, not_and, not_exists]
          rintro _ _ chunks hins _
          have := (hcopy _).mpr ⟨chunks, hins, rfl⟩
          simp [hc] at this
      | ok db₁ =>
          obtain ⟨chunks, hins, rfl⟩ := (hcopy db₁).mp hc
          simp only [hins, Option.some.injEq, exists_eq_left']
          cases hp : publish { db with chunks := chunks } now target fileId
              ↑pushes.flatten.length (sha256 pushes.flatten) with
          | error e => simp
          | ok db₂ =>
              simp only [Except.ok.injEq, Prod.mk.injEq]
              constructor
              · rintro ⟨rfl, rfl, rfl⟩
                exact ⟨rfl, rfl, rfl⟩
              · rintro ⟨rfl, rfl, rfl⟩
                exact ⟨rfl, rfl, rfl⟩

end Pgvs3
