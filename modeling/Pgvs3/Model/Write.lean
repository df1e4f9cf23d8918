import Pgvs3.Model.Ingest

/-! # Writing and deleting objects

The transactions of `db.rs` on `s3p.objects` and `s3p.chunks`, each as one atomic
step. A transaction that returns early or fails leaves the database as it was. -/

namespace Pgvs3

/-- `hex`: two lower-case digits a byte. -/
def hexDigit (n : ℕ) : Char := if n < 10 then Char.ofNat (48 + n) else Char.ofNat (87 + n)

def hex (bytes : Bytes) : Text :=
  bytes.flatMap fun b => [hexDigit (b.toNat / 16), hexDigit (b.toNat % 16)]

theorem hexDigit_inj : ∀ m < 16, ∀ n < 16, hexDigit m = hexDigit n → m = n := by decide

theorem hex_injective : Function.Injective hex := by
  intro a
  induction a with
  | nil =>
      rintro (_ | ⟨y, b⟩) h
      · rfl
      · simp [hex] at h
  | cons x a ih =>
      rintro (_ | ⟨y, b⟩) h
      · simp [hex] at h
      · simp only [hex, List.flatMap_cons, List.cons_append, List.nil_append,
          List.cons.injEq] at h
        obtain ⟨hhigh, hlow, hrest⟩ := h
        have hx := x.toNat_lt
        have hy := y.toNat_lt
        have hhigh := hexDigit_inj _ (by omega) _ (by omega) hhigh
        have hlow := hexDigit_inj _ (by omega) _ (by omega) hlow
        have hbyte : x = y := UInt8.toNat_inj.mp (by omega)
        rw [hbyte, ih hrest]

inductive PutCondition where
  | unconditional
  | ifAbsent
  | ifMatch (want : Text)
  deriving DecidableEq, Repr

/-- The condition of a write against the row it would replace. -/
def PutCondition.allows (condition : PutCondition) (old : Option ObjectRow) : Bool :=
  match condition with
  | .unconditional => true
  | .ifAbsent => old.isNone
  | .ifMatch want =>
      match old with
      | some row => hex row.etag = want
      | none => false

/-- `ObjectWrite`; `parts` carries the part files and their cumulative ends. -/
structure ObjectWrite where
  fileId : ℤ
  size : ℤ
  etag : Bytes
  parts : Option (List ℤ × List ℤ)
  condition : PutCondition
  deriving DecidableEq

/-- The row that a write publishes at `(bucket, key)`. -/
def ObjectWrite.row (write : ObjectWrite) (now : ℤ) (bucket key : Text) : ObjectRow where
  bucket := bucket
  key := key
  fileId := write.fileId
  size := write.size
  etag := write.etag
  createdAt := now
  parts := write.parts.map Prod.fst
  partEnds := write.parts.map Prod.snd

/-- Delete every chunk row of an object's files. -/
def reap (db : Db) (fileId : ℤ) (parts : Option (List ℤ)) : Db :=
  let dead := parts.getD [] ++ [fileId]
  { db with chunks := db.chunks.deleteWhere (fun c => c.fileId ∈ dead) }

/-- `INSERT INTO s3p.objects ... ON CONFLICT (bucket, key) DO UPDATE`, with the
foreign key on the bucket and the unique `file_id` it is checked against. -/
def upsertObject (db : Db) (row : ObjectRow) : Tx Db :=
  if db.buckets.find? row.bucket = none then .error .foreignKeyViolation
  else if ∃ r ∈ db.objects.rows, r.fileId = row.fileId ∧ r.primaryKey ≠ row.primaryKey then
    .error .uniqueViolation
  else .ok { db with objects := db.objects.upsert row }

/-- Point `(bucket, key)` at new storage and reap the storage it replaces. -/
def swapObject (db : Db) (now : ℤ) (bucket key : Text) (write : ObjectWrite) : Tx Db :=
  let old := db.objects.find? (bucket, key)
  if write.condition.allows old then
    match upsertObject db (write.row now bucket key) with
    | .error e => .error e
    | .ok db =>
        match old with
        | some r => .ok (reap db r.fileId r.parts)
        | none => .ok db
  else .error .preconditionFailed

/-- Record a multipart part; a re-sent part replaces the earlier attempt, rows
included. -/
def commitPart (db : Db) (uploadId : Text) (partNo : ℤ) (fileId : ℤ) (total : ℤ)
    (sum : Bytes) : Tx Db :=
  let old := db.uploadParts.find? (uploadId, partNo)
  let db := { db with
    uploadParts := db.uploadParts.deleteWhere (fun p => p.primaryKey = (uploadId, partNo)) }
  let db :=
    match old with
    | some p => { db with chunks := db.chunks.deleteWhere (fun c => c.fileId = p.fileId) }
    | none => db
  if db.uploads.find? uploadId = none then .error .foreignKeyViolation
  else
    match db.uploadParts.insert? ⟨uploadId, partNo, fileId, total, sum⟩ with
    | some uploadParts => .ok { db with uploadParts := uploadParts }
    | none => .error .uniqueViolation

inductive WriterTarget where
  | object (bucket key : Text) (condition : PutCondition)
  | part (uploadId : Text) (partNo : ℤ)
  deriving DecidableEq, Repr

/-- The largest value of a `bigserial` sequence. -/
def maxFileId : ℤ := 2 ^ 63 - 1

/-- `nextval`, drawn by `ChunkWriter::begin` outside the ingest transaction: a
rollback does not give the value back. -/
def nextval (db : Db) : Tx (ℤ × Db) :=
  if db.fileSeq < maxFileId then
    .ok (db.fileSeq + 1, { db with fileSeq := db.fileSeq + 1 })
  else .error .sequenceExhausted

/-- `COPY s3p.chunks FROM STDIN`: all rows of the stream or none. -/
def copyIn (db : Db) (stream : Bytes) : Tx Db :=
  match copyDecode stream with
  | none => .error .badCopyFormat
  | some rows =>
      match db.chunks.insertAll? rows with
      | some chunks => .ok { db with chunks := chunks }
      | none => .error .uniqueViolation

/-- The bucket check that opens the transaction of an object write. -/
def WriterTarget.bucketExists (db : Db) : WriterTarget → Bool
  | .object bucket _ _ => (db.buckets.find? bucket).isSome
  | .part _ _ => true

/-- The publication step of `ingest_writer`, after its COPY has ended. -/
def publish (db : Db) (now : ℤ) (target : WriterTarget) (fileId : ℤ) (total : ℤ)
    (sum : Bytes) : Tx Db :=
  match target with
  | .object bucket key condition =>
      swapObject db now bucket key ⟨fileId, total, sum, none, condition⟩
  | .part uploadId partNo => commitPart db uploadId partNo fileId total sum

/-- `ingest_writer` on a stream of pushed chunks that ends without an abort. -/
def ingestWriter (sha256 : Bytes → Bytes) (db : Db) (now : ℤ) (fileId : ℤ)
    (target : WriterTarget) (pushes : List Bytes) : Tx (Db × ℤ × Bytes) :=
  if target.bucketExists db then
    let (stream, total, sum) := copyStream sha256 fileId pushes
    match copyIn db stream with
    | .error e => .error e
    | .ok db =>
        match publish db now target fileId total sum with
        | .error e => .error e
        | .ok db => .ok (db, total, sum)
  else .error .bucketDoesNotExist

/-- `delete`; the second component says whether the object was found. -/
def delete (db : Db) (bucket key : Text) : Db × Bool :=
  let old := db.objects.find? (bucket, key)
  let db := { db with
    objects := db.objects.deleteWhere (fun r => r.primaryKey = (bucket, key)) }
  match old with
  | some r => (reap db r.fileId r.parts, true)
  | none => (db, false)

/-! ## Buckets -/

def createBucket (db : Db) (now : ℤ) (name : Text) : Db :=
  match db.buckets.insert? ⟨name, now⟩ with
  | some buckets => { db with buckets := buckets }
  | none => db

def bucketExists (db : Db) (name : Text) : Bool := (db.buckets.find? name).isSome

inductive BucketDeletion where
  | deleted
  | notEmpty
  | notFound
  deriving DecidableEq, Repr

def deleteBucket (db : Db) (name : Text) : Db × BucketDeletion :=
  if db.buckets.find? name = none then (db, .notFound)
  else if (∃ r ∈ db.objects.rows, r.bucket = name) ∨ ∃ u ∈ db.uploads.rows, u.bucket = name then
    (db, .notEmpty)
  else ({ db with buckets := db.buckets.deleteWhere (fun b => b.name = name) }, .deleted)

end Pgvs3
