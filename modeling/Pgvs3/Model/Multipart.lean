import Pgvs3.Model.Write
import Pgvs3.Library.Sorting
import Mathlib.Data.Char
import Mathlib.Data.List.Lex

/-! # Multipart uploads

The transactions of `db.rs` and the function `s3p.expire_uploads` of `schema.sql` on
`s3p.uploads` and `s3p.upload_parts`, each as one atomic step. -/

namespace Pgvs3

open Library

/-- Start, or re-attach to, the upload of a key. `uuid` is what
`gen_random_uuid()` returns. -/
def createUpload (db : Db) (now : ℤ) (uuid bucket key : Text) : Tx (Db × Option Text) :=
  if db.buckets.find? bucket = none then .ok (db, none)
  else
    match db.uploads.rows.find? (fun u => u.bucket = bucket ∧ u.key = key) with
    | some u => .ok (db, some u.uploadId)
    | none =>
        match db.uploads.insert? ⟨uuid, bucket, key, now⟩ with
        | some uploads => .ok ({ db with uploads := uploads }, some uuid)
        | none => .error .uniqueViolation

def uploadExists (db : Db) (uploadId bucket key : Text) : Bool :=
  match db.uploads.find? uploadId with
  | some u => u.bucket = bucket ∧ u.key = key
  | none => false

/-- `DELETE FROM s3p.uploads WHERE upload_id = $1`, cascading to the part records. -/
def deleteUpload (db : Db) (uploadId : Text) : Db :=
  { db with
    uploads := db.uploads.deleteWhere (fun u => u.uploadId = uploadId)
    uploadParts := db.uploadParts.deleteWhere (fun p => p.uploadId = uploadId) }

/-- The part records of an upload, `ORDER BY part_no`. -/
def recordedParts (db : Db) (uploadId : Text) : List UploadPartRow :=
  sortByKey (·.partNo) (db.uploadParts.rows.filter (fun p => p.uploadId = uploadId))

inductive Completed where
  | done (bucket key : Text) (etag : Bytes) (size : ℤ)
  | invalidPart
  | noSuchUpload
  deriving DecidableEq, Repr

/-- What the validation loop of `complete_upload` accumulates. -/
structure PartTally where
  ids : List ℤ
  ends : List ℤ
  size : ℤ
  hashed : Bytes
  deriving DecidableEq, Repr

def PartTally.start : PartTally := ⟨[], [], 0, []⟩

/-- The validation loop: listed entries against part records, pairwise. -/
def checkParts : PartTally → List (ℤ × Text) → List UploadPartRow → Option PartTally
  | tally, p :: want, r :: rows =>
      if p.1 ≠ r.partNo ∨ p.2 ≠ hex r.sha256 then none
      else
        let size := tally.size + r.size
        checkParts ⟨tally.ids ++ [r.fileId], tally.ends ++ [size], size,
          tally.hashed ++ r.sha256⟩ want rows
  | tally, _, _ => some tally

/-- `sort_by_key` on the part number, which is stable. -/
def sortListed (listed : List (ℤ × Text)) : List (ℤ × Text) :=
  sortByKey Prod.fst listed

def completeUpload (sha256 : Bytes → Bytes) (db : Db) (now : ℤ)
    (uploadId requestBucket requestKey : Text) (listed : List (ℤ × Text)) :
    Tx (Db × Completed) :=
  match db.uploads.find? uploadId with
  | none => .ok (db, .noSuchUpload)
  | some up =>
      if up.bucket ≠ requestBucket ∨ up.key ≠ requestKey then .ok (db, .noSuchUpload)
      else
        let rows := recordedParts db uploadId
        let want := sortListed listed
        if want = [] ∨ want.length ≠ rows.length then .ok (db, .invalidPart)
        else
          match checkParts .start want rows with
          | none => .ok (db, .invalidPart)
          | some tally =>
              let etag := sha256 tally.hashed
              -- `ids[0]`: the listing is not empty here
              let write : ObjectWrite :=
                ⟨tally.ids.headD 0, tally.size, etag, some (tally.ids, tally.ends), .unconditional⟩
              match swapObject db now up.bucket up.key write with
              | .error e => .error e
              | .ok db =>
                  .ok (deleteUpload db uploadId, .done up.bucket up.key etag tally.size)

/-- `abort_upload`; the second component says whether the upload was found. -/
def abortUpload (db : Db) (uploadId bucket key : Text) : Db × Bool :=
  if uploadExists db uploadId bucket key then
    let ids := (db.uploadParts.rows.filter (fun p => p.uploadId = uploadId)).map (·.fileId)
    let db := deleteUpload db uploadId
    ({ db with chunks := db.chunks.deleteWhere (fun c => c.fileId ∈ ids) }, true)
  else (db, false)

/-! ## Expiry -/

/-- The arguments of `s3p.expire_uploads`; `none` is SQL's NULL. -/
structure ExpiryBudget where
  grace : Option ℤ
  maxRows : Option ℤ
  bucket : Option Text
  deriving DecidableEq, Repr

/-- `created_at < now() - p_grace AND (p_bucket IS NULL OR bucket = p_bucket)`. -/
def eligible (now grace : ℤ) (bucket : Option Text) (u : UploadRow) : Bool :=
  u.createdAt < now - grace ∧ (bucket = none ∨ bucket = some u.bucket)

/-- `ORDER BY created_at, upload_id`. -/
def olderUpload (u v : UploadRow) : Prop :=
  u.createdAt < v.createdAt ∨ (u.createdAt = v.createdAt ∧ u.uploadId ≤ v.uploadId)

instance : DecidableRel olderUpload := fun _ _ => inferInstanceAs (Decidable (_ ∨ _))

def victimUpload? (db : Db) (now grace : ℤ) (bucket : Option Text) : Option UploadRow :=
  ((db.uploads.rows.filter (eligible now grace bucket)).insertionSort olderUpload).head?

/-- The row numbers of `SELECT no FROM s3p.chunks WHERE file_id = victim_file
ORDER BY no LIMIT remaining`. -/
def doomedRows (db : Db) (fileId : ℤ) (remaining : ℤ) : List ℤ :=
  (sortByKey id ((db.chunks.rows.filter (fun c => c.fileId = fileId)).map (·.no))).take
    remaining.toNat

/-- One visit of the loop to a victim part: delete rows within the budget, then the
part record once no row can be left, then the upload once no part is left. -/
def expirePart (db : Db) (part : UploadPartRow) (remaining : ℤ) : Db × ℤ :=
  let doomed := doomedRows db part.fileId remaining
  let batchRemoved : ℤ := doomed.length
  let db := { db with
    chunks := db.chunks.deleteWhere (fun c => c.fileId = part.fileId ∧ c.no ∈ doomed) }
  if batchRemoved < remaining then
    let db := { db with
      uploadParts := db.uploadParts.deleteWhere (fun p => p.primaryKey = part.primaryKey) }
    if ∃ p ∈ db.uploadParts.rows, p.uploadId = part.uploadId then (db, batchRemoved)
    else (deleteUpload db part.uploadId, batchRemoved)
  else (db, batchRemoved)

/-- The loop of `s3p.expire_uploads`; the first argument counts the visits left. -/
def expireLoop (now grace maxRows : ℤ) (bucket : Option Text) : ℕ → Db → ℤ → Db × ℤ
  | 0, db, removed => (db, removed)
  | visits + 1, db, removed =>
      match victimUpload? db now grace bucket with
      | none => (db, removed)
      | some up =>
          match (recordedParts db up.uploadId).head? with
          | none => expireLoop now grace maxRows bucket visits (deleteUpload db up.uploadId) removed
          | some part =>
              let (db, batchRemoved) := expirePart db part (maxRows - removed)
              let removed := removed + batchRemoved
              if removed = maxRows then (db, removed)
              else expireLoop now grace maxRows bucket visits db removed

/-- `s3p.expire_uploads`; the second component is the number of chunk rows deleted. -/
def expireUploads (db : Db) (now : ℤ) (budget : ExpiryBudget) : Tx (Db × ℤ) :=
  match budget.grace, budget.maxRows with
  | some grace, some maxRows =>
      if grace < 0 ∨ maxRows < 1 ∨ maxRows > 8192 then .error .invalidExpiryBudget
      else .ok (expireLoop now grace maxRows budget.bucket 64 db 0)
  | _, _ => .error .invalidExpiryBudget

end Pgvs3
