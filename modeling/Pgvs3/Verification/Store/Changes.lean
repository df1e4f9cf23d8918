import Pgvs3.Verification.Store.MultipartEffects

/-! # The changes an operation can make

Every operation leaves objects, chunks and part records alone or makes one of six
changes. Invariants of the store are proved one change at a time. -/

namespace Pgvs3

open Library

def deleted (db : Db) (r : ObjectRow) : Db :=
  { db with
    objects := db.objects.deleteWhere (fun q => q.primaryKey = r.primaryKey)
    chunks := db.chunks.deleteWhere (fun c => c.fileId ∈ deadFiles (some r)) }

def stagedFiles (db : Db) (uploadId : Text) : List ℤ :=
  (db.uploadParts.rows.filter (fun p => p.uploadId = uploadId)).map (·.fileId)

def aborted (db : Db) (uploadId : Text) : Db :=
  { deleteUpload db uploadId with
    chunks := db.chunks.deleteWhere (fun c => c.fileId ∈ stagedFiles db uploadId) }

def putWrite (sha256 : Bytes → Bytes) (fileId : ℤ) (condition : PutCondition) (body : Bytes) :
    ObjectWrite :=
  ⟨fileId, body.length, sha256 body, none, condition⟩

def partRecord (sha256 : Bytes → Bytes) (uploadId : Text) (partNo fileId : ℤ) (body : Bytes) :
    UploadPartRow :=
  ⟨uploadId, partNo, fileId, body.length, sha256 body⟩

/-- The database once an ingest has drawn its file id and copied its rows. -/
def copied (db : Db) (chunks : Table ChunkRow.primaryKey) : Db :=
  { db with chunks := chunks, fileSeq := db.fileSeq + 1 }

inductive Change (sha256 : Bytes → Bytes) (db : Db) : Op → Db → Prop where
  | still {op : Op} {db' : Db} (objects_eq : db'.objects = db.objects)
      (chunks_eq : db'.chunks = db.chunks) (parts_eq : db'.uploadParts = db.uploadParts)
      (seq_le : db.fileSeq ≤ db'.fileSeq) : Change sha256 db op db'
  | put {now : ℤ} {bucket key : Text} {condition : PutCondition} {pushes : List Bytes}
      {chunks : Table ChunkRow.primaryKey} (hseq : db.fileSeq < maxFileId)
      (hrows : db.chunks.insertAll? (rowsOf (db.fileSeq + 1) pushes.flatten) = some chunks)
      (hallow : condition.allows (db.objects.find? (bucket, key)) = true)
      (hbucket : db.buckets.find? bucket ≠ none)
      (huniq : ∀ r ∈ db.objects, r.fileId = db.fileSeq + 1 → r.primaryKey = (bucket, key)) :
      Change sha256 db (.put now bucket key condition pushes)
        (published (copied db chunks)
          ((putWrite sha256 (db.fileSeq + 1) condition pushes.flatten).row now bucket key)
          (db.objects.find? (bucket, key)))
  | part {now : ℤ} {uploadId : Text} {partNo : ℤ} {pushes : List Bytes}
      {chunks : Table ChunkRow.primaryKey} (hseq : db.fileSeq < maxFileId)
      (hrows : db.chunks.insertAll? (rowsOf (db.fileSeq + 1) pushes.flatten) = some chunks)
      (hupload : db.uploads.find? uploadId ≠ none) :
      Change sha256 db (.uploadPart now uploadId partNo pushes)
        (recorded (copied db chunks)
          (partRecord sha256 uploadId partNo (db.fileSeq + 1) pushes.flatten))
  | delete {bucket key : Text} {r : ObjectRow}
      (hold : db.objects.find? (bucket, key) = some r) :
      Change sha256 db (.delete bucket key) (deleted db r)
  | complete {now : ℤ} {uploadId bucket key : Text} {listed : List (ℤ × Text)}
      (haccept : CompleteAccepts db uploadId bucket key listed)
      (hfits : CompleteFits db uploadId bucket key) :
      Change sha256 db (.completeUpload now uploadId bucket key listed)
        (completed sha256 db now uploadId bucket key)
  | abort {uploadId bucket key : Text} (hat : UploadAt db uploadId bucket key) :
      Change sha256 db (.abortUpload uploadId bucket key) (aborted db uploadId)
  | expire {now : ℤ} {budget : ExpiryBudget} {db' : Db} (h : Expires db db') :
      Change sha256 db (.expireUploads now budget) db'

theorem Change.refl (sha256 : Bytes → Bytes) (db : Db) (op : Op) : Change sha256 db op db :=
  .still rfl rfl rfl le_rfl

/-! ## Ingests -/

def drawn (db : Db) : Db := { db with fileSeq := db.fileSeq + 1 }

/-- An ingest fails, at most with its file id drawn, or commits under that id. -/
theorem ingest_cases (sha256 : Bytes → Bytes) (db : Db) (now : ℤ) (target : WriterTarget)
    (pushes : List Bytes) (hseq : 0 ≤ db.fileSeq) :
    (∃ e, ingest sha256 db now target pushes = (db, .failed e) ∨
      ingest sha256 db now target pushes = (drawn db, .failed e)) ∨
    (db.fileSeq < maxFileId ∧ target.bucketExists db = true ∧
      ∃ chunks db', db.chunks.insertAll? (rowsOf (db.fileSeq + 1) pushes.flatten) = some chunks ∧
        publish (copied db chunks) now target (db.fileSeq + 1) pushes.flatten.length
          (sha256 pushes.flatten) = .ok db' ∧
        ingest sha256 db now target pushes =
          (db', .stored pushes.flatten.length (sha256 pushes.flatten))) := by
  unfold ingest
  cases hn : nextval db with
  | error e => exact .inl ⟨e, .inl rfl⟩
  | ok r =>
      obtain ⟨fileId, db₁⟩ := r
      obtain ⟨hlt, rfl, rfl⟩ := nextval_ok_iff.mp hn
      have hlo : -2 ^ 63 ≤ db.fileSeq + 1 := by omega
      have hhi : db.fileSeq + 1 < 2 ^ 63 := by
        unfold maxFileId at hlt
        omega
      cases hw : ingestWriter sha256 { db with fileSeq := db.fileSeq + 1 } now (db.fileSeq + 1)
          target pushes with
      | error e => exact .inl ⟨e, .inr (by simp only [hw]; rfl)⟩
      | ok r =>
          obtain ⟨db', total, sum⟩ := r
          obtain ⟨hb, rfl, rfl, chunks, hins, hpub⟩ := (ingestWriter_ok_iff hlo hhi).mp hw
          refine .inr ⟨hlt, ?_, chunks, db', hins, hpub, by simp only [hw]⟩
          cases target <;> exact hb

theorem change_ingest_object (sha256 : Bytes → Bytes) (db : Db) (now : ℤ) (bucket key : Text)
    (condition : PutCondition) (pushes : List Bytes) (hseq : 0 ≤ db.fileSeq) :
    Change sha256 db (.put now bucket key condition pushes)
      (apply sha256 db (.put now bucket key condition pushes)).1 := by
  simp only [apply]
  rcases ingest_cases sha256 db now (.object bucket key condition) pushes hseq with
    ⟨e, h | h⟩ | ⟨hlt, hb, chunks, db', hins, hpub, h⟩
  · rw [h]
    exact .refl _ _ _
  · rw [h]
    exact .still rfl rfl rfl (by simp [drawn])
  · rw [h]
    obtain ⟨hallow, hbucket, huniq, rfl⟩ := swapObject_ok_iff.mp hpub
    exact .put hlt hins hallow hbucket huniq

theorem change_ingest_part (sha256 : Bytes → Bytes) (db : Db) (now : ℤ) (uploadId : Text)
    (partNo : ℤ) (pushes : List Bytes) (hseq : 0 ≤ db.fileSeq) :
    Change sha256 db (.uploadPart now uploadId partNo pushes)
      (apply sha256 db (.uploadPart now uploadId partNo pushes)).1 := by
  simp only [apply]
  rcases ingest_cases sha256 db now (.part uploadId partNo) pushes hseq with
    ⟨e, h | h⟩ | ⟨hlt, hb, chunks, db', hins, hpub, h⟩
  · rw [h]
    exact .refl _ _ _
  · rw [h]
    exact .still rfl rfl rfl (by simp [drawn])
  · rw [h]
    obtain ⟨hupload, rfl⟩ := commitPart_ok_iff.mp hpub
    exact .part hlt hins hupload

/-! ## Every operation -/

theorem change_delete (sha256 : Bytes → Bytes) (db : Db) (bucket key : Text) :
    Change sha256 db (.delete bucket key) (delete db bucket key).1 := by
  unfold delete
  cases hold : db.objects.find? (bucket, key) with
  | none =>
      have hsame : db.objects.deleteWhere (fun r => r.primaryKey = (bucket, key)) = db.objects := by
        apply Table.ext
        simp only [Table.deleteWhere, List.filter_eq_self]
        intro r hr
        simpa using Table.find?_eq_none_iff.mp hold r hr
      simp only [hsame]
      exact .refl _ _ _
  | some r =>
      have hkey := (Table.find?_eq_some_iff.mp hold).2
      have heq : reap { db with
          objects := db.objects.deleteWhere (fun q => q.primaryKey = (bucket, key)) }
          r.fileId r.parts = deleted db r := by
        rw [← hkey]
        rfl
      simp only [heq]
      exact .delete hold

/-- `create_upload` finds no bucket, hands out an upload that is there, or records a new one. -/
theorem createUpload_cases {db db' : Db} {now : ℤ} {uuid bucket key : Text} {id : Option Text}
    (h : createUpload db now uuid bucket key = .ok (db', id)) :
    (db.buckets.find? bucket = none ∧ db' = db ∧ id = none) ∨
      (∃ up ∈ db.uploads, up.bucket = bucket ∧ up.key = key ∧ db' = db ∧ id = some up.uploadId) ∨
        ∃ uploads, db.buckets.find? bucket ≠ none ∧
          db.uploads.insert? ⟨uuid, bucket, key, now⟩ = some uploads ∧
            db' = { db with uploads := uploads } ∧ id = some uuid := by
  unfold createUpload at h
  split at h
  · rename_i hbucket
    cases h
    exact .inl ⟨hbucket, rfl, rfl⟩
  · rename_i hbucket
    split at h
    · rename_i up hfind
      cases h
      have hat := List.find?_some hfind
      simp only [decide_eq_true_eq] at hat
      exact .inr (.inl ⟨up, List.mem_of_find?_eq_some hfind, hat.1, hat.2, rfl, rfl⟩)
    · split at h
      · rename_i uploads hins
        cases h
        exact .inr (.inr ⟨uploads, hbucket, hins, rfl, rfl⟩)
      · cases h

theorem createUpload_still {db db' : Db} {now : ℤ} {uuid bucket key : Text} {id : Option Text}
    (h : createUpload db now uuid bucket key = .ok (db', id)) :
    db'.buckets = db.buckets ∧ db'.objects = db.objects ∧ db'.chunks = db.chunks ∧
      db'.uploadParts = db.uploadParts ∧ db'.fileSeq = db.fileSeq := by
  rcases createUpload_cases h with ⟨-, rfl, -⟩ | ⟨_, -, -, -, rfl, -⟩ | ⟨_, -, -, rfl, -⟩
  · exact ⟨rfl, rfl, rfl, rfl, rfl⟩
  · exact ⟨rfl, rfl, rfl, rfl, rfl⟩
  · exact ⟨rfl, rfl, rfl, rfl, rfl⟩

theorem change_apply (sha256 : Bytes → Bytes) (db : Db) (op : Op) (hseq : 0 ≤ db.fileSeq) :
    Change sha256 db op (apply sha256 db op).1 := by
  cases op with
  | createBucket now name =>
      simp only [apply, createBucket]
      split <;> exact .still rfl rfl rfl le_rfl
  | deleteBucket name =>
      simp only [apply, deleteBucket]
      split
      · exact .refl _ _ _
      · split <;> exact .still rfl rfl rfl le_rfl
  | put now bucket key condition pushes =>
      exact change_ingest_object sha256 db now bucket key condition pushes hseq
  | delete bucket key => exact change_delete sha256 db bucket key
  | createUpload now uuid bucket key =>
      simp only [apply]
      cases h : createUpload db now uuid bucket key with
      | error e => exact .refl _ _ _
      | ok r =>
          obtain ⟨_, hobjects, hchunks, hparts, hseq'⟩ := createUpload_still h
          exact .still hobjects hchunks hparts hseq'.ge
  | uploadPart now uploadId partNo pushes =>
      exact change_ingest_part sha256 db now uploadId partNo pushes hseq
  | completeUpload now uploadId bucket key listed =>
      simp only [apply]
      rcases completeUpload_cases sha256 db now uploadId bucket key listed with
        ⟨_, h⟩ | ⟨_, _, h⟩ | ⟨_, _, e, h⟩ | ⟨hacc, hfit, h⟩ <;> rw [h]
      · exact .refl _ _ _
      · exact .refl _ _ _
      · exact .refl _ _ _
      · exact .complete hacc hfit
  | abortUpload uploadId bucket key =>
      simp only [apply, abortUpload]
      split
      · rename_i h
        exact .abort (uploadExists_iff.mp h)
      · exact .refl _ _ _
  | expireUploads now budget =>
      simp only [apply]
      cases h : expireUploads db now budget with
      | error e => exact .refl _ _ _
      | ok r => exact .expire (expires_expireUploads h)
  | rollback draw =>
      simp only [apply]
      split
      · rename_i heq
        obtain ⟨_, _, rfl⟩ := nextval_ok_iff.mp heq
        exact .still rfl rfl rfl (by simp)
      · exact .refl _ _ _

theorem Change.fileSeq_le {sha256 : Bytes → Bytes} {db db' : Db} {op : Op}
    (h : Change sha256 db op db') : db.fileSeq ≤ db'.fileSeq := by
  cases h with
  | still _ _ _ hle => exact hle
  | put => simp [published, copied]
  | part => simp [recorded, copied]
  | delete => exact le_rfl
  | complete => exact le_rfl
  | abort => exact le_rfl
  | expire h => exact h.fileSeq_eq.ge

end Pgvs3
