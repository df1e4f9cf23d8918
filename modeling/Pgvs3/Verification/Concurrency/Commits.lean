import Pgvs3.Verification.Concurrency.Rely

/-! # What a commit does

Every commit is that of the same transaction run alone on the rows committed before it,
and it leaves alone what other transactions have locked. -/

namespace Pgvs3

open Library

/-- The commits of each job: the rows they are made on, the locks by which they are made,
and their effect. -/
inductive Commits (hash : Text → Text → ℤ) (sha256 : Bytes → Bytes) (held : List Lock) (db : Db) :
    Job → Outcome → Db → Prop where
  | createBucket {now : ℤ} {name : Text} {buckets : Table BucketRow.name}
      (hlock : .row (.bucket name) .update ∈ held)
      (hinsert : db.buckets.insert? ⟨name, now⟩ = some buckets) :
      Commits hash sha256 held db (.createBucket now name) .ok { db with buckets := buckets }
  | deleteBucket {name : Text} (hlock : .row (.bucket name) .update ∈ held)
      (hthere : db.buckets.find? name ≠ none) (hvacant : Sql.occupied db name = false) :
      Commits hash sha256 held db (.deleteBucket name) (.bucketDeletion .deleted)
        { db with buckets := db.buckets.deleteWhere (fun b => b.name = name) }
  | put {now fileId : ℤ} {bucket key : Text} {condition : PutCondition} {pushes : List Bytes}
      {chunks : Table ChunkRow.primaryKey} (hkey : .key (hash bucket key) ∈ held)
      (hbucket : .row (.bucket bucket) .keyShare ∈ held) (hfile : .file fileId ∈ held)
      (hunused : Unused db fileId) (hthere : db.buckets.find? bucket ≠ none)
      (hallow : condition.allows (db.objects.find? (bucket, key)) = true)
      (hrows : db.chunks.insertAll? (rowsOf fileId pushes.flatten) = some chunks) :
      Commits hash sha256 held db (.put now bucket key condition fileId pushes)
        (.stored pushes.flatten.length (sha256 pushes.flatten))
        (published (withChunks db chunks)
          ((putWrite sha256 fileId condition pushes.flatten).row now bucket key)
          (db.objects.find? (bucket, key)))
  | delete {bucket key : Text} {r : ObjectRow} (hkey : .key (hash bucket key) ∈ held)
      (hold : db.objects.find? (bucket, key) = some r) :
      Commits hash sha256 held db (.delete bucket key) (.found true) (deleted db r)
  | deleteNone {bucket key : Text} (hold : db.objects.find? (bucket, key) = none) :
      Commits hash sha256 held db (.delete bucket key) (.found false) db
  | createUpload {now : ℤ} {uuid bucket key : Text} {uploads : Table UploadRow.uploadId}
      (hbucket : .row (.bucket bucket) .keyShare ∈ held)
      (hkey : .row (.uploadKey bucket key) .update ∈ held)
      (hid : .row (.upload uuid) .update ∈ held) (hthere : db.buckets.find? bucket ≠ none)
      (hnone : uploadAt? db bucket key = none)
      (hinsert : db.uploads.insert? ⟨uuid, bucket, key, now⟩ = some uploads) :
      Commits hash sha256 held db (.createUpload now uuid bucket key) (.upload (some uuid))
        { db with uploads := uploads }
  | reattach {now : ℤ} {uuid bucket key : Text} {up : UploadRow}
      (hthere : db.buckets.find? bucket ≠ none) (hup : uploadAt? db bucket key = some up) :
      Commits hash sha256 held db (.createUpload now uuid bucket key) (.upload (some up.uploadId)) db
  | uploadPart {now partNo fileId : ℤ} {uploadId : Text} {pushes : List Bytes}
      {chunks : Table ChunkRow.primaryKey} (hupload : .row (.upload uploadId) .keyShare ∈ held)
      (hpart : .row (.part uploadId partNo) .update ∈ held) (hfile : .file fileId ∈ held)
      (hunused : Unused db fileId) (hthere : db.uploads.find? uploadId ≠ none)
      (hrows : db.chunks.insertAll? (rowsOf fileId pushes.flatten) = some chunks) :
      Commits hash sha256 held db (.uploadPart now uploadId partNo fileId pushes)
        (.stored pushes.flatten.length (sha256 pushes.flatten))
        (recorded (withChunks db chunks) (partRecord sha256 uploadId partNo fileId pushes.flatten))
  | completeUpload {now : ℤ} {uploadId bucket key : Text} {listed : List (ℤ × Text)}
      (hkey : .key (hash bucket key) ∈ held) (hupload : .row (.upload uploadId) .update ∈ held)
      (hparts : ∀ p ∈ db.uploadParts, p.uploadId = uploadId →
        .row (.part uploadId p.partNo) .delete ∈ held)
      (haccept : CompleteAccepts db uploadId bucket key listed) :
      Commits hash sha256 held db (.completeUpload now uploadId bucket key listed)
        (.completed (.done bucket key (completeWrite sha256 (recordedParts db uploadId)).etag
          (completeWrite sha256 (recordedParts db uploadId)).size))
        (completed sha256 db now uploadId bucket key)
  | abortUpload {uploadId bucket key : Text} (hupload : .row (.upload uploadId) .update ∈ held)
      (hparts : ∀ p ∈ db.uploadParts, p.uploadId = uploadId →
        .row (.part uploadId p.partNo) .delete ∈ held)
      (hat : UploadAt db uploadId bucket key) :
      Commits hash sha256 held db (.abortUpload uploadId bucket key) (.found true)
        (aborted db uploadId)
  | expireUploads {now rows : ℤ} {budget : ExpiryBudget} {db' : Db} (hexpires : Expires db db')
      (huploads : ∀ u ∈ db.uploads, u ∉ db'.uploads → .row (.upload u.uploadId) .update ∈ held)
      (hparts : ∀ p ∈ db.uploadParts, p ∉ db'.uploadParts →
        .row (.upload p.uploadId) .update ∈ held ∧ .row (.part p.uploadId p.partNo) .delete ∈ held)
      (hchunks : ∀ c ∈ db.chunks, c ∉ db'.chunks → ∃ p ∈ db.uploadParts,
        p.fileId = c.fileId ∧ .row (.upload p.uploadId) .update ∈ held)
      (hcascade : ∀ u ∈ db.uploads, u ∉ db'.uploads → ∀ p ∈ db'.uploadParts,
        p.uploadId ≠ u.uploadId) :
      Commits hash sha256 held db (.expireUploads now budget) (.expired rows) db'

/-! ## The same as alone -/

theorem Owned.fileId_owned {db : Db} (h : Owned db) {r : ObjectRow} (hr : r ∈ db.objects) :
    r.fileId ∈ ownedFiles db :=
  mem_ownedFiles.mpr (.inl ⟨r, hr, h.fileId_mem_files hr⟩)

theorem Unused.lower {db : Db} {f : ℤ} (h : Unused db f) : -2 ^ 63 ≤ f := by
  have := h.positive
  omega

theorem Unused.upper {db : Db} {f : ℤ} (h : Unused db f) : f < 2 ^ 63 := by
  have := h.le_max
  unfold maxFileId at this
  omega

/-- The first file of a recorded part is not named by an object. -/
theorem CompleteAccepts.unpublished {db : Db} (hdb : Admissible db) {uploadId bucket key : Text}
    {listed : List (ℤ × Text)} (h : CompleteAccepts db uploadId bucket key listed) :
    ∀ r ∈ db.objects, r.fileId ≠ ((recordedParts db uploadId).map (·.fileId)).headD 0 := by
  obtain ⟨_, hne, _⟩ := h
  intro r hr hf
  cases hrows : recordedParts db uploadId with
  | nil => exact (hne hrows).elim
  | cons p rest =>
      have hp : p ∈ db.uploadParts := (mem_recordedParts.mp (by rw [hrows]; simp)).1
      rw [hrows] at hf
      have hfile : r.fileId = p.fileId := hf
      exact hdb.owned.object_part_disjoint hr hp (hfile ▸ hdb.owned.fileId_mem_files hr)

theorem CompleteAccepts.fits {db : Db} (hdb : Admissible db) {uploadId bucket key : Text}
    {listed : List (ℤ × Text)} (h : CompleteAccepts db uploadId bucket key listed) :
    CompleteFits db uploadId bucket key := by
  obtain ⟨up, hup, rfl, rfl⟩ := h.1
  exact ⟨hdb.uploads up (Table.find?_eq_some_iff.mp hup).1,
    fun r hr hf => (h.unpublished hdb r hr hf).elim⟩

theorem Commits.serial {hash : Text → Text → ℤ} {sha256 : Bytes → Bytes} {held : List Lock}
    {db db' : Db} {job : Job} {a : Outcome} (hdb : Admissible db)
    (h : Commits hash sha256 held db job a db') (hjob : ∀ now budget, job ≠ .expireUploads now budget) :
    job.serial sha256 db = (db', a) := by
  cases h with
  | createBucket _ hinsert => simp [Job.serial, apply, Pgvs3.createBucket, hinsert]
  | deleteBucket _ hthere hvacant =>
      have hvacant' := of_decide_eq_false hvacant
      simp only [Job.serial, apply, Pgvs3.deleteBucket, hthere, if_false, hvacant']
  | @put now fileId bucket key condition pushes chunks _ _ _ hunused hthere hallow hrows =>
      have hpublish : publish (withChunks db chunks) now (.object bucket key condition) fileId
          pushes.flatten.length (sha256 pushes.flatten) = .ok (published (withChunks db chunks)
            ((putWrite sha256 fileId condition pushes.flatten).row now bucket key)
            (db.objects.find? (bucket, key))) := by
        refine swapObject_ok_iff.mpr ⟨hallow, hthere, ?_, rfl⟩
        intro r hr hf
        have hfile : r.fileId = fileId := hf
        exact (hunused.unowned (hfile ▸ hdb.owned.fileId_owned hr)).elim
      have hone := (@ingestWriter_ok_iff sha256 db _ now fileId _ (.object bucket key condition) pushes _
        hunused.lower hunused.upper).mpr
        ⟨by simpa [WriterTarget.bucketExists, Option.isSome_iff_ne_none] using hthere, rfl, rfl,
          chunks, hrows, hpublish⟩
      simp only [Job.serial, hone]
  | @delete bucket key r _ hold =>
      have hkey := (Table.find?_eq_some_iff.mp hold).2
      have heq : reap { db with
          objects := db.objects.deleteWhere (fun q => q.primaryKey = (bucket, key)) }
          r.fileId r.parts = deleted db r := by
        rw [← hkey]
        rfl
      simp only [Job.serial, apply, Pgvs3.delete, hold, heq]
  | @deleteNone bucket key hold =>
      have hsame : db.objects.deleteWhere (fun r => r.primaryKey = (bucket, key)) = db.objects := by
        apply Table.ext
        simp only [Table.deleteWhere, List.filter_eq_self]
        intro r hr
        simpa using Table.find?_eq_none_iff.mp hold r hr
      simp only [Job.serial, apply, Pgvs3.delete, hold, hsame]
  | createUpload _ _ _ hthere hnone hinsert =>
      unfold uploadAt? at hnone
      simp only [Job.serial, apply, Pgvs3.createUpload, hthere, if_false, hnone, hinsert]
  | reattach hthere hup =>
      unfold uploadAt? at hup
      simp only [Job.serial, apply, Pgvs3.createUpload, hthere, if_false, hup]
  | @uploadPart now partNo fileId uploadId pushes chunks _ _ _ hunused hthere hrows =>
      have hpublish : publish (withChunks db chunks) now (.part uploadId partNo) fileId
          pushes.flatten.length (sha256 pushes.flatten) = .ok (recorded (withChunks db chunks)
            (partRecord sha256 uploadId partNo fileId pushes.flatten)) :=
        commitPart_ok_iff.mpr ⟨hthere, rfl⟩
      have hone := (@ingestWriter_ok_iff sha256 db _ now fileId _ (.part uploadId partNo) pushes _
        hunused.lower hunused.upper).mpr
        ⟨rfl, rfl, rfl, chunks, hrows, hpublish⟩
      simp only [Job.serial, hone]
  | completeUpload _ _ _ haccept =>
      simp only [Job.serial, apply, haccept.completes (haccept.fits hdb)]
  | abortUpload _ _ hat =>
      simp only [Job.serial, apply, Pgvs3.abortUpload, uploadExists_iff.mpr hat, if_true]
      rfl
  | expireUploads => exact (hjob _ _ rfl).elim

end Pgvs3
