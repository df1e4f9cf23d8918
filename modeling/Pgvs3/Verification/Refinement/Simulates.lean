import Pgvs3.Verification.Refinement.Represents

/-! # Transactions as steps of the object store

Every commit, and every early reply, is the step of the object store that its job and its
reply name. -/

namespace Pgvs3

open Library

variable {hash : Text → Text → ℤ} {sha256 : Bytes → Bytes} {held : List Lock} {db db' : Db}
  {written written' : ℤ → Bytes} {job : Job} {a : Outcome}

/-- The bodies of the files once `a` was replied to `job`. -/
def Job.record (job : Job) (a : Outcome) (written : ℤ → Bytes) : ℤ → Bytes :=
  match job.ingest?, a with
  | some (f, body), .stored _ _ => Function.update written f body
  | _, _ => written

theorem update_of_unused {f : ℤ} (hunused : Unused db f) (body : Bytes) :
    ∀ g ∈ ownedFiles db, Function.update written f body g = written g := by
  intro g hg
  refine Function.update_of_ne ?_ ..
  rintro rfl
  exact hunused.unowned hg

theorem storable_iff {body : Bytes} : Storable body ↔ DistinctRows body := by
  rw [Storable, DistinctRows, ← not_lt, ← not_lt, lt_blockCount_iff rowBytes_pos, Nat.mul_comm]

theorem storable_of_insertAll {f : ℤ} {body : Bytes} {chunks : Table ChunkRow.primaryKey}
    (h : db.chunks.insertAll? (rowsOf f body) = some chunks) : Storable body :=
  storable_iff.mpr (distinct_of_nodup (Table.insertAll?_eq_some_iff.mp h).1)

/-! ## Complete -/

theorem lists_recordedParts {id : Text} {up : UploadRow} (hup : db.uploads.find? id = some up) :
    (up.staging db written).Lists
      ((recordedParts db id).map fun p => (p.partNo, written p.fileId)) := by
  obtain rfl := (Table.find?_eq_some_iff.mp hup).2
  constructor
  · rw [List.pairwise_map]
    exact recordedParts_increasing db up.uploadId
  · intro no body
    simp only [List.mem_map, mem_recordedParts, UploadRow.staging, stagedParts,
      Option.map_eq_some_iff, Table.find?_eq_some_iff, Prod.mk.injEq, UploadPartRow.primaryKey]
    constructor
    · rintro ⟨p, ⟨hp, hid⟩, hno, hbody⟩
      exact ⟨p, ⟨hp, hid, hno⟩, hbody⟩
    · rintro ⟨p, ⟨hp, hid, hno⟩, hbody⟩
      exact ⟨p, ⟨hp, hid⟩, hno, hbody⟩

theorem Faithful.listing (hf : Faithful sha256 written db) (id : Text) :
    (recordedParts db id).map UploadPartRow.listing =
      ((recordedParts db id).map fun p => (p.partNo, written p.fileId)).map fun p =>
        (p.1, hex (sha256 p.2)) := by
  rw [List.map_map]
  refine List.map_congr_left fun p hp => ?_
  simp [UploadPartRow.listing, (hf.parts p (mem_recordedParts.mp hp).1).2]

theorem Faithful.completes_iff (hf : Faithful sha256 written db) {id : Text} {up : UploadRow}
    (hup : db.uploads.find? id = some up) {listed : List (ℤ × Text)} {parts : List (ℤ × Bytes)} :
    (up.staging db written).Completes sha256 listed parts ↔
      parts = (recordedParts db id).map (fun p => (p.partNo, written p.fileId)) ∧
        recordedParts db id ≠ [] ∧
        sortListed listed = (recordedParts db id).map UploadPartRow.listing := by
  constructor
  · rintro ⟨hlists, hne, hperm⟩
    obtain rfl := hlists.unique (lists_recordedParts hup)
    rw [← hf.listing] at hperm
    exact ⟨rfl, fun h => hne (by rw [h]; rfl), sortListed_of_perm hperm⟩
  · rintro ⟨rfl, hne, hsorted⟩
    refine ⟨lists_recordedParts hup, by simpa using hne, ?_⟩
    rw [← hf.listing, ← hsorted]
    exact sortByKey_perm.symm

theorem Faithful.complete_etag (hf : Faithful sha256 written db) (id : Text) :
    (completeWrite sha256 (recordedParts db id)).etag =
      sha256 (((recordedParts db id).map fun p => (p.partNo, written p.fileId)).flatMap
        fun p => sha256 p.2) := by
  have hsums : (recordedParts db id).flatMap (·.sha256) =
      (recordedParts db id).flatMap fun p => sha256 (written p.fileId) :=
    List.flatMap_congr fun p hp => (hf.parts p (mem_recordedParts.mp hp).1).2
  simp [completeWrite, hsums, List.flatMap_map]

theorem Faithful.complete_content (hf : Faithful sha256 written db) (now : ℤ)
    (id bucket key : Text) :
    ((completeWrite sha256 (recordedParts db id)).row now bucket key).content written =
      ⟨((recordedParts db id).map fun p => (p.partNo, written p.fileId)).flatMap Prod.snd,
        sha256 (((recordedParts db id).map fun p => (p.partNo, written p.fileId)).flatMap
          fun p => sha256 p.2), now⟩ := by
  have hbody : ((completeWrite sha256 (recordedParts db id)).row now bucket key).files.flatMap
      written =
      ((recordedParts db id).map fun p => (p.partNo, written p.fileId)).flatMap Prod.snd := by
    simp [ObjectRow.files, completeWrite, ObjectWrite.row, List.flatMap_map]
  rw [ObjectRow.content, hbody, ← hf.complete_etag]
  rfl

theorem Faithful.complete_size (hf : Faithful sha256 written db) (id : Text) :
    (completeWrite sha256 (recordedParts db id)).size =
      (((recordedParts db id).map fun p => (p.partNo, written p.fileId)).flatMap Prod.snd).length := by
  have hsizes : ∀ p ∈ recordedParts db id, p.size = (written p.fileId).length := fun p hp =>
    (hf.parts p (mem_recordedParts.mp hp).1).1
  have hholds : ((completeWrite sha256 (recordedParts db id)).row 0 [] []).Holds written :=
    holds_completeWrite hsizes 0 [] []
  have hsize := hholds.size_eq
  simpa [ObjectRow.files, completeWrite, ObjectWrite.row, List.flatMap_map] using hsize

/-! ## Commits -/

theorem staged_deleteUpload {id : Text}
    (h : ∀ p ∈ db.uploadParts, db.uploads.find? p.uploadId ≠ none) :
    ∀ p ∈ (deleteUpload db id).uploadParts, (deleteUpload db id).uploads.find? p.uploadId ≠ none := by
  intro p hp
  obtain ⟨hp, hid⟩ := Table.mem_deleteWhere.mp hp
  have hfind : (deleteUpload db id).uploads.find? p.uploadId = db.uploads.find? p.uploadId :=
    Table.find?_deleteWhere fun u hu => by simpa [hu] using hid
  rw [hfind]
  exact h p hp

/-- What an expiry may do to the uploads. -/
def Stales (held : List Lock) (db : Db) (job : Job) : Prop :=
  ∀ now budget, job = .expireUploads now budget → ∃ grace maxRows, budget.Valid grace maxRows ∧
    ∀ u ∈ db.uploads, .row (.upload u.uploadId) .update ∈ held →
      eligible now grace budget.bucket u = true

theorem Commits.faithful (hf : Faithful sha256 written db)
    (hc : Commits hash sha256 held db job a db') : Faithful sha256 (job.record a written) db' := by
  cases hc with
  | createBucket | deleteBucket | deleteNone | reattach => exact ⟨hf.objects, hf.parts, hf.staged⟩
  | @put now fileId bucket key condition pushes chunks _ _ _ hunused _ _ _ =>
      have hf' : Faithful sha256 (Function.update written fileId pushes.flatten) db :=
        hf.congr (update_of_unused hunused _)
      refine ⟨fun r hr => ?_, hf'.parts, hf'.staged⟩
      rcases Table.mem_upsert.mp hr with ⟨hr, -⟩ | rfl
      · exact hf'.objects r hr
      · exact holds_putWrite _ (Function.update_self ..) now bucket key
  | delete => exact ⟨fun r hr => hf.objects r (Table.mem_deleteWhere.mp hr).1, hf.parts, hf.staged⟩
  | createUpload _ _ _ _ _ hinsert =>
      refine ⟨hf.objects, hf.parts, fun p hp => ?_⟩
      obtain ⟨u, hu⟩ := Option.ne_none_iff_exists'.mp (hf.staged p hp)
      exact Option.ne_none_iff_exists'.mpr ⟨u, Table.find?_insert?_of_some hinsert hu⟩
  | @uploadPart now partNo fileId uploadId pushes chunks _ _ _ hunused hthere _ =>
      have hf' : Faithful sha256 (Function.update written fileId pushes.flatten) db :=
        hf.congr (update_of_unused hunused _)
      refine ⟨hf'.objects, fun p hp => ?_, fun p hp => ?_⟩
      · rcases Table.mem_upsert.mp hp with ⟨hp, -⟩ | rfl
        · exact hf'.parts p hp
        · simp [Job.record, Job.ingest?, partRecord]
      · rcases Table.mem_upsert.mp hp with ⟨hp, -⟩ | rfl
        · exact hf'.staged p hp
        · exact hthere
  | @completeUpload now uploadId bucket key listed _ _ _ haccept =>
      refine ⟨fun r hr => ?_, fun p hp => hf.parts p (Table.mem_deleteWhere.mp hp).1, fun p hp => ?_⟩
      · rcases Table.mem_upsert.mp hr with ⟨hr, -⟩ | rfl
        · exact hf.objects r hr
        · exact holds_completeWrite (fun p hp => (hf.parts p (mem_recordedParts.mp hp).1).1) now
            bucket key
      · exact staged_deleteUpload hf.staged p hp
  | abortUpload =>
      exact ⟨hf.objects, fun p hp => hf.parts p (Table.mem_deleteWhere.mp hp).1,
        staged_deleteUpload hf.staged⟩
  | expireUploads hexpires _ _ _ hcascade =>
      refine ⟨fun r hr => hf.objects r (hexpires.objects_eq ▸ hr),
        fun p hp => hf.parts p (hexpires.parts_sublist.subset hp), fun p hp => ?_⟩
      obtain ⟨u, hu⟩ := Option.ne_none_iff_exists'.mp
        (hf.staged p (hexpires.parts_sublist.subset hp))
      obtain ⟨hmem, hid⟩ := Table.find?_eq_some_iff.mp hu
      have hkept : u ∈ db'.uploads := by
        by_contra hlost
        exact hcascade u hmem hlost p hp hid.symm
      exact Option.ne_none_iff_exists'.mpr ⟨u, Table.find?_eq_some_iff.mpr ⟨hkept, hid⟩⟩

/-- An expiry takes parts and uploads from stale uploads only. -/
theorem Expires.shrinks (hexpires : Expires db db')
    (huploads : ∀ u ∈ db.uploads, u ∉ db'.uploads → .row (.upload u.uploadId) .update ∈ held)
    (hparts : ∀ p ∈ db.uploadParts, p ∉ db'.uploadParts → .row (.upload p.uploadId) .update ∈ held)
    {now grace : ℤ} {bucket : Option Text} (hstale : ∀ u ∈ db.uploads,
      .row (.upload u.uploadId) .update ∈ held → eligible now grace bucket u = true) (id : Text) :
    (db'.contents written).uploads id = (db.contents written).uploads id ∨
      ∃ u, (db.contents written).uploads id = some u ∧ u.Stale now grace bucket ∧
        ∀ v, (db'.contents written).uploads id = some v → u.Shrinks v := by
  have hkeptPart : ∀ id no p, db'.uploadParts.find? (id, no) = some p →
      db.uploadParts.find? (id, no) = some p := by
    intro id no p hp
    obtain ⟨hp, hkey⟩ := Table.find?_eq_some_iff.mp hp
    exact Table.find?_eq_some_iff.mpr ⟨hexpires.parts_sublist.subset hp, hkey⟩
  have hkeptUpload : ∀ v, db'.uploads.find? id = some v → db.uploads.find? id = some v := by
    intro v hv
    obtain ⟨hv, hkey⟩ := Table.find?_eq_some_iff.mp hv
    exact Table.find?_eq_some_iff.mpr ⟨hexpires.uploads_sub v hv, hkey⟩
  cases hu : db.uploads.find? id with
  | none =>
      left
      have hnone : db'.uploads.find? id = none := by
        by_contra hsome
        obtain ⟨v, hv⟩ := Option.ne_none_iff_exists'.mp hsome
        have := hkeptUpload v hv
        rw [hu] at this
        cases this
      rw [contents_upload.mpr hu, contents_upload.mpr hnone]
  | some u =>
      obtain ⟨hmem, rfl⟩ := Table.find?_eq_some_iff.mp hu
      by_cases hlock : Lock.row (.upload u.uploadId) .update ∈ held
      · right
        refine ⟨u.staging db written, by simp [Db.contents, hu], ?_, ?_⟩
        · simpa [eligible, Staging.Stale, UploadRow.staging] using hstale u hmem hlock
        · intro v hv
          obtain ⟨u', hu', rfl⟩ := Option.map_eq_some_iff.mp hv
          obtain rfl := Option.some.inj ((hkeptUpload u' hu').symm.trans hu)
          refine ⟨rfl, rfl, rfl, fun no body hbody => ?_⟩
          obtain ⟨p, hp, rfl⟩ := Option.map_eq_some_iff.mp hbody
          exact Option.map_eq_some_iff.mpr ⟨p, hkeptPart _ _ p hp, rfl⟩
      · left
        have hkept : u ∈ db'.uploads := by
          by_contra hlost
          exact hlock (huploads u hmem hlost)
        have hfind : db'.uploads.find? u.uploadId = some u := Table.find?_eq_some_iff.mpr ⟨hkept, rfl⟩
        have hsame : stagedParts db' written u.uploadId = stagedParts db written u.uploadId := by
          funext no
          cases hp : db.uploadParts.find? (u.uploadId, no) with
          | none =>
              have hnone : db'.uploadParts.find? (u.uploadId, no) = none := by
                by_contra hsome
                obtain ⟨p, hp'⟩ := Option.ne_none_iff_exists'.mp hsome
                have := hkeptPart _ _ p hp'
                rw [hp] at this
                cases this
              simp [stagedParts, hp, hnone]
          | some p =>
              obtain ⟨hpmem, hkey⟩ := Table.find?_eq_some_iff.mp hp
              have hid : p.uploadId = u.uploadId := congrArg Prod.fst hkey
              have hp' : p ∈ db'.uploadParts := by
                by_contra hlost
                exact hlock (hid ▸ hparts p hpmem hlost)
              have hfind' : db'.uploadParts.find? (u.uploadId, no) = some p :=
                Table.find?_eq_some_iff.mpr ⟨hp', hkey⟩
              simp [stagedParts, hp, hfind']
        simp [Db.contents, hu, hfind, UploadRow.staging, hsame]

/-- Every commit is a step of the object store. -/
theorem Commits.simulates (hdb : Admissible db) (hf : Faithful sha256 written db)
    (hc : Commits hash sha256 held db job a db') (hstales : Stales held db job) :
    ObjectStore.Step sha256 (db.contents written) job a (db'.contents (job.record a written)) := by
  cases hc with
  | @createBucket now name buckets _ hinsert =>
      have hfind := Table.find?_insert? hinsert
      have hnone : (db.contents written).buckets name = none :=
        contents_bucket.mpr (Table.find?_eq_none_iff.mpr (Table.insert?_eq_some_iff.mp hinsert).1)
      have hcontents : Db.contents { db with buckets := buckets } written =
          { db.contents written with
            buckets := Function.update (db.contents written).buckets name (some now) } := by
        ext1
        · simp only [Db.contents, hfind]
          exact Function.comp_update (Option.map (·.createdAt)) db.buckets.find? name _
        · rfl
        · rfl
      simp only [Job.record, Job.ingest?, hcontents]
      exact .createBucket hnone
  | @deleteBucket name _ hthere hvacant =>
      have hcontents : Db.contents { db with
            buckets := db.buckets.deleteWhere (fun b => b.name = name) } written =
          { db.contents written with
            buckets := Function.update (db.contents written).buckets name none } := by
        ext1
        · simp only [Db.contents, Table.find?_deleteKey db.buckets name]
          exact Function.comp_update (Option.map (·.createdAt)) db.buckets.find? name _
        · rfl
        · rfl
      simp only [Job.record, Job.ingest?, hcontents]
      refine .deleteBucket (mt contents_bucket.mp hthere) ?_
      rw [contents_occupied, hvacant]
      exact Bool.false_ne_true
  | @put now fileId bucket key condition pushes chunks _ _ _ hunused hthere hallow hrows =>
      have hcontent : ((putWrite sha256 fileId condition pushes.flatten).row now bucket key).content
          (Function.update written fileId pushes.flatten) =
          ⟨pushes.flatten, sha256 pushes.flatten, now⟩ := by
        simp [ObjectRow.content, ObjectRow.files, putWrite, ObjectWrite.row]
      have hsame : (withChunks db chunks).contents (Function.update written fileId pushes.flatten) =
          db.contents written := @contents_congr db _ _ (update_of_unused hunused pushes.flatten)
      simp only [Job.record, Job.ingest?, contents_published, hcontent, hsame]
      exact .put (mt contents_bucket.mp hthere) (allows_iff.mp hallow) (storable_of_insertAll hrows)
  | @delete bucket key r _ hold =>
      have hkey := (Table.find?_eq_some_iff.mp hold).2
      simp only [Job.record, Job.ingest?, contents_deleted, hkey]
      refine .delete fun hnone => ?_
      rw [contents_object, hold] at hnone
      cases hnone
  | deleteNone hold => exact .deleteNone (contents_object.mpr hold)
  | @createUpload now uuid bucket key uploads _ _ _ hthere hnone hinsert =>
      simp only [Job.record, Job.ingest?, contents_insertUpload hf.staged hinsert]
      refine .createUpload (mt contents_bucket.mp hthere) (not_uploadAt hnone) ?_
      exact contents_upload.mpr (Table.find?_eq_none_iff.mpr (Table.insert?_eq_some_iff.mp hinsert).1)
  | @reattach now uuid bucket key up hthere hup =>
      obtain ⟨hmem, hbucket, hkey⟩ := (uploadAt?_eq_some_iff hdb).mp hup
      exact .reattach (mt contents_bucket.mp hthere)
        (contents_uploadAt.mpr ⟨up, Table.find?_eq_some_iff.mpr ⟨hmem, rfl⟩, hbucket, hkey, rfl⟩)
  | @uploadPart now partNo fileId uploadId pushes chunks _ _ _ hunused hthere hrows =>
      obtain ⟨up, hup⟩ := Option.ne_none_iff_exists'.mp hthere
      have hself : Function.update written fileId pushes.flatten fileId = pushes.flatten :=
        Function.update_self ..
      have hsame : (withChunks db chunks).contents (Function.update written fileId pushes.flatten) =
          db.contents written := @contents_congr db _ _ (update_of_unused hunused pushes.flatten)
      have hfind : (withChunks db chunks).uploads.find? uploadId = some up := hup
      have hstaging : up.staging (withChunks db chunks)
          (Function.update written fileId pushes.flatten) = up.staging db written := by
        have hparts : ∀ p ∈ db.uploadParts,
            Function.update written fileId pushes.flatten p.fileId = written p.fileId := fun p hp =>
          update_of_unused hunused _ _ (mem_ownedFiles.mpr (.inr ⟨p, hp, rfl⟩))
        exact congrArg (Staging.mk up.bucket up.key up.createdAt) (stagedParts_congr hparts up.uploadId)
      have hrecorded := @contents_recorded (withChunks db chunks)
        (Function.update written fileId pushes.flatten)
        (partRecord sha256 uploadId partNo fileId pushes.flatten) up hfind
      simp only [Job.record, Job.ingest?, hrecorded, hsame, hstaging]
      have hstaged : (db.contents written).uploads uploadId = some (up.staging db written) :=
        Option.map_eq_some_iff.mpr ⟨up, hup, rfl⟩
      simp only [partRecord, hself]
      exact .uploadPart hstaged (storable_of_insertAll hrows)
  | @completeUpload now uploadId bucket key listed _ _ _ haccept =>
      obtain ⟨⟨up, hup, hbucket, hkey⟩, hne, hsorted⟩ := haccept
      have hcomplete := (hf.completes_iff hup).mpr ⟨rfl, hne, hsorted⟩
      simp only [Job.record, Job.ingest?, completed, contents_deleteUpload, contents_published,
        hf.complete_content, hf.complete_size, hf.complete_etag]
      exact .complete (contents_uploadAt.mpr ⟨up, hup, hbucket, hkey, rfl⟩) hcomplete
  | @abortUpload uploadId bucket key _ _ hat =>
      obtain ⟨u, hu⟩ := contents_uploadAt_iff.mpr hat
      have haborted : (aborted db uploadId).contents written =
          (deleteUpload db uploadId).contents written := rfl
      simp only [Job.record, Job.ingest?, haborted, contents_deleteUpload]
      exact .abort hu
  | @expireUploads now rows budget _ hexpires huploads hparts _ _ =>
      obtain ⟨grace, maxRows, hvalid, hstale⟩ := hstales now budget rfl
      have hcontents : db'.contents written =
          { db.contents written with uploads := (db'.contents written).uploads } := by
        simp only [Db.contents, hexpires.buckets_eq, hexpires.objects_eq]
      simp only [Job.record, Job.ingest?]
      rw [hcontents]
      exact .expire hvalid (hexpires.shrinks huploads (fun p hp hlost => (hparts p hp hlost).1) hstale)

end Pgvs3
