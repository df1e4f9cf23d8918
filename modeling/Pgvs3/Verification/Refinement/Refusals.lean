import Pgvs3.Verification.Refinement.Simulates

/-! # Early replies as steps of the object store

A transaction that gives up changes nothing, and its reply is the one that the object store
gives in the state that the transaction met. -/

namespace Pgvs3

open Library

variable {sha256 : Bytes → Bytes} {db db' : Db} {written : ℤ → Bytes} {job : Job} {a : Outcome}

/-! ## Ingests -/

/-- Why an ingest under a new file id fails. -/
theorem ingestWriter_error {now f : ℤ} {target : WriterTarget} {pushes : List Bytes} {e : DbError}
    (hunused : Unused db f) (h : ingestWriter sha256 db now f target pushes = .error e) :
    (target.bucketExists db = false ∧ e = .bucketDoesNotExist) ∨
      (target.bucketExists db = true ∧ ¬ Storable pushes.flatten ∧ e = .uniqueViolation) ∨
      (target.bucketExists db = true ∧ Storable pushes.flatten ∧ ∃ chunks,
        publish (withChunks db chunks) now target f pushes.flatten.length (sha256 pushes.flatten) =
          .error e) := by
  obtain ⟨hdecode, hsum⟩ := copyStream_decodes sha256 hunused.lower hunused.upper pushes
  unfold ingestWriter at h
  cases hbucket : target.bucketExists db with
  | false =>
      rw [hbucket, if_neg Bool.false_ne_true, Except.error.injEq] at h
      exact .inl ⟨rfl, h.symm⟩
  | true =>
      right
      rw [hbucket, if_pos rfl] at h
      simp only [hsum, copyIn, hdecode] at h
      cases hrows : db.chunks.insertAll? (rowsOf f pushes.flatten) with
      | none =>
          simp only [hrows, Except.error.injEq] at h
          refine .inl ⟨rfl, fun hstorable => ?_, h.symm⟩
          obtain ⟨chunks, hchunks⟩ := Table.exists_insertAll?
            (nodup_of_distinct (f := f) (storable_iff.mp hstorable)) fun c hc d hd hkey =>
              hunused.rowless d hd ((congrArg Prod.fst hkey).trans (fileId_of_mem_rowsOf hc))
          rw [hrows] at hchunks
          cases hchunks
      | some chunks =>
          simp only [hrows] at h
          refine .inr ⟨rfl, storable_of_insertAll hrows, chunks, ?_⟩
          cases hpublish : publish (withChunks db chunks) now target f pushes.flatten.length
              (sha256 pushes.flatten) with
          | error e' =>
              have hpublish' : publish { db with chunks := chunks } now target f
                  pushes.flatten.length (sha256 pushes.flatten) = .error e' := hpublish
              simp only [hpublish', Except.error.injEq] at h
              rw [h]
          | ok db' =>
              have hpublish' : publish { db with chunks := chunks } now target f
                  pushes.flatten.length (sha256 pushes.flatten) = .ok db' := hpublish
              simp only [hpublish'] at h
              cases h

theorem swapObject_error (hdb : Admissible db) {f : ℤ} (hunused : Unused db f)
    {chunks : Table ChunkRow.primaryKey} {now : ℤ} {bucket key : Text} {write : ObjectWrite}
    (hfile : write.fileId = f) (hthere : db.buckets.find? bucket ≠ none) {e : DbError}
    (h : swapObject (withChunks db chunks) now bucket key write = .error e) :
    write.condition.allows (db.objects.find? (bucket, key)) = false ∧ e = .preconditionFailed := by
  cases hallow : write.condition.allows (db.objects.find? (bucket, key)) with
  | false =>
      have hallow' : write.condition.allows ((withChunks db chunks).objects.find? (bucket, key)) =
        false := hallow
      simp only [swapObject, hallow', Bool.false_eq_true, if_false, Except.error.injEq] at h
      exact ⟨rfl, h.symm⟩
  | true =>
      have hok := (@swapObject_ok_iff (withChunks db chunks) _ now bucket key write).mpr
        ⟨hallow, hthere, fun r hr hf => ?_, rfl⟩
      · rw [h] at hok
        cases hok
      · exact (hunused.unowned (hfile ▸ hf ▸ hdb.owned.fileId_owned hr)).elim

theorem commitPart_error {uploadId : Text} {partNo fileId total : ℤ} {sum : Bytes} {e : DbError}
    (h : commitPart db uploadId partNo fileId total sum = .error e) :
    db.uploads.find? uploadId = none ∧ e = .foreignKeyViolation := by
  cases hup : db.uploads.find? uploadId with
  | some up =>
      have hok := (@commitPart_ok_iff db _ uploadId partNo fileId total sum).mpr
        ⟨by simp [hup], rfl⟩
      rw [h] at hok
      cases hok
  | none =>
      unfold commitPart at h
      cases hold : db.uploadParts.find? (uploadId, partNo) with
      | none =>
          simp only [hold, hup, if_true, Except.error.injEq] at h
          exact ⟨rfl, h.symm⟩
      | some p =>
          simp only [hold, hup, if_true, Except.error.injEq] at h
          exact ⟨rfl, h.symm⟩

theorem put_failed (hdb : Admissible db) {now f : ℤ} {bucket key : Text}
    {condition : PutCondition} {pushes : List Bytes} {e : DbError} (hunused : Unused db f)
    (h : ingestWriter sha256 db now f (.object bucket key condition) pushes = .error e) :
    ObjectStore.Step sha256 (db.contents written) (.put now bucket key condition f pushes)
      (.failed e) (db.contents written) := by
  have hthere : (WriterTarget.object bucket key condition).bucketExists db = true →
      db.buckets.find? bucket ≠ none := Option.isSome_iff_ne_none.mp
  rcases ingestWriter_error hunused h with ⟨hbucket, rfl⟩ | ⟨hbucket, hlong, rfl⟩ |
    ⟨hbucket, hstorable, chunks, hpublish⟩
  · have hnone : (db.buckets.find? bucket).isNone := Option.isSome_eq_false_iff.mp hbucket
    exact .putNoBucket (contents_bucket.mpr (Option.isNone_iff_eq_none.mp hnone))
  · exact .putTooLong (mt contents_bucket.mp (hthere hbucket)) hlong
  · obtain ⟨hallow, rfl⟩ := swapObject_error hdb hunused rfl (hthere hbucket) hpublish
    refine .putRefused (mt contents_bucket.mp (hthere hbucket)) (fun hholds => ?_) hstorable
    rw [allows_iff.mpr hholds] at hallow
    cases hallow

theorem uploadPart_refused {now f partNo : ℤ} {id : Text} {pushes : List Bytes} {e : DbError}
    (hunused : Unused db f)
    (h : ingestWriter sha256 db now f (.part id partNo) pushes = .error e) :
    ObjectStore.Step sha256 (db.contents written) (.uploadPart now id partNo f pushes)
      (.failed e) (db.contents written) := by
  rcases ingestWriter_error hunused h with ⟨hbucket, -⟩ | ⟨-, -, rfl⟩ | ⟨-, -, chunks, hpublish⟩
  · cases hbucket
  · exact .uploadPartRace
  · obtain ⟨hnone, rfl⟩ := commitPart_error hpublish
    exact .uploadPartNone (contents_upload.mpr hnone)

/-! ## The other transactions -/

theorem createUpload_refused (hdb : Admissible db) {now : ℤ} {uuid bucket key : Text}
    (h : apply sha256 db (.createUpload now uuid bucket key) = (db, a)) :
    ObjectStore.Step sha256 (db.contents written) (.createUpload now uuid bucket key) a
      (db.contents written) := by
  simp only [apply, createUpload] at h
  by_cases hbucket : db.buckets.find? bucket = none
  · simp only [hbucket, if_true, Prod.mk.injEq, true_and] at h
    subst h
    exact .createUploadNoBucket (contents_bucket.mpr hbucket)
  · simp only [hbucket, if_false] at h
    cases hat : uploadAt? db bucket key with
    | some up =>
        have hat' := hat
        unfold uploadAt? at hat'
        simp only [hat', Prod.mk.injEq, true_and] at h
        subst h
        obtain ⟨hmem, hb, hk⟩ := (uploadAt?_eq_some_iff hdb).mp hat
        exact .reattach (mt contents_bucket.mp hbucket)
          (contents_uploadAt.mpr ⟨up, Table.find?_eq_some_iff.mpr ⟨hmem, rfl⟩, hb, hk, rfl⟩)
    | none =>
        unfold uploadAt? at hat
        simp only [hat] at h
        cases hinsert : db.uploads.insert? ⟨uuid, bucket, key, now⟩ with
        | none =>
            simp only [hinsert, Prod.mk.injEq, true_and] at h
            subst h
            refine .uuidTaken fun hnone => ?_
            obtain ⟨uploads, huploads⟩ := Table.insert?_isSome (a := ⟨uuid, bucket, key, now⟩)
              (Table.find?_eq_none_iff.mp (contents_upload.mp hnone))
            rw [hinsert] at huploads
            cases huploads
        | some uploads =>
            simp only [hinsert, Prod.mk.injEq] at h
            have hrows := (Table.insert?_eq_some_iff.mp hinsert).2
            have hsame : uploads = db.uploads := congrArg Db.uploads h.1
            rw [hsame] at hrows
            simp at hrows

theorem completeUpload_refused (hdb : Admissible db) (hf : Faithful sha256 written db) {now : ℤ}
    {id bucket key : Text} {listed : List (ℤ × Text)}
    (h : apply sha256 db (.completeUpload now id bucket key listed) = (db, a)) :
    ObjectStore.Step sha256 (db.contents written) (.completeUpload now id bucket key listed) a
      (db.contents written) := by
  simp only [apply] at h
  rcases completeUpload_cases sha256 db now id bucket key listed with
    ⟨hat, heq⟩ | ⟨hat, hnot, heq⟩ | ⟨haccept, hfits, -⟩ | ⟨⟨⟨up, hup, -⟩, -⟩, -, heq⟩
  · rw [heq] at h
    cases h
    exact .completeNone fun u hu => hat (contents_uploadAt_iff.mp ⟨u, hu⟩)
  · rw [heq] at h
    cases h
    obtain ⟨up, hup, hb, hk⟩ := hat
    refine .completeInvalid (contents_uploadAt.mpr ⟨up, hup, hb, hk, rfl⟩) fun parts hparts => ?_
    obtain ⟨-, hne, hsorted⟩ := (hf.completes_iff hup).mp hparts
    exact hnot ⟨⟨up, hup, hb, hk⟩, hne, hsorted⟩
  · exact (hfits (haccept.fits hdb)).elim
  · rw [heq, Prod.mk.injEq] at h
    have hgone : (completed sha256 db now id bucket key).uploads.find? id = none :=
      Table.find?_eq_none_iff.mpr fun u hu => by simpa using (Table.mem_deleteWhere.mp hu).2
    rw [h.1, hup] at hgone
    cases hgone

theorem expireUploads_refused {now : ℤ} {budget : ExpiryBudget}
    (h : apply sha256 db (.expireUploads now budget) = (db, a)) :
    ObjectStore.Step sha256 (db.contents written) (.expireUploads now budget) a
      (db.contents written) := by
  obtain ⟨grace, maxRows, bucket⟩ := budget
  simp only [apply, expireUploads] at h
  cases grace with
  | none =>
      cases h
      exact .expireInvalid fun g m hvalid => by simp [ExpiryBudget.Valid] at hvalid
  | some grace =>
      cases maxRows with
      | none =>
          cases h
          exact .expireInvalid fun g m hvalid => by simp [ExpiryBudget.Valid] at hvalid
      | some maxRows =>
          by_cases hbudget : grace < 0 ∨ maxRows < 1 ∨ maxRows > 8192
          · simp only [hbudget, if_true, Prod.mk.injEq, true_and] at h
            subst h
            refine .expireInvalid fun g m hvalid => ?_
            simp only [ExpiryBudget.Valid, Option.some.injEq] at hvalid
            omega
          · simp only [hbudget, if_false, Prod.mk.injEq] at h
            obtain ⟨-, rfl⟩ := h
            exact .expire ⟨rfl, rfl, by omega, by omega, by omega⟩ fun id => .inl rfl

/-- Every early reply is a step of the object store that changes nothing. -/
theorem Refused.simulates (hdb : Admissible db) (hf : Faithful sha256 written db)
    (hrefused : Refused sha256 job db a)
    (hingest : ∀ f, job.fileId? = some f → (∃ e, a = .failed e) ∧ Unused db f) :
    ObjectStore.Step sha256 (db.contents written) job a (db.contents written) := by
  rcases hrefused with h | ⟨hpart, rfl⟩
  · cases job with
    | createBucket now name =>
        cases hinsert : db.buckets.insert? ⟨name, now⟩ with
        | none =>
            simp only [Job.serial, apply, createBucket, hinsert, Prod.mk.injEq, true_and] at h
            subst h
            refine .createBucketAgain fun hnone => ?_
            obtain ⟨buckets, hbuckets⟩ := Table.insert?_isSome (a := ⟨name, now⟩)
              (Table.find?_eq_none_iff.mp (contents_bucket.mp hnone))
            rw [hinsert] at hbuckets
            cases hbuckets
        | some buckets =>
            simp only [Job.serial, apply, createBucket, hinsert, Prod.mk.injEq] at h
            have hrows := (Table.insert?_eq_some_iff.mp hinsert).2
            have hsame : buckets = db.buckets := congrArg Db.buckets h.1
            rw [hsame] at hrows
            simp at hrows
    | deleteBucket name =>
        simp only [Job.serial, apply, deleteBucket] at h
        by_cases hnone : db.buckets.find? name = none
        · simp only [hnone, if_true, Prod.mk.injEq, true_and] at h
          subst h
          exact .deleteBucketNone (contents_bucket.mpr hnone)
        · simp only [hnone, if_false] at h
          split at h
          · rename_i hoccupied
            cases h
            exact .deleteBucketOccupied (mt contents_bucket.mp hnone)
              (contents_occupied.mpr (decide_eq_true hoccupied))
          · have hgone : (db.buckets.deleteWhere fun b => b.name = name).find? name = none :=
              Table.find?_eq_none_iff.mpr fun b hb => by simpa using (Table.mem_deleteWhere.mp hb).2
            have hsame := congrArg Db.buckets (congrArg Prod.fst h)
            simp only at hsame
            rw [hsame] at hgone
            exact (hnone hgone).elim
    | put now bucket key condition f pushes =>
        obtain ⟨⟨e, rfl⟩, hunused⟩ := hingest f rfl
        simp only [Job.serial] at h
        split at h
        · rename_i e' herror
          cases h
          exact put_failed hdb hunused herror
        · cases h
    | delete bucket key =>
        simp only [Job.serial, apply, delete] at h
        cases hold : db.objects.find? (bucket, key) with
        | none =>
            simp only [hold, Prod.mk.injEq] at h
            obtain ⟨-, rfl⟩ := h
            exact .deleteNone (contents_object.mpr hold)
        | some r =>
            have hgone : (db.objects.deleteWhere fun q => q.primaryKey = (bucket, key)).find?
                (bucket, key) = none :=
              Table.find?_eq_none_iff.mpr fun q hq => by simpa using (Table.mem_deleteWhere.mp hq).2
            simp only [hold, Prod.mk.injEq] at h
            have hsame := congrArg Db.objects h.1
            simp only [reap] at hsame
            rw [hsame, hold] at hgone
            cases hgone
    | createUpload now uuid bucket key => exact createUpload_refused hdb h
    | uploadPart now id partNo f pushes =>
        obtain ⟨⟨e, rfl⟩, hunused⟩ := hingest f rfl
        simp only [Job.serial] at h
        split at h
        · rename_i e' herror
          cases h
          exact uploadPart_refused hunused herror
        · cases h
    | completeUpload now id bucket key listed => exact completeUpload_refused hdb hf h
    | abortUpload id bucket key =>
        simp only [Job.serial, apply, abortUpload] at h
        cases hexists : uploadExists db id bucket key with
        | false =>
            simp only [hexists, Bool.false_eq_true, if_false, Prod.mk.injEq, true_and] at h
            subst h
            refine .abortNone fun u hu => ?_
            rw [uploadExists_iff.mpr (contents_uploadAt_iff.mp ⟨u, hu⟩)] at hexists
            cases hexists
        | true =>
            obtain ⟨up, hup, -⟩ := uploadExists_iff.mp hexists
            have hgone : (deleteUpload db id).uploads.find? id = none :=
              Table.find?_eq_none_iff.mpr fun u hu => by simpa using (Table.mem_deleteWhere.mp hu).2
            simp only [hexists, if_true, Prod.mk.injEq] at h
            have hsame := congrArg Db.uploads h.1
            have hsame : (deleteUpload db id).uploads = db.uploads := hsame
            rw [hsame, hup] at hgone
            cases hgone
    | expireUploads now budget => exact expireUploads_refused h
  · cases job with
    | uploadPart => exact .uploadPartRace
    | _ => exact (hpart rfl).elim

end Pgvs3
