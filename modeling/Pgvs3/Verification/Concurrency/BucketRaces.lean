import Pgvs3.Verification.Concurrency.Interleaving

/-! # Bucket deletion against writes -/

namespace Pgvs3

open Library

variable {hash : Text → Text → ℤ} {sha256 : Bytes → Bytes}

/-! ## Replies of jobs run alone -/

/-- A bucket deletion never fails, and its reply tells whether the bucket is occupied. -/
theorem deleteBucket_reply {db db' : Db} {name : Text} {a : Outcome}
    (h : (Job.deleteBucket name).serial sha256 db = (db', a)) :
    (a = .bucketDeletion .deleted → Sql.occupied db name = false) ∧
      (a = .bucketDeletion .notEmpty → Sql.occupied db name = true) ∧
      ∀ e, a ≠ .failed e := by
  simp only [Job.serial, apply, Prod.mk.injEq] at h
  obtain ⟨-, rfl⟩ := h
  unfold deleteBucket Sql.occupied
  split
  · simp
  · split
    · rename_i hocc
      simpa using hocc
    · rename_i hocc
      simpa using hocc

theorem put_bucket {db db' : Db} {now fileId size : ℤ} {bucket key : Text}
    {condition : PutCondition} {pushes : List Bytes} {sum : Bytes}
    (h : (Job.put now bucket key condition fileId pushes).serial sha256 db =
      (db', .stored size sum)) : db.buckets.find? bucket ≠ none := by
  intro hnone
  have hmissing : (WriterTarget.object bucket key condition).bucketExists db = false := by
    simp [WriterTarget.bucketExists, hnone]
  simp [Job.serial, ingestWriter, hmissing] at h

theorem createUpload_bucket {db db' : Db} {now : ℤ} {uuid bucket key id : Text}
    (h : (Job.createUpload now uuid bucket key).serial sha256 db = (db', .upload (some id))) :
    db.buckets.find? bucket ≠ none := by
  intro hnone
  simp [Job.serial, apply, createUpload, hnone] at h

/-! ## Under any interleaving -/

/-- Whatever runs beside it, a bucket deletion answers Deleted only over a bucket without
objects and uploads, NotEmpty only over one that has some, and never meets a foreign key;
what commits to a bucket does so while the bucket is there. -/
theorem bucket_deletion_never_races {labels : List (Label Job)} {w : StoreWorld}
    (h : StoreReaches hash sha256 labels w) {r : Reply Db Job Outcome} (hr : r ∈ w.log) :
    (∀ name, r.job = .deleteBucket name →
      (r.reply = .bucketDeletion .deleted →
        (∀ o ∈ r.before.objects, o.bucket ≠ name) ∧ ∀ u ∈ r.before.uploads, u.bucket ≠ name) ∧
      (r.reply = .bucketDeletion .notEmpty →
        (∃ o ∈ r.before.objects, o.bucket = name) ∨ ∃ u ∈ r.before.uploads, u.bucket = name) ∧
      r.reply ≠ .failed .foreignKeyViolation) ∧
    (∀ now bucket key condition fileId pushes size sum,
      r.job = .put now bucket key condition fileId pushes → r.reply = .stored size sum →
        r.before.buckets.find? bucket ≠ none) ∧
    ∀ now uuid bucket key id, r.job = .createUpload now uuid bucket key →
      r.reply = .upload (some id) → r.before.buckets.find? bucket ≠ none := by
  have hserial : (∀ now budget, r.job ≠ .expireUploads now budget) → r.job.part? = none →
      ∃ db, r.job.serial sha256 r.before = (db, r.reply) := by
    intro hjob hpart
    exact (h.serial hr hjob).resolve_right fun hunique => hunique.1 hpart
  refine ⟨?_, ?_, ?_⟩
  · intro name hjob
    obtain ⟨db, halone⟩ := hserial (by simp [hjob]) (by simp [hjob, Job.part?])
    rw [hjob] at halone
    obtain ⟨hdeleted, hnotEmpty, hfailed⟩ := deleteBucket_reply halone
    refine ⟨fun hreply => occupied_eq_false_iff.mp (hdeleted hreply), ?_, hfailed _⟩
    exact fun hreply => of_decide_eq_true (hnotEmpty hreply)
  · intro now bucket key condition fileId pushes size sum hjob hreply
    obtain ⟨db, halone⟩ := hserial (by simp [hjob]) (by simp [hjob, Job.part?])
    rw [hjob, hreply] at halone
    exact put_bucket halone
  · intro now uuid bucket key id hjob hreply
    obtain ⟨db, halone⟩ := hserial (by simp [hjob]) (by simp [hjob, Job.part?])
    rw [hjob, hreply] at halone
    exact createUpload_bucket halone

/-- A PUT and a CreateMultipartUpload into a bucket that is being deleted. -/
def bucketRace : List (Label Job) :=
  [.begin (.createBucket 0 ['b']), .run 0 0, .run 0 0,
    .begin (.put 1 ['b'] ['k'] .unconditional 1 [[7]]), .begin (.deleteBucket ['b']),
    .begin (.createUpload 2 ['u'] ['b'] ['k']), .run 1 0, .run 3 0, .run 3 0, .run 3 0, .run 3 0,
    .run 1 0, .run 1 0, .run 1 0, .run 1 0, .run 1 0, .run 1 0, .run 2 0, .run 2 0]

theorem bucket_deletion_never_races_bucketRace :
    ∃ w, StoreReaches (fun _ _ => 0) id bucketRace w ∧ ∃ r ∈ w.log,
      r.job = .deleteBucket ['b'] ∧ r.reply = .bucketDeletion .notEmpty ∧
      ((∃ o ∈ r.before.objects, o.bucket = ['b']) ∨ ∃ u ∈ r.before.uploads, u.bucket = ['b']) := by
  have hrun : ((World.idle Db.empty : StoreWorld).runs (store (fun _ _ => 0) id) bucketRace).any
      (fun w => w.log.any fun r =>
        r.job = .deleteBucket ['b'] ∧ r.reply = .bucketDeletion .notEmpty) = true := by
    decide +kernel
  obtain ⟨w, hw, hlog⟩ := (Option.any_eq_true _ _).mp hrun
  obtain ⟨r, hr, hreply⟩ := List.any_eq_true.mp hlog
  obtain ⟨hjob, hreply⟩ := of_decide_eq_true hreply
  have hreach : StoreReaches (fun _ _ => 0) id bucketRace w := World.trace_of_runs hw
  exact ⟨w, hreach, r, hr, hjob, hreply,
    ((bucket_deletion_never_races hreach hr).1 _ hjob).2.1 hreply⟩

end Pgvs3
