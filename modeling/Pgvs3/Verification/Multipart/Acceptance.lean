import Pgvs3.Verification.Multipart.Complete

/-! # What Complete accepts

Complete sorts, counts and zips. Together these accept exactly the permutations of the
recorded parts. -/

namespace Pgvs3

open Library

/-- Number and hex hash of every recorded part of an upload. -/
def recordedPairs (db : Db) (uploadId : Text) : List (ℤ × Text) :=
  (db.uploadParts.rows.filter fun p => p.uploadId = uploadId).map fun p =>
    (p.partNo, hex p.sha256)

theorem recordedPairs_perm (db : Db) (uploadId : Text) :
    ((recordedParts db uploadId).map UploadPartRow.listing).Perm (recordedPairs db uploadId) :=
  sortByKey_perm.map _

theorem sortListed_eq_iff {db : Db} {uploadId : Text} {listed : List (ℤ × Text)} :
    sortListed listed = (recordedParts db uploadId).map UploadPartRow.listing ↔
      listed.Perm (recordedPairs db uploadId) := by
  constructor
  · intro h
    have hsort : listed.Perm (sortListed listed) := sortByKey_perm.symm
    exact (h ▸ hsort).trans (recordedPairs_perm db uploadId)
  · intro h
    exact sortListed_of_perm (h.trans (recordedPairs_perm db uploadId).symm)

theorem completeAccepts_iff {db : Db} {uploadId bucket key : Text} {listed : List (ℤ × Text)}
    (hupload : UploadAt db uploadId bucket key) :
    CompleteAccepts db uploadId bucket key listed ↔
      listed ≠ [] ∧ listed.Perm (recordedPairs db uploadId) := by
  have hnil : listed.Perm (recordedPairs db uploadId) → (recordedParts db uploadId ≠ [] ↔ listed ≠ []) := by
    intro hperm
    have hlen := (hperm.trans (recordedPairs_perm db uploadId).symm).length_eq
    rw [List.length_map] at hlen
    rw [← List.length_pos_iff, ← List.length_pos_iff, hlen]
  unfold CompleteAccepts
  rw [sortListed_eq_iff]
  constructor
  · rintro ⟨-, hne, hperm⟩
    exact ⟨(hnil hperm).mp hne, hperm⟩
  · rintro ⟨hne, hperm⟩
    exact ⟨hupload, (hnil hperm).mpr hne, hperm⟩

/-- Complete of an upload of `bucket` and `key` publishes for exactly the permutations of the
recorded parts, always the same object, and otherwise changes nothing. -/
structure AcceptsExactly (sha256 : Bytes → Bytes) (db : Db) (now : ℤ) (uploadId bucket key : Text) :
    Prop where
  done_iff : ∀ listed,
    (∃ db' etag size, completeUpload sha256 db now uploadId bucket key listed =
      .ok (db', .done bucket key etag size)) ↔
    listed ≠ [] ∧ listed.Perm (recordedPairs db uploadId)
  published : ∃ db' row, db'.objects.find? (bucket, key) = some row ∧
    row.parts = some ((recordedParts db uploadId).map (·.fileId)) ∧
    row.partEnds = some (cumulate 0 ((recordedParts db uploadId).map (·.size))) ∧
    row.size = ((recordedParts db uploadId).map (·.size)).sum ∧
    row.etag = sha256 ((recordedParts db uploadId).flatMap (·.sha256)) ∧
    ∀ listed, listed ≠ [] → listed.Perm (recordedPairs db uploadId) →
      completeUpload sha256 db now uploadId bucket key listed =
        .ok (db', .done bucket key row.etag row.size)
  refused : ∀ b k listed,
    ¬ (b = bucket ∧ k = key ∧ listed ≠ [] ∧ listed.Perm (recordedPairs db uploadId)) →
    completeUpload sha256 db now uploadId b k listed = .ok (db, .noSuchUpload) ∨
      completeUpload sha256 db now uploadId b k listed = .ok (db, .invalidPart)

theorem UploadAt.unique {db : Db} {uploadId bucket key b k : Text}
    (h : UploadAt db uploadId bucket key) (h' : UploadAt db uploadId b k) : b = bucket ∧ k = key := by
  obtain ⟨up, hup, rfl, rfl⟩ := h
  obtain ⟨up', hup', rfl, rfl⟩ := h'
  rw [hup, Option.some.injEq] at hup'
  subst hup'
  exact ⟨rfl, rfl⟩

/-- Whatever happened before, Complete of an upload that exists accepts exactly its recorded
parts. -/
theorem complete_accepts_exactly (sha256 : Bytes → Bytes) (past : List Op) (now : ℤ)
    {uploadId bucket key : Text} (hupload : UploadAt (run sha256 Db.empty past) uploadId bucket key) :
    AcceptsExactly sha256 (run sha256 Db.empty past) now uploadId bucket key := by
  have hc : Consistent sha256 (Ledger.empty.run sha256 past) := consistent_empty.run past
  have hdb : (Ledger.empty.run sha256 past).db = run sha256 Db.empty past :=
    ledger_run_db _ _ _
  have hbuckets := uploadsHaveBuckets_run sha256 past
  set db := run sha256 Db.empty past
  have hdone : ∀ listed, CompleteAccepts db uploadId bucket key listed →
      completeUpload sha256 db now uploadId bucket key listed =
        .ok (completed sha256 db now uploadId bucket key,
          .done bucket key (completedRow sha256 db now uploadId bucket key).etag
            (completedRow sha256 db now uploadId bucket key).size) := by
    intro listed haccept
    rw [← hdb] at haccept hbuckets
    have happly := (apply_complete now hc hbuckets haccept).1
    rwa [hdb] at happly
  refine ⟨fun listed => ?_, ⟨completed sha256 db now uploadId bucket key,
    completedRow sha256 db now uploadId bucket key, completed_find? .., rfl, rfl, rfl, rfl, ?_⟩, ?_⟩
  · constructor
    · rintro ⟨db', etag, size, hrun⟩
      exact (completeAccepts_iff hupload).mp (completeUpload_done_iff.mp hrun).1
    · intro hlisted
      exact ⟨_, _, _, hdone listed ((completeAccepts_iff hupload).mpr hlisted)⟩
  · intro listed hne hperm
    exact hdone listed ((completeAccepts_iff hupload).mpr ⟨hne, hperm⟩)
  · intro b k listed hnot
    have hrefuse : ¬ CompleteAccepts db uploadId b k listed := by
      intro haccept
      obtain ⟨rfl, rfl⟩ := hupload.unique haccept.1
      exact hnot ⟨rfl, rfl, (completeAccepts_iff hupload).mp haccept⟩
    rcases completeUpload_cases sha256 db now uploadId b k listed with
      ⟨-, h⟩ | ⟨-, -, h⟩ | ⟨haccept, -, -⟩ | ⟨haccept, -, -⟩
    · exact .inl h
    · exact .inr h
    · exact absurd haccept hrefuse
    · exact absurd haccept hrefuse

/-- Two recorded parts, sent and listed in the other order. -/
theorem complete_accepts_exactly_twoParts :
    AcceptsExactly id (run id Db.empty (abandoned ++ [.uploadPart 3 ['u'] 1 [[5, 6]]])) 4 ['u']
        ['b'] ['k'] ∧
      ∃ db' etag size, completeUpload id
        (run id Db.empty (abandoned ++ [.uploadPart 3 ['u'] 1 [[5, 6]]])) 4 ['u'] ['b'] ['k']
        [(2, hex [1]), (1, hex [5, 6])] = .ok (db', .done ['b'] ['k'] etag size) := by
  have hexact := complete_accepts_exactly id (abandoned ++ [.uploadPart 3 ['u'] 1 [[5, 6]]]) 4
    (uploadExists_iff.mp (by decide +kernel) : UploadAt _ ['u'] ['b'] ['k'])
  exact ⟨hexact, (hexact.done_iff _).mpr ⟨by decide, by decide +kernel⟩⟩

end Pgvs3
