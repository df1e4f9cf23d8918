import Pgvs3.Verification.Multipart.Session

/-! # Completing a session

Complete publishes the last acknowledged attempts in the order of their part numbers, and
the object reads like a single PUT of their concatenation. -/

namespace Pgvs3

open Library

variable {sha256 : Bytes → Bytes}

/-- What a client lists for the parts whose hashes it was answered. -/
def listingOf (sha256 : Bytes → Bytes) (parts : List (ℤ × Bytes)) : List (ℤ × Text) :=
  parts.map fun a => (a.1, hex (sha256 a.2))

theorem Consistent.listing {l : Ledger} (h : Consistent sha256 l) (uploadId : Text) :
    (recordedParts l.db uploadId).map UploadPartRow.listing = listingOf sha256
      ((recordedParts l.db uploadId).map fun p => (p.partNo, l.written p.fileId)) := by
  rw [listingOf, List.map_map]
  apply List.map_congr_left
  intro p hp
  rw [h.parts p (mem_recordedParts.mp hp).1]
  rfl

/-! ## Publishing the recorded parts -/

section Publish

variable {l : Ledger} {uploadId bucket key : Text} {listed : List (ℤ × Text)}

theorem completeFits (hc : Consistent sha256 l) (hbuckets : UploadsHaveBuckets l.db)
    (haccept : CompleteAccepts l.db uploadId bucket key listed) :
    CompleteFits l.db uploadId bucket key := by
  obtain ⟨⟨up, hup, rfl, rfl⟩, hne, -⟩ := haccept
  refine ⟨hbuckets up (Table.find?_eq_some_iff.mp hup).1, ?_⟩
  intro r hr hfile
  cases hparts : recordedParts l.db uploadId with
  | nil => exact (hne hparts).elim
  | cons p rest =>
      rw [hparts] at hfile
      have hp : p ∈ l.db.uploadParts := (mem_recordedParts.mp (hparts ▸ List.mem_cons_self)).1
      have hmem := hc.owned.fileId_mem_files hr
      rw [show r.fileId = p.fileId from hfile] at hmem
      exact (hc.owned.object_part_disjoint hr hp hmem).elim

def completedRow (sha256 : Bytes → Bytes) (db : Db) (now : ℤ) (uploadId bucket key : Text) :
    ObjectRow :=
  (completeWrite sha256 (recordedParts db uploadId)).row now bucket key

theorem completed_find? (sha256 : Bytes → Bytes) (db : Db) (now : ℤ) (uploadId bucket key : Text) :
    (completed sha256 db now uploadId bucket key).objects.find? (bucket, key) =
      some (completedRow sha256 db now uploadId bucket key) :=
  Table.find?_upsert_self

theorem apply_complete (now : ℤ) (hc : Consistent sha256 l) (hbuckets : UploadsHaveBuckets l.db)
    (haccept : CompleteAccepts l.db uploadId bucket key listed) :
    completeUpload sha256 l.db now uploadId bucket key listed =
        .ok (completed sha256 l.db now uploadId bucket key,
          .done bucket key (completeWrite sha256 (recordedParts l.db uploadId)).etag
            (completeWrite sha256 (recordedParts l.db uploadId)).size) ∧
      (l.apply sha256 (.completeUpload now uploadId bucket key listed)).db =
        completed sha256 l.db now uploadId bucket key := by
  have hdone := @CompleteAccepts.completes sha256 _ _ _ _ _ haccept
    (completeFits hc hbuckets haccept) now
  refine ⟨hdone, ?_⟩
  simp only [Ledger.apply, apply, hdone]

end Publish

/-! ## Sessions complete -/

section Session

variable {start l : Ledger} {uploadId : Text} {up : UploadRow} {acked bodies : List (ℤ × Bytes)}
  {listed : List (ℤ × Text)}

/-- The object at the key has one file for each of `bodies`, whole, in order. -/
structure ObjectIs (db : Db) (bucket key : Text) (bodies : List Bytes) : Prop where
  row : ∃ r, db.objects.find? (bucket, key) = some r ∧
    List.Forall₂ (FileIs db) r.files bodies ∧ r.size = bodies.flatten.length ∧
    r.partEnds = some (cumulate 0 (bodies.map fun b => (b.length : ℤ)))

theorem SessionAt.accepts (h : SessionAt start l uploadId up acked) (hc : Consistent sha256 l)
    (hbodies : LastAttempts acked bodies) (hne : bodies ≠ [])
    (hleft : ∀ p ∈ start.db.uploadParts, p.uploadId = uploadId → p.partNo ∈ bodies.map Prod.fst)
    (hlisted : listed.Perm (listingOf sha256 bodies)) :
    CompleteAccepts l.db uploadId up.bucket up.key listed := by
  have hrecorded := h.recorded hbodies hleft
  refine ⟨⟨up, h.upload, rfl, rfl⟩, ?_, ?_⟩
  · intro hnil
    rw [hnil, List.map_nil, eq_comm, sortByKey_eq_nil] at hrecorded
    exact hne hrecorded
  · apply sortListed_of_perm
    rw [hc.listing, hrecorded]
    exact hlisted.trans (sortByKey_perm.map _).symm

/-- The files of the published row carry the bodies in the order of their part numbers. -/
theorem SessionAt.published (now : ℤ) (h : SessionAt start l uploadId up acked)
    (hstart : Consistent sha256 start) (hc : Consistent sha256 l) (hbuckets : UploadsHaveBuckets l.db)
    (hbodies : LastAttempts acked bodies) (hne : bodies ≠ [])
    (hleft : ∀ p ∈ start.db.uploadParts, p.uploadId = uploadId → p.partNo ∈ bodies.map Prod.fst)
    (hlisted : listed.Perm (listingOf sha256 bodies)) {l' : Ledger}
    (hl' : l' = l.apply sha256 (.completeUpload now uploadId up.bucket up.key listed)) :
    l'.db = completed sha256 l.db now uploadId up.bucket up.key ∧ Consistent sha256 l' ∧
      (completedRow sha256 l.db now uploadId up.bucket up.key).files.map l'.written =
        (sortByKey Prod.fst bodies).map Prod.snd ∧
      ∀ f ∈ (completedRow sha256 l.db now uploadId up.bucket up.key).files,
        FileIs l'.db f (l'.written f) := by
  have haccept := h.accepts hc hbodies hne hleft hlisted
  obtain ⟨-, hdb⟩ := apply_complete now hc hbuckets haccept
  rw [← hl'] at hdb
  have hc' : Consistent sha256 l' := hl' ▸ hc.step _
  have hwritten : l'.written = l.written := by
    rw [hl']
    rfl
  have hreaped' : l'.reaped = l.reaped := by
    rw [hl']
    rfl
  refine ⟨hdb, hc', ?_, ?_⟩
  · rw [← h.recorded hbodies hleft, List.map_map, hwritten]
    change ((recordedParts l.db uploadId).map (·.fileId)).map l.written = _
    rw [List.map_map]
    rfl
  · intro f hf
    obtain ⟨p, hp, rfl⟩ := List.mem_map.mp hf
    have hrow : completedRow sha256 l.db now uploadId up.bucket up.key ∈ l'.db.objects := by
      rw [hdb]
      exact (Table.find?_eq_some_iff.mp (completed_find? ..)).1
    refine hc'.fileIs (mem_ownedFiles.mpr (.inl ⟨_, hrow, hf⟩)) ?_
    -- the file was drawn after every file that an expiry has touched
    intro hreaped
    rw [hreaped', h.reaped_eq] at hreaped
    have hdrawn := hstart.reaped_drawn _ hreaped
    have hnew := h.recorded_new hbodies hleft hp
    omega

theorem SessionAt.objectIs (now : ℤ) (h : SessionAt start l uploadId up acked)
    (hstart : Consistent sha256 start) (hc : Consistent sha256 l) (hbuckets : UploadsHaveBuckets l.db)
    (hbodies : LastAttempts acked bodies) (hne : bodies ≠ [])
    (hleft : ∀ p ∈ start.db.uploadParts, p.uploadId = uploadId → p.partNo ∈ bodies.map Prod.fst)
    (hlisted : listed.Perm (listingOf sha256 bodies)) :
    ObjectIs (completed sha256 l.db now uploadId up.bucket up.key) up.bucket up.key
      ((sortByKey Prod.fst bodies).map Prod.snd) := by
  obtain ⟨hdb, hc', hfiles, hwhole⟩ :=
    h.published now hstart hc hbuckets hbodies hne hleft hlisted rfl
  have hfind := completed_find? sha256 l.db now uploadId up.bucket up.key
  have hholds := hc'.objects _ (hdb ▸ (Table.find?_eq_some_iff.mp hfind).1)
  refine ⟨_, hfind, ?_, ?_, ?_⟩
  · rw [← hfiles, List.forall₂_map_right_iff, List.forall₂_same]
    exact fun f hf => hdb ▸ hwhole f hf
  · rw [hholds.size_eq, ← hfiles]
    rfl
  · rw [hholds.ends_eq, ← hfiles, List.map_map]
    rfl

end Session

/-! ## From create_upload to Complete -/

theorem uploadAt_createUpload {db db' : Db} {now : ℤ} {uuid bucket key uploadId : Text}
    (h : createUpload db now uuid bucket key = .ok (db', some uploadId)) :
    UploadAt db' uploadId bucket key := by
  rcases createUpload_cases h with
    ⟨-, -, hid⟩ | ⟨up, hup, hbucket, hkey, rfl, hid⟩ | ⟨uploads, -, hins, rfl, hid⟩
  · cases hid
  · cases hid
    exact ⟨up, Table.find?_eq_some_iff.mpr ⟨hup, rfl⟩, hbucket, hkey⟩
  · cases hid
    refine ⟨⟨uuid, bucket, key, now⟩, Table.find?_eq_some_iff.mpr ⟨?_, rfl⟩, rfl, rfl⟩
    exact (Table.mem_insert? hins).mpr (.inr rfl)

section Run

variable {past session : List Op} {now now' : ℤ} {uuid bucket key uploadId : Text} {db : Db}
  {listed : List (ℤ × Text)}

def sessionStart (sha256 : Bytes → Bytes) (past : List Op) (now : ℤ) (uuid bucket key : Text) :
    Ledger :=
  Ledger.empty.run sha256 (past ++ [.createUpload now uuid bucket key])

theorem session_run
    (hcreate : apply sha256 (run sha256 Db.empty past) (.createUpload now uuid bucket key) =
      (db, .upload (some uploadId)))
    (hquiet : ∀ op ∈ session, Quiet uploadId op) {start l : Ledger}
    (hstart : start = sessionStart sha256 past now uuid bucket key)
    (hlast : l = start.run sha256 session) :
    ∃ up : UploadRow, start.db = db ∧ l.db = run sha256 db session ∧
      up.bucket = bucket ∧ up.key = key ∧ Consistent sha256 start ∧ Consistent sha256 l ∧
      UploadsHaveBuckets l.db ∧
      SessionAt start l uploadId up (ackedParts sha256 uploadId db session) := by
  subst hlast
  unfold sessionStart at hstart
  set ops := past ++ [.createUpload now uuid bucket key] with hops
  have hdb : start.db = db := by
    rw [hstart, ledger_run_db, hops, run, List.foldl_append]
    exact congrArg Prod.fst hcreate
  have hat : UploadAt db uploadId bucket key := by
    simp only [apply] at hcreate
    cases hc : createUpload (run sha256 Db.empty past) now uuid bucket key with
    | error e =>
        rw [hc] at hcreate
        cases hcreate
    | ok r =>
        obtain ⟨db', id⟩ := r
        rw [hc] at hcreate
        cases hcreate
        exact uploadAt_createUpload hc
  obtain ⟨up, hup, hbucket, hkey⟩ := hat
  have hconsistent : Consistent sha256 start := hstart ▸ consistent_empty.run ops
  have hl : (start.run sha256 session).db = run sha256 db session := by rw [ledger_run_db, hdb]
  refine ⟨up, hdb, hl, hbucket, hkey, hconsistent, hconsistent.run session, ?_, ?_⟩
  · have hall := uploadsHaveBuckets_run sha256 (ops ++ session)
    rw [hl, ← hdb, hstart, ledger_run_db]
    rwa [run, List.foldl_append] at hall
  · have hrun := (sessionAt_start (hdb ▸ hup)).run hconsistent hquiet
    rwa [List.nil_append, hdb] at hrun

theorem SessionAt.covers {start l : Ledger} {up : UploadRow} {acked bodies : List (ℤ × Bytes)}
    (h : SessionAt start l uploadId up acked) (hbodies : LastAttempts acked bodies)
    (hlisted : listed.Perm (listingOf sha256 bodies))
    (haccept : CompleteAccepts l.db uploadId bucket key listed) :
    bodies ≠ [] ∧ ∀ p ∈ start.db.uploadParts, p.uploadId = uploadId →
      p.partNo ∈ bodies.map Prod.fst := by
  obtain ⟨-, hne, hlisting⟩ := haccept
  have hperm : ((recordedParts l.db uploadId).map UploadPartRow.listing).Perm
      (listingOf sha256 bodies) := hlisting ▸ sortByKey_perm.trans hlisted
  constructor
  · rintro rfl
    apply hne
    simpa [listingOf] using hperm
  · intro p hp hid
    by_contra hmissing
    have hlast : lastBody acked p.partNo = none := by
      rw [Option.eq_none_iff_forall_not_mem]
      intro body hbody
      exact hmissing (List.mem_map.mpr ⟨_, (hbodies.mem_iff _ _).mp hbody, rfl⟩)
    -- a part that the session did not send again is still recorded
    have hfind : l.db.uploadParts.find? (uploadId, p.partNo) = some p :=
      (h.left _ hlast).trans (Table.find?_eq_some_iff.mpr ⟨hp, Prod.ext hid rfl⟩)
    have hrecorded : p ∈ recordedParts l.db uploadId :=
      mem_recordedParts.mpr ⟨(Table.find?_eq_some_iff.mp hfind).1, hid⟩
    obtain ⟨a, ha, heq⟩ := List.mem_map.mp (hperm.subset (List.mem_map_of_mem hrecorded))
    exact hmissing (List.mem_map.mpr ⟨a, ha, congrArg Prod.fst heq⟩)

/-- A session completes, with the concatenation of its parts, exactly when it sent at least
one part and every part number that an earlier session had left behind. -/
theorem clean_session_completes_iff
    (hcreate : apply sha256 (run sha256 Db.empty past) (.createUpload now uuid bucket key) =
      (db, .upload (some uploadId)))
    (hquiet : ∀ op ∈ session, Quiet uploadId op)
    (hdistinct : ((ackedParts sha256 uploadId db session).map Prod.fst).Nodup)
    (hlisted : listed.Perm (listingOf sha256 (ackedParts sha256 uploadId db session))) :
    (∃ db' etag size, completeUpload sha256 (run sha256 db session) now' uploadId bucket key listed =
        .ok (db', .done bucket key etag size) ∧
      ObjectIs db' bucket key
        ((sortByKey Prod.fst (ackedParts sha256 uploadId db session)).map Prod.snd)) ↔
    ackedParts sha256 uploadId db session ≠ [] ∧ ∀ p ∈ db.uploadParts, p.uploadId = uploadId →
      p.partNo ∈ (ackedParts sha256 uploadId db session).map Prod.fst := by
  obtain ⟨up, rfl, hl, rfl, rfl, hstart, hc, hbuckets, hsession⟩ :=
    session_run hcreate hquiet rfl rfl
  rw [← hl]
  constructor
  · rintro ⟨db', etag, size, hdone, -⟩
    exact hsession.covers (lastAttempts_of_nodup hdistinct) hlisted
      (completeUpload_done_iff.mp hdone).1
  · rintro ⟨hne, hleft⟩
    have hlast := lastAttempts_of_nodup hdistinct
    have haccept := hsession.accepts hc hlast hne hleft hlisted
    obtain ⟨hdone, -⟩ := apply_complete now' hc hbuckets haccept
    exact ⟨_, _, _, hdone, hsession.objectIs now' hstart hc hbuckets hlast hne hleft hlisted⟩

end Run

/-- An upload of the key that an earlier client left with part 2 recorded. -/
def abandoned : List Op :=
  [.createBucket 0 ['b'], .createUpload 1 ['u'] ['b'] ['k'], .uploadPart 2 ['u'] 2 [[1]]]

def reattached : Db := (apply id (run id Db.empty abandoned) (.createUpload 3 ['v'] ['b'] ['k'])).1

theorem clean_session_completes_iff_reattached :
    (∃ db' etag size, completeUpload id
        (run id reattached [.uploadPart 4 ['u'] 2 [[2], [3]], .uploadPart 5 ['u'] 1 []]) 6
        ['u'] ['b'] ['k'] [(1, hex []), (2, hex [2, 3])] = .ok (db', .done ['b'] ['k'] etag size) ∧
      ObjectIs db' ['b'] ['k'] ((sortByKey Prod.fst (ackedParts id ['u'] reattached
        [.uploadPart 4 ['u'] 2 [[2], [3]], .uploadPart 5 ['u'] 1 []])).map Prod.snd)) ↔
    ackedParts id ['u'] reattached
        [.uploadPart 4 ['u'] 2 [[2], [3]], .uploadPart 5 ['u'] 1 []] ≠ [] ∧
      ∀ p ∈ reattached.uploadParts, p.uploadId = ['u'] → p.partNo ∈
        (ackedParts id ['u'] reattached
          [.uploadPart 4 ['u'] 2 [[2], [3]], .uploadPart 5 ['u'] 1 []]).map Prod.fst :=
  @clean_session_completes_iff id abandoned _ 3 _ ['v'] _ _ _ _ _ (by decide +kernel)
    (by simp [Quiet]) (by decide +kernel) (by decide +kernel)

/-- A session that sends part 1 only does not complete over the part 2 that was left. -/
theorem leftover_part_blocks_session :
    ¬ ∀ (sha256 : Bytes → Bytes) (past session : List Op) (now now' : ℤ)
      (uuid bucket key uploadId : Text) (db : Db) (listed : List (ℤ × Text)),
      apply sha256 (run sha256 Db.empty past) (.createUpload now uuid bucket key) =
        (db, .upload (some uploadId)) →
      (∀ op ∈ session, Quiet uploadId op) → ackedParts sha256 uploadId db session ≠ [] →
      ((ackedParts sha256 uploadId db session).map Prod.fst).Nodup →
      listed.Perm (listingOf sha256 (ackedParts sha256 uploadId db session)) →
      ∃ db' etag size, completeUpload sha256 (run sha256 db session) now' uploadId bucket key
          listed = .ok (db', .done bucket key etag size) ∧
        ObjectIs db' bucket key
          ((sortByKey Prod.fst (ackedParts sha256 uploadId db session)).map Prod.snd) := by
  intro hall
  obtain ⟨db', etag, size, hdone, -⟩ := hall id abandoned [.uploadPart 4 ['u'] 1 [[7]]] 3 5 ['v']
    ['b'] ['k'] ['u'] reattached [(1, hex [7])] (by decide +kernel) (by simp [Quiet])
    (by decide +kernel) (by decide +kernel) (by decide +kernel)
  have hinvalid : completeUpload id (run id reattached [.uploadPart 4 ['u'] 1 [[7]]]) 5 ['u'] ['b']
      ['k'] [(1, hex [7])] =
        .ok (run id reattached [.uploadPart 4 ['u'] 1 [[7]]], .invalidPart) := by decide +kernel
  rw [hinvalid] at hdone
  cases hdone

end Pgvs3
