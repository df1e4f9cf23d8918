import Pgvs3.Verification.Multipart.Complete

/-! # Write, then read

An object that was written in parts reads like an object that was written at once. -/

namespace Pgvs3

open Library

variable {sha256 : Bytes → Bytes}

/-- What a GET tells of the bytes of an object: its size, the range and its bytes. -/
def rangeOf (result : Except ReadError (Option Slice)) : Option (ℤ × ℤ × ℤ × Bytes) :=
  match result with
  | .ok (some s) => some (s.size, s.start, s.stop, s.bytes)
  | _ => none

/-- A GET of the key with nothing being written: the cache holds no entry for the key or one
of its row, with any time, and the rows of each query come in any order. -/
structure QuietGet (db : Db) (bucket key : Text) (env : Fin 2 → Attempt) (c : MetaCache) :
    Prop where
  atRest : ∀ i, AtRest db bucket key (env i)
  cached : ∀ m, c.get bucket key = some m →
    ∃ r now, db.objects.find? (bucket, key) = some r ∧ m = r.metaAt now

theorem QuietGet.cachesRow {db : Db} {bucket key : Text} {env : Fin 2 → Attempt} {c : MetaCache}
    (h : QuietGet db bucket key env c) {r : ObjectRow}
    (hr : db.objects.find? (bucket, key) = some r) : CachesRow c bucket key r := by
  intro m hm
  obtain ⟨r', now, hr', rfl⟩ := h.cached m hm
  rw [hr, Option.some.injEq] at hr'
  exact ⟨now, by rw [hr']⟩

/-- Every range of the object at the key is that range of `content`. -/
def ReadsAs (db : Db) (bucket key : Text) (content : Bytes) : Prop :=
  ∀ env c first last suffix, QuietGet db bucket key env c →
    rangeOf (get env bucket key first last suffix c) =
      some (↑content.length, (effRange content.length first last suffix).1,
        (effRange content.length first last suffix).2,
        sliceOf content (effRange content.length first last suffix).1.toNat
          ((effRange content.length first last suffix).2 + 1).toNat)

theorem readsAs_of_whole {db : Db} {bucket key : Text} {r : ObjectRow} {written : ℤ → Bytes}
    (hr : db.objects.find? (bucket, key) = some r) (hholds : r.Holds written)
    (hfew : ∀ f ∈ r.files, FewRows (written f))
    (hfiles : ∀ f ∈ r.files, FileIs db f (written f)) :
    ReadsAs db bucket key (r.files.flatMap written) := by
  intro env c first last suffix hget
  obtain ⟨now, -, hserved⟩ := get_whole hr hholds hfew hfiles hget.atRest (hget.cachesRow hr)
    first last suffix
  have hsize : (r.metaAt now).size = (r.files.flatMap written).length := hholds.size_eq
  rw [hserved, ← hsize]
  rfl

theorem ReadsAs.same {db db' : Db} {bucket key bucket' key' : Text} {content : Bytes}
    (h : ReadsAs db bucket key content) (h' : ReadsAs db' bucket' key' content)
    {env env' : Fin 2 → Attempt} {c c' : MetaCache} (hget : QuietGet db bucket key env c)
    (hget' : QuietGet db' bucket' key' env' c') (first last suffix : ℤ) :
    rangeOf (get env bucket key first last suffix c) =
      rangeOf (get env' bucket' key' first last suffix c') :=
  (h env c first last suffix hget).trans (h' env' c' first last suffix hget').symm

/-! ## A single PUT -/

theorem put_stored {db db' : Db} {now size : ℤ} {bucket key : Text} {condition : PutCondition}
    {pushes : List Bytes} {sum : Bytes} (hseq : 0 ≤ db.fileSeq)
    (h : apply sha256 db (.put now bucket key condition pushes) = (db', .stored size sum)) :
    db'.objects.find? (bucket, key) =
      some ((putWrite sha256 (db.fileSeq + 1) condition pushes.flatten).row now bucket key) := by
  rw [apply] at h
  rcases ingest_cases sha256 db now (.object bucket key condition) pushes hseq with
    ⟨e, hi | hi⟩ | ⟨-, -, chunks, db₁, -, hpub, hi⟩
  · rw [hi] at h
    cases h
  · rw [hi] at h
    cases h
  · rw [hi] at h
    cases h
    obtain ⟨-, -, -, rfl⟩ := swapObject_ok_iff.mp hpub
    exact Table.find?_upsert_self

theorem put_readsAs {past : List Op} {db : Db} {now size : ℤ} {bucket key : Text}
    {condition : PutCondition} {pushes : List Bytes} {sum : Bytes}
    (h : apply sha256 (run sha256 Db.empty past) (.put now bucket key condition pushes) =
      (db, .stored size sum)) (hfew : FewRows pushes.flatten) :
    ReadsAs db bucket key pushes.flatten := by
  set l := Ledger.empty.run sha256 past with hl
  set op : Op := .put now bucket key condition pushes with hop
  have hdb : l.db = run sha256 Db.empty past := ledger_run_db sha256 Ledger.empty past
  have hc : Consistent sha256 l := consistent_empty.run past
  have hc' := hc.step op
  rw [← hdb] at h
  have hdb' : (l.apply sha256 op).db = db := congrArg Prod.fst h
  have hfind := put_stored hc.owned.seq_nonneg h
  have hwritten : (l.apply sha256 op).written (l.db.fileSeq + 1) = pushes.flatten :=
    l.apply_written_new rfl
  set r := (putWrite sha256 (l.db.fileSeq + 1) condition pushes.flatten).row now bucket key with hr
  have hmem : r ∈ (l.apply sha256 op).db.objects := hdb' ▸ (Table.find?_eq_some_iff.mp hfind).1
  have hfiles : r.files = [l.db.fileSeq + 1] := rfl
  have hcontent : r.files.flatMap (l.apply sha256 op).written = pushes.flatten := by
    simp [hfiles, hwritten]
  rw [← hcontent]
  refine readsAs_of_whole hfind (hc'.objects r hmem) ?_ ?_
  · intro f hf
    rw [hfiles, List.mem_singleton] at hf
    rwa [hf, hwritten]
  · intro f hf
    rw [← hdb']
    refine hc'.fileIs (mem_ownedFiles.mpr (.inl ⟨r, hmem, hf⟩)) fun hreaped => ?_
    rw [hfiles, List.mem_singleton] at hf
    have hdrawn := hc.reaped_drawn f hreaped
    omega

/-! ## A multipart upload -/

/-- Once Complete has published a session's parts, the object reads as their concatenation
in the order of the part numbers. -/
theorem SessionAt.readsAs {start l : Ledger} {uploadId : Text} {up : UploadRow}
    {acked bodies : List (ℤ × Bytes)} {listed : List (ℤ × Text)} (now : ℤ)
    (h : SessionAt start l uploadId up acked) (hstart : Consistent sha256 start)
    (hc : Consistent sha256 l) (hbuckets : UploadsHaveBuckets l.db)
    (hbodies : LastAttempts acked bodies) (hne : bodies ≠ [])
    (hleft : ∀ p ∈ start.db.uploadParts, p.uploadId = uploadId → p.partNo ∈ bodies.map Prod.fst)
    (hlisted : listed.Perm (listingOf sha256 bodies)) (hfew : ∀ a ∈ bodies, FewRows a.2) :
    ReadsAs (completed sha256 l.db now uploadId up.bucket up.key) up.bucket up.key
      ((sortByKey Prod.fst bodies).flatMap Prod.snd) := by
  obtain ⟨hdb, hc', hfiles, hwhole⟩ :=
    h.published now hstart hc hbuckets hbodies hne hleft hlisted rfl
  have hfind := completed_find? sha256 l.db now uploadId up.bucket up.key
  have hmem := hdb ▸ (Table.find?_eq_some_iff.mp hfind).1
  set l' := l.apply sha256 (.completeUpload now uploadId up.bucket up.key listed) with hl'
  have hcontent : (sortByKey Prod.fst bodies).flatMap Prod.snd =
      (completedRow sha256 l.db now uploadId up.bucket up.key).files.flatMap l'.written := by
    rw [List.flatMap_def, List.flatMap_def, hfiles]
  rw [hcontent]
  refine readsAs_of_whole hfind (hc'.objects _ hmem) ?_ fun f hf => hdb ▸ hwhole f hf
  intro f hf
  have hbody : l'.written f ∈ (sortByKey Prod.fst bodies).map Prod.snd :=
    hfiles ▸ List.mem_map_of_mem hf
  obtain ⟨a, ha, heq⟩ := List.mem_map.mp hbody
  exact heq ▸ hfew a (mem_sortByKey.mp ha)

/-- Whatever was sent under each part number, in any order and any number of times, and in
whatever order Complete lists it: a session that left no older part in place completes, and
every range of the object it publishes is that range of the concatenated last attempts, as
it is after one PUT of the concatenation. -/
theorem write_then_read {past session : List Op} {now now' : ℤ} {uuid bucket key uploadId : Text}
    {db : Db} {bodies : List (ℤ × Bytes)} {listed : List (ℤ × Text)}
    (hcreate : apply sha256 (run sha256 Db.empty past) (.createUpload now uuid bucket key) =
      (db, .upload (some uploadId)))
    (hquiet : ∀ op ∈ session, Quiet uploadId op)
    (hbodies : LastAttempts (ackedParts sha256 uploadId db session) bodies)
    (hne : bodies ≠ []) (hlisted : listed.Perm (listingOf sha256 bodies))
    (hfew : ∀ a ∈ bodies, FewRows a.2) :
    ((∀ p ∈ db.uploadParts, p.uploadId = uploadId → p.partNo ∈ bodies.map Prod.fst) →
      ∃ db' etag size, completeUpload sha256 (run sha256 db session) now' uploadId bucket key
        listed = .ok (db', .done bucket key etag size)) ∧
    ∀ db' etag size, completeUpload sha256 (run sha256 db session) now' uploadId bucket key
        listed = .ok (db', .done bucket key etag size) →
      ReadsAs db' bucket key ((sortByKey Prod.fst bodies).flatMap Prod.snd) ∧
      ∀ past₁ now₁ bucket₁ key₁ condition pushes db₁ size₁ sum₁,
        pushes.flatten = (sortByKey Prod.fst bodies).flatMap Prod.snd → FewRows pushes.flatten →
        apply sha256 (run sha256 Db.empty past₁) (.put now₁ bucket₁ key₁ condition pushes) =
          (db₁, .stored size₁ sum₁) →
        ∀ env c env₁ c₁ first last suffix, QuietGet db' bucket key env c →
          QuietGet db₁ bucket₁ key₁ env₁ c₁ →
          rangeOf (get env bucket key first last suffix c) =
            rangeOf (get env₁ bucket₁ key₁ first last suffix c₁) := by
  obtain ⟨up, rfl, hl, rfl, rfl, hstart, hc, hbuckets, hsession⟩ :=
    session_run hcreate hquiet rfl rfl
  rw [← hl]
  refine ⟨fun hleft => ?_, fun db' etag size hdone => ?_⟩
  · have haccept := hsession.accepts hc hbodies hne hleft hlisted
    exact ⟨_, _, _, (apply_complete now' hc hbuckets haccept).1⟩
  · obtain ⟨haccept, -, rfl, -⟩ := completeUpload_done_iff.mp hdone
    have hleft := (hsession.covers hbodies hlisted haccept).2
    have hreads := hsession.readsAs now' hstart hc hbuckets hbodies hne hleft hlisted hfew
    refine ⟨hreads, ?_⟩
    intro past₁ now₁ bucket₁ key₁ condition pushes db₁ size₁ sum₁ hcontent hfew₁ hput
    have hreads₁ := put_readsAs hput hfew₁
    rw [hcontent] at hreads₁
    exact fun env c env₁ c₁ first last suffix hget hget₁ =>
      hreads.same hreads₁ hget hget₁ first last suffix

/-- Two parts, the second sent twice and first, the first empty. -/
def resentSession : List Op :=
  [.uploadPart 2 ['u'] 2 [[9]], .uploadPart 3 ['u'] 1 [], .uploadPart 4 ['u'] 2 [[4], [5, 6]]]

theorem resentSession_bodies :
    lastAttempts (ackedParts id ['u'] (run id Db.empty (abandoned.take 2)) resentSession) =
      [(1, []), (2, [4, 5, 6])] := by
  decide +kernel

theorem write_then_read_resent :
    ((∀ p ∈ (run id Db.empty (abandoned.take 2)).uploadParts, p.uploadId = ['u'] →
        p.partNo ∈ [((1 : ℤ), ([] : Bytes)), (2, [4, 5, 6])].map Prod.fst) →
      ∃ db' etag size, completeUpload id
        (run id (run id Db.empty (abandoned.take 2)) resentSession) 6 ['u'] ['b'] ['k']
        [(2, hex [4, 5, 6]), (1, hex [])] = .ok (db', .done ['b'] ['k'] etag size)) ∧
    ∀ db' etag size, completeUpload id
        (run id (run id Db.empty (abandoned.take 2)) resentSession) 6 ['u'] ['b'] ['k']
        [(2, hex [4, 5, 6]), (1, hex [])] = .ok (db', .done ['b'] ['k'] etag size) →
      ReadsAs db' ['b'] ['k'] [4, 5, 6] ∧
      ∀ past₁ now₁ bucket₁ key₁ condition pushes db₁ size₁ sum₁,
        pushes.flatten = [4, 5, 6] → FewRows pushes.flatten →
        apply id (run id Db.empty past₁) (.put now₁ bucket₁ key₁ condition pushes) =
          (db₁, .stored size₁ sum₁) →
        ∀ env c env₁ c₁ first last suffix, QuietGet db' ['b'] ['k'] env c →
          QuietGet db₁ bucket₁ key₁ env₁ c₁ →
          rangeOf (get env ['b'] ['k'] first last suffix c) =
            rangeOf (get env₁ bucket₁ key₁ first last suffix c₁) :=
  @write_then_read id (abandoned.take 1) resentSession 1 6 ['u'] ['b'] ['k'] ['u'] _
    [(1, []), (2, [4, 5, 6])] _ (by decide +kernel) (by simp [resentSession, Quiet])
    (resentSession_bodies ▸ lastAttempts_spec _) (by decide) (by decide +kernel)
    (by decide +kernel)

end Pgvs3
