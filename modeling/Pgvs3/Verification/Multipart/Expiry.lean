import Pgvs3.Verification.Multipart.Session

/-! # Which uploads an expiry spares

Expiry goes by the age of the upload record. A record that `create_upload` inserts is as old
as the upload; one that it hands out again keeps its first age. -/

namespace Pgvs3

open Library

variable {sha256 : Bytes → Bytes}

/-! ## One expiry -/

/-- The upload keeps its record, its part records and their chunk rows. -/
structure Spared (uploadId : Text) (db db' : Db) : Prop where
  upload : ∀ up ∈ db.uploads, up.uploadId = uploadId → up ∈ db'.uploads
  parts : ∀ p ∈ db.uploadParts, p.uploadId = uploadId → p ∈ db'.uploadParts
  chunks : ∀ p ∈ db.uploadParts, p.uploadId = uploadId → ∀ c ∈ db.chunks,
    c.fileId = p.fileId → c ∈ db'.chunks

theorem Spared.refl (uploadId : Text) (db : Db) : Spared uploadId db db where
  upload := fun _ h _ => h
  parts := fun _ h _ => h
  chunks := fun _ _ _ _ h _ => h

theorem Spared.trans {uploadId : Text} {db₁ db₂ db₃ : Db} (h : Spared uploadId db₁ db₂)
    (h' : Spared uploadId db₂ db₃) : Spared uploadId db₁ db₃ where
  upload := fun up hup hid => h'.upload up (h.upload up hup hid) hid
  parts := fun p hp hid => h'.parts p (h.parts p hp hid) hid
  chunks := fun p hp hid c hc hf =>
    h'.chunks p (h.parts p hp hid) hid c (h.chunks p hp hid c hc hf) hf

theorem spared_deleteUpload {uploadId other : Text} (h : other ≠ uploadId) (db : Db) :
    Spared uploadId db (deleteUpload db other) where
  upload := fun up hup hid => Table.mem_deleteWhere.mpr ⟨hup, by simp [hid, h.symm]⟩
  parts := fun p hp hid => Table.mem_deleteWhere.mpr ⟨hp, by simp [hid, h.symm]⟩
  chunks := fun _ _ _ _ hc _ => hc

theorem spared_expirePart {db : Db} (h : Owned db) {uploadId : Text} {part : UploadPartRow}
    (hpart : part ∈ db.uploadParts) (hne : part.uploadId ≠ uploadId) (remaining : ℤ) :
    Spared uploadId db (expirePart db part remaining).1 := by
  set doomed := doomedRows db part.fileId remaining with hdoomed
  have hcut : Spared uploadId db (cutRows db part.fileId doomed) :=
    { Spared.refl uploadId db with
      chunks := by
        intro p hp hid c hc hf
        refine mem_cutRows.mpr ⟨hc, fun hgone => hne ?_⟩
        rw [← h.part_unique hp hpart (hf.symm.trans hgone.1)]
        exact hid }
  have hdrop : Spared uploadId (cutRows db part.fileId doomed)
      (dropRecord (cutRows db part.fileId doomed) part) :=
    { Spared.refl uploadId _ with
      parts := by
        intro p hp hid
        refine mem_dropRecord.mpr ⟨hp, fun hkey => hne ?_⟩
        exact (congrArg Prod.fst hkey).symm.trans hid }
  rw [expirePart_eq, ← hdoomed]
  dsimp only
  split
  · unfold dropPart
    split
    · exact hcut.trans hdrop
    · exact (hcut.trans hdrop).trans (spared_deleteUpload hne _)
  · exact hcut

theorem victimUpload?_spec {db : Db} {now grace : ℤ} {bucket : Option Text} {up : UploadRow}
    (h : victimUpload? db now grace bucket = some up) :
    up ∈ db.uploads ∧ up.createdAt < now - grace := by
  have hmem := List.mem_of_mem_head? h
  rw [List.mem_insertionSort, List.mem_filter] at hmem
  obtain ⟨hup, helig⟩ := hmem
  simp only [eligible, decide_eq_true_eq] at helig
  exact ⟨hup, helig.1⟩

/-- The loop spares an upload whose record is not old enough. -/
theorem spared_expireLoop {uploadId : Text} {now grace maxRows : ℤ} {bucket : Option Text}
    {visits : ℕ} {db : Db} {removed : ℤ} (h : Owned db)
    (hyoung : ∀ up ∈ db.uploads, up.uploadId = uploadId → now - grace ≤ up.createdAt) :
    Spared uploadId db (expireLoop now grace maxRows bucket visits db removed).1 := by
  induction visits generalizing db removed with
  | zero => exact .refl uploadId db
  | succ visits ih =>
      rw [expireLoop]
      split
      · exact .refl uploadId db
      · rename_i up hvictim
        obtain ⟨hup, hold⟩ := victimUpload?_spec hvictim
        have hne : up.uploadId ≠ uploadId := fun hid => absurd hold (not_lt.mpr (hyoung up hup hid))
        -- the next visit sees fewer uploads
        have hrest : ∀ {db' : Db} {removed' : ℤ}, Expires db db' → Spared uploadId db db' →
            Spared uploadId db
              (expireLoop now grace maxRows bucket visits db' removed').1 := by
          intro db' removed' hexp hspared
          exact hspared.trans (ih (h.expires hexp)
            fun up' hup' => hyoung up' (hexp.uploads_sub up' hup'))
        split
        · rename_i hnone
          rw [List.head?_eq_none_iff] at hnone
          refine hrest (expires_deleteUpload ?_) (spared_deleteUpload hne db)
          intro p hp hid
          have : p ∈ recordedParts db up.uploadId := mem_recordedParts.mpr ⟨hp, hid⟩
          simp [hnone] at this
        · rename_i part hpart
          obtain ⟨hmem, hid⟩ := mem_recordedParts.mp (List.mem_of_mem_head? hpart)
          have hexp := expires_expirePart hmem (maxRows - removed)
          have hone := spared_expirePart h hmem (hid.symm ▸ hne) (maxRows - removed)
          simp only
          split
          · exact hone
          · exact hrest hexp hone

/-! ## Ages along a run -/

def Op.clock? : Op → Option ℤ
  | .createBucket now _ => some now
  | .put now _ _ _ _ => some now
  | .createUpload now _ _ _ => some now
  | .uploadPart now _ _ _ => some now
  | .completeUpload now _ _ _ _ => some now
  | .expireUploads now _ => some now
  | .deleteBucket _ => none
  | .delete _ _ => none
  | .abortUpload _ _ _ => none
  | .rollback _ => none

/-- Every upload record is old, or as old as the operation. -/
theorem uploads_of_apply {db : Db} (h : Owned db) (op : Op) {up : UploadRow}
    (hup : up ∈ (apply sha256 db op).1.uploads) :
    up ∈ db.uploads ∨ op.clock? = some up.createdAt := by
  cases op with
  | createBucket now name =>
      simp only [apply, createBucket] at hup
      split at hup <;> exact .inl hup
  | deleteBucket name =>
      simp only [apply, deleteBucket] at hup
      split at hup
      · exact .inl hup
      · split at hup <;> exact .inl hup
  | put now bucket key condition pushes =>
      have hu := (ingest_uploads sha256 db now (.object bucket key condition) pushes
        h.seq_nonneg).1
      simp only [apply, hu] at hup
      exact .inl hup
  | delete bucket key =>
      simp only [apply, delete] at hup
      cases hold : db.objects.find? (bucket, key) <;> rw [hold] at hup <;> exact .inl hup
  | createUpload now uuid bucket key =>
      simp only [apply] at hup
      cases hcreate : createUpload db now uuid bucket key with
      | error e =>
          rw [hcreate] at hup
          exact .inl hup
      | ok r =>
          obtain ⟨db', id⟩ := r
          rw [hcreate] at hup
          rcases createUpload_cases hcreate with
            ⟨-, rfl, -⟩ | ⟨_, -, -, -, rfl, -⟩ | ⟨_, -, hins, rfl, -⟩
          · exact .inl hup
          · exact .inl hup
          · rcases (Table.mem_insert? hins).mp hup with hup | rfl
            · exact .inl hup
            · exact .inr rfl
  | uploadPart now u partNo pushes =>
      have hu := (ingest_uploads sha256 db now (.part u partNo) pushes h.seq_nonneg).1
      simp only [apply, hu] at hup
      exact .inl hup
  | completeUpload now u bucket key listed =>
      simp only [apply] at hup
      rcases completeUpload_cases sha256 db now u bucket key listed with
        ⟨_, hc⟩ | ⟨_, _, hc⟩ | ⟨_, _, e, hc⟩ | ⟨_, _, hc⟩ <;> rw [hc] at hup
      · exact .inl hup
      · exact .inl hup
      · exact .inl hup
      · exact .inl (Table.mem_deleteWhere.mp hup).1
  | abortUpload u bucket key =>
      simp only [apply, abortUpload] at hup
      split at hup
      · exact .inl (Table.mem_deleteWhere.mp hup).1
      · exact .inl hup
  | expireUploads now budget =>
      simp only [apply] at hup
      cases hexp : expireUploads db now budget with
      | error e =>
          rw [hexp] at hup
          exact .inl hup
      | ok r =>
          rw [hexp] at hup
          exact .inl ((expires_expireUploads hexp).uploads_sub up hup)
  | rollback draw =>
      simp only [apply] at hup
      split at hup
      · rename_i heq
        obtain ⟨_, _, rfl⟩ := nextval_ok_iff.mp heq
        exact .inl hup
      · exact .inl hup

/-- No record of the upload is older than `t`. -/
def Young (uploadId : Text) (t : ℤ) (db : Db) : Prop :=
  ∀ up ∈ db.uploads, up.uploadId = uploadId → t ≤ up.createdAt

theorem Young.run {uploadId : Text} {t : ℤ} {db : Db} {ops : List Op} (h : Young uploadId t db)
    (howned : Owned db) (hclock : ∀ now ∈ ops.filterMap Op.clock?, t ≤ now) :
    Young uploadId t (Pgvs3.run sha256 db ops) := by
  induction ops generalizing db with
  | nil => exact h
  | cons op ops ih =>
      refine @ih (apply sha256 db op).1 ?_ (howned.step rfl) fun now hnow => ?_
      · intro up hup hid
        rcases uploads_of_apply howned op hup with hold | hnew
        · exact h up hold hid
        · exact hclock _ (List.mem_filterMap.mpr ⟨op, by simp, hnew⟩)
      · obtain ⟨a, ha, hat⟩ := List.mem_filterMap.mp hnow
        exact hclock now (List.mem_filterMap.mpr ⟨a, List.mem_cons_of_mem _ ha, hat⟩)

/-! ## Runs -/

/-- `create_upload` does not hand out a record that is older than its clock. -/
def NoStaleHandout (db : Db) : Op → Prop
  | .createUpload now _ bucket key =>
      ∀ up ∈ db.uploads, up.bucket = bucket → up.key = key → now ≤ up.createdAt
  | _ => True

theorem young_of_handout {db db' : Db} {t : ℤ} {uuid bucket key id : Text}
    (hfresh : NoStaleHandout db (.createUpload t uuid bucket key))
    (h : createUpload db t uuid bucket key = .ok (db', some id)) : Young id t db' := by
  rcases createUpload_cases h with
    ⟨-, -, hsome⟩ | ⟨up, hup, hbucket, hkey, rfl, hsome⟩ | ⟨uploads, -, hins, rfl, hsome⟩
  · cases hsome
  · cases hsome
    intro up' hup' hid
    rw [Table.eq_of_key hup' hup hid]
    exact hfresh up hup hbucket hkey
  · cases hsome
    intro up' hup' hid
    obtain ⟨hother, -⟩ := Table.insert?_eq_some_iff.mp hins
    rcases (Table.mem_insert? hins).mp hup' with hup' | rfl
    · exact absurd hid (hother up' hup')
    · exact le_rfl

/-- An upload that was handed out at `t` is not expired with grace `g` before `t + g`. -/
def SparesInUse (sha256 : Bytes → Bytes) (ops : List Op) : Prop :=
  ∀ before between after t uuid bucket key id now budget grace,
    ops = before ++ .createUpload t uuid bucket key ::
      (between ++ .expireUploads now budget :: after) →
    (apply sha256 (run sha256 Db.empty before) (.createUpload t uuid bucket key)).2 =
      .upload (some id) →
    budget.grace = some grace → now < t + grace →
    Spared id (run sha256 Db.empty (before ++ .createUpload t uuid bucket key :: between))
      (run sha256 Db.empty (before ++ .createUpload t uuid bucket key ::
        (between ++ [.expireUploads now budget])))

theorem spared_expireUploads {db : Db} (h : Owned db) {id : Text} {now grace : ℤ}
    {budget : ExpiryBudget} (hgrace : budget.grace = some grace)
    (hyoung : Young id (now - grace) db) :
    Spared id db (apply sha256 db (.expireUploads now budget)).1 := by
  simp only [apply]
  unfold expireUploads
  rw [hgrace]
  cases budget.maxRows with
  | none => exact .refl id db
  | some maxRows =>
      dsimp only
      split_ifs
      · exact .refl id db
      · exact spared_expireLoop h hyoung

/-- In a run with a clock that does not go back, and in which `create_upload` hands out no
record older than its clock, expiry spares the uploads in use. -/
theorem expiry_spares_uploads_in_use {ops : List Op} {db : Db}
    (hclock : (ops.filterMap Op.clock?).Pairwise (· ≤ ·))
    (hrun : Trace (Guarded NoStaleHandout (Step sha256)) Db.empty ops db) :
    SparesInUse sha256 ops := by
  intro before between after t uuid bucket key id now budget grace hops hid hgrace hearly
  subst hops
  obtain ⟨db₁, hbefore, hrest⟩ := hrun.split
  obtain rfl := trace_iff_run.mp hbefore.of_guarded
  have howned := owned_run sha256 before
  set db₁ := run sha256 Db.empty before with hdb₁
  -- the handout leaves a young record
  obtain ⟨db₂, hcreate⟩ : ∃ db₂, createUpload db₁ t uuid bucket key = .ok (db₂, some id) := by
    simp only [apply] at hid
    cases hcreate : createUpload db₁ t uuid bucket key with
    | error e =>
        rw [hcreate] at hid
        cases hid
    | ok r =>
        obtain ⟨db₂, id'⟩ := r
        rw [hcreate] at hid
        cases hid
        exact ⟨db₂, rfl⟩
  have hfresh : NoStaleHandout db₁ (.createUpload t uuid bucket key) := by
    cases hrest with
    | cons hstep _ => exact hstep.1
  have happly : (apply sha256 db₁ (.createUpload t uuid bucket key)).1 = db₂ := by
    simp only [apply, hcreate]
  have hyoung := young_of_handout hfresh hcreate
  have howned₂ : Owned db₂ := happly ▸ howned.step rfl
  -- the clock keeps the record young until the expiry
  have hlater : ∀ now' ∈ between.filterMap Op.clock?, t ≤ now' := by
    rw [List.filterMap_append, List.filterMap_cons] at hclock
    have hc := (List.pairwise_cons.mp (List.pairwise_append.mp hclock).2.1).1
    intro now' hnow'
    refine hc now' ?_
    rw [List.filterMap_append]
    exact List.mem_append_left _ hnow'
  have hyoung₃ := @Young.run sha256 _ _ _ _ hyoung howned₂ hlater
  set db₃ := run sha256 db₂ between with hdb₃
  have hsplit : ∀ ops, run sha256 Db.empty (before ++ .createUpload t uuid bucket key :: ops) =
      run sha256 db₂ ops := by
    intro ops
    rw [← happly, hdb₁]
    exact List.foldl_append
  have hmid := hsplit between
  have hlast : run sha256 db₂ (between ++ [.expireUploads now budget]) =
      (apply sha256 db₃ (.expireUploads now budget)).1 := List.foldl_append
  rw [hmid, hsplit, hlast]
  refine spared_expireUploads ?_ hgrace fun up hup hid' => ?_
  · rw [← hmid]
    exact owned_run sha256 _
  · have := hyoung₃ up hup hid'
    omega

def freshRun : List Op :=
  [.createBucket 0 ['b'], .createUpload 5 ['u'] ['b'] ['k'], .uploadPart 6 ['u'] 1 [[7]],
    .expireUploads 8 ⟨some 5, some 4096, none⟩]

theorem expiry_spares_uploads_in_use_freshRun : SparesInUse id freshRun := by
  refine @expiry_spares_uploads_in_use id freshRun (run id Db.empty freshRun)
    (by decide +kernel) ?_
  refine .cons ⟨trivial, rfl⟩ (.cons ⟨?_, rfl⟩ (.cons ⟨trivial, rfl⟩ (.cons ⟨trivial, rfl⟩
    (.nil _))))
  intro up hup
  have hnone : (apply id Db.empty (.createBucket 0 ['b'])).1.uploads.rows = [] := by
    decide +kernel
  rw [Table.mem_def, hnone] at hup
  cases hup

/-- A second `create_upload` hands out the first one's record, which is stale by then. -/
def staleRun : List Op :=
  [.createBucket 0 ['b'], .createUpload 0 ['u'] ['b'] ['k'], .uploadPart 1 ['u'] 1 [[7]],
    .createUpload 10 ['v'] ['b'] ['k'], .expireUploads 12 ⟨some 5, some 4096, none⟩]

/-- Two ticks after the upload was handed out, its part is gone. -/
theorem reattached_upload_expired :
    ¬ ∀ (sha256 : Bytes → Bytes) (ops : List Op),
      (ops.filterMap Op.clock?).Pairwise (· ≤ ·) → SparesInUse sha256 ops := by
  intro hall
  have hspared := hall id staleRun (by decide +kernel) (staleRun.take 3) [] [] 10 ['v'] ['b'] ['k']
    ['u'] 12 ⟨some 5, some 4096, none⟩ 5 rfl (by decide +kernel) rfl (by norm_num)
  have hpart : (⟨['u'], 1, 1, 1, [7]⟩ : UploadPartRow) ∈
      (run id Db.empty (staleRun.take 4)).uploadParts := by decide +kernel
  have hlost : (⟨['u'], 1, 1, 1, [7]⟩ : UploadPartRow) ∉
      (run id Db.empty staleRun).uploadParts := by decide +kernel
  exact hlost (hspared.parts _ hpart rfl)

end Pgvs3
