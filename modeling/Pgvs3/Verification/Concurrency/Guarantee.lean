import Pgvs3.Verification.Concurrency.Commits

/-! # What a commit leaves alone

A commit keeps the constraints of the schema, and a transaction that is open beside it
finds everything as it may rely on. -/

namespace Pgvs3

open Library

theorem occupied_eq_false_iff {db : Db} {name : Text} :
    Sql.occupied db name = false ↔
      (∀ r ∈ db.objects, r.bucket ≠ name) ∧ ∀ u ∈ db.uploads, u.bucket ≠ name := by
  simp only [Sql.occupied, decide_eq_false_iff_not, not_or, not_exists, not_and, Table.mem_def,
    ne_eq]

theorem uploadAt?_eq_none_iff {db : Db} {bucket key : Text} :
    uploadAt? db bucket key = none ↔ ∀ u ∈ db.uploads, ¬ (u.bucket = bucket ∧ u.key = key) := by
  simp only [uploadAt?, List.find?_eq_none, decide_eq_true_eq, Table.mem_def]

/-! ## Constraints -/

/-- Owners and chunk rows are all that ownership is about. -/
theorem Owned.congr {db db' : Db} (h : Owned db) (hobjects : db'.objects = db.objects)
    (hparts : db'.uploadParts = db.uploadParts) (hchunks : db'.chunks = db.chunks)
    (hseq : db.fileSeq ≤ db'.fileSeq) : Owned db' := by
  have howned : ownedFiles db' = ownedFiles db := by rw [ownedFiles, ownedFiles, hobjects, hparts]
  refine h.shrink _ hseq (by rw [howned]) (hobjects ▸ h.head) (hchunks ▸ fun _ hc => hc) ?_
  intro c _ hf
  rwa [howned]

theorem Commits.owned {hash : Text → Text → ℤ} {sha256 : Bytes → Bytes} {held : List Lock}
    {db db' : Db} {job : Job} {a : Outcome} (hdb : Admissible db)
    (h : Commits hash sha256 held db job a db') : Owned db' := by
  cases h with
  | createBucket => exact hdb.owned.congr rfl rfl rfl le_rfl
  | deleteBucket => exact hdb.owned.congr rfl rfl rfl le_rfl
  | put _ _ _ hunused _ _ hrows =>
      exact hdb.owned.publish_new hunused.unowned hunused.drawn rfl rfl hrows
        fun _ hc => fileId_of_mem_rowsOf hc
  | delete _ hold => exact hdb.owned.deleted hold
  | deleteNone => exact hdb.owned
  | createUpload => exact hdb.owned.congr rfl rfl rfl le_rfl
  | reattach => exact hdb.owned
  | @uploadPart _ partNo fileId uploadId pushes _ _ _ _ hunused _ hrows =>
      have hf : (partRecord sha256 uploadId partNo fileId pushes.flatten).fileId ∉ ownedFiles db :=
        hunused.unowned
      exact hdb.owned.record_new hf hunused.drawn hrows fun _ hc => fileId_of_mem_rowsOf hc
  | completeUpload _ _ _ haccept => exact hdb.owned.completed haccept
  | abortUpload => exact hdb.owned.aborted _
  | expireUploads hexpires => exact hdb.owned.expires hexpires

theorem Table.find?_ne_none_of_mem {α κ : Type*} {key : α → κ} [DecidableEq κ]
    {t t' : Table key} {k : κ} (h : t.find? k ≠ none) (hsub : ∀ a ∈ t, key a = k → a ∈ t') :
    t'.find? k ≠ none := by
  obtain ⟨a, ha⟩ := Option.ne_none_iff_exists'.mp h
  obtain ⟨hmem, hk⟩ := Table.find?_eq_some_iff.mp ha
  rw [Table.find?_eq_some_iff.mpr ⟨hsub a hmem hk, hk⟩]
  simp

theorem Commits.admissible {hash : Text → Text → ℤ} {sha256 : Bytes → Bytes} {held : List Lock}
    {db db' : Db} {job : Job} {a : Outcome} (hdb : Admissible db)
    (h : Commits hash sha256 held db job a db') : Admissible db' := by
  refine ⟨h.owned hdb, ?_, ?_, ?_⟩
  · -- every object is in a bucket
    intro r hr
    cases h with
    | createBucket _ hinsert =>
        exact Table.find?_ne_none_of_mem (hdb.objects r hr) fun b hb _ =>
          (Table.mem_insert? hinsert).mpr (.inl hb)
    | deleteBucket _ _ hvacant =>
        refine Table.find?_ne_none_of_mem (hdb.objects r hr) fun b hb hk => ?_
        have hne := (occupied_eq_false_iff.mp hvacant).1 r hr
        exact Table.mem_deleteWhere.mpr ⟨hb, by simpa [hk] using hne⟩
    | put _ _ _ _ hthere =>
        rcases Table.mem_upsert.mp hr with ⟨hr, _⟩ | rfl
        · exact hdb.objects r hr
        · exact hthere
    | delete => exact hdb.objects r (Table.mem_deleteWhere.mp hr).1
    | completeUpload _ _ _ haccept =>
        rcases Table.mem_upsert.mp hr with ⟨hr, _⟩ | rfl
        · exact hdb.objects r hr
        · exact (haccept.fits hdb).1
    | expireUploads hexpires =>
        rw [hexpires.buckets_eq]
        exact hdb.objects r (hexpires.objects_eq ▸ hr)
    | deleteNone | createUpload | reattach | uploadPart | abortUpload =>
        exact hdb.objects r hr
  · -- every upload is in a bucket
    intro u hu
    cases h with
    | createBucket _ hinsert =>
        exact Table.find?_ne_none_of_mem (hdb.uploads u hu) fun b hb _ =>
          (Table.mem_insert? hinsert).mpr (.inl hb)
    | deleteBucket _ _ hvacant =>
        refine Table.find?_ne_none_of_mem (hdb.uploads u hu) fun b hb hk => ?_
        have hne := (occupied_eq_false_iff.mp hvacant).2 u hu
        exact Table.mem_deleteWhere.mpr ⟨hb, by simpa [hk] using hne⟩
    | createUpload _ _ _ hthere _ hinsert =>
        rcases (Table.mem_insert? hinsert).mp hu with hu | rfl
        · exact hdb.uploads u hu
        · exact hthere
    | completeUpload => exact hdb.uploads u (Table.mem_deleteWhere.mp hu).1
    | abortUpload => exact hdb.uploads u (Table.mem_deleteWhere.mp hu).1
    | expireUploads hexpires =>
        rw [hexpires.buckets_eq]
        exact hdb.uploads u (hexpires.uploads_sub u hu)
    | put | delete | deleteNone | reattach | uploadPart => exact hdb.uploads u hu
  · -- a key has one upload
    have hsub : (∀ u ∈ db'.uploads, u ∈ db.uploads) → ∀ u ∈ db'.uploads, ∀ v ∈ db'.uploads,
        u.bucket = v.bucket → u.key = v.key → u = v :=
      fun hsub u hu v hv => hdb.uploadKeys u (hsub u hu) v (hsub v hv)
    cases h with
    | createUpload _ _ _ _ hnone hinsert =>
        rw [uploadAt?_eq_none_iff] at hnone
        intro u hu v hv hb hk
        rcases (Table.mem_insert? hinsert).mp hu with hu | rfl <;>
          rcases (Table.mem_insert? hinsert).mp hv with hv | rfl
        · exact hdb.uploadKeys u hu v hv hb hk
        · exact (hnone u hu ⟨hb, hk⟩).elim
        · exact (hnone v hv ⟨hb.symm, hk.symm⟩).elim
        · rfl
    | completeUpload => exact hsub fun u hu => (Table.mem_deleteWhere.mp hu).1
    | abortUpload => exact hsub fun u hu => (Table.mem_deleteWhere.mp hu).1
    | expireUploads hexpires => exact hsub hexpires.uploads_sub
    | createBucket | deleteBucket | put | delete | deleteNone | reattach | uploadPart =>
        exact hdb.uploadKeys

theorem uploadAt?_eq_some_iff {bucket key : Text} {db : Db} (hdb : Admissible db) {up : UploadRow} :
    uploadAt? db bucket key = some up ↔ up ∈ db.uploads ∧ up.bucket = bucket ∧ up.key = key := by
  constructor
  · intro h
    exact ⟨List.mem_of_find?_eq_some h, by simpa using List.find?_some h⟩
  · rintro ⟨hup, rfl, rfl⟩
    cases hat : uploadAt? db up.bucket up.key with
    | none => exact (uploadAt?_eq_none_iff.mp hat up hup ⟨rfl, rfl⟩).elim
    | some v =>
        have hv : v ∈ db.uploads := List.mem_of_find?_eq_some hat
        have hk : v.bucket = up.bucket ∧ v.key = up.key := by simpa using List.find?_some hat
        rw [hdb.uploadKeys v hv up hup hk.1 hk.2]

/-! ## The locks of the others -/

section

variable {hash : Text → Text → ℤ} {sha256 : Bytes → Bytes} {held held' : List Lock} {db : Db}
  {f : ℤ}

abbrev Compatible (hash : Text → Text → ℤ) (sha256 : Bytes → Bytes) (held held' : List Lock) : Prop :=
  Apart (store hash sha256) held held'

theorem Compatible.row {slot : Slot} {mode mode' : LockMode} (h : Compatible hash sha256 held held')
    (hl : .row slot mode ∈ held) (hl' : .row slot mode' ∈ held') :
    mode.conflict mode' = false := by
  simpa [store, Lock.conflict] using h _ hl _ hl'

theorem Compatible.key {n : ℤ} (h : Compatible hash sha256 held held') (hl : .key n ∈ held) :
    .key n ∉ held' := by
  intro hl'
  simpa [store, Lock.conflict] using h _ hl _ hl'

theorem Compatible.file (h : Compatible hash sha256 held held') (hl : .file f ∈ held) :
    .file f ∉ held' := by
  intro hl'
  simpa [store, Lock.conflict] using h _ hl _ hl'

theorem Compatible.update {slot : Slot} {mode : LockMode} (h : Compatible hash sha256 held held')
    (hl : .row slot .update ∈ held) (hmode : mode ≠ .present) : .row slot mode ∉ held' := by
  intro hl'
  have := h.row hl hl'
  cases mode <;> simp_all [LockMode.conflict]

theorem Compatible.delete {slot : Slot} {mode : LockMode} (h : Compatible hash sha256 held held')
    (hl : .row slot .delete ∈ held) : .row slot mode ∉ held' := by
  intro hl'
  have := h.row hl hl'
  cases mode <;> simp_all [LockMode.conflict]

theorem Compatible.keyShare {slot : Slot} (h : Compatible hash sha256 held held')
    (hl : .row slot .keyShare ∈ held) : .row slot .update ∉ held' := by
  intro hl'
  have := h.row hl hl'
  simp [LockMode.conflict] at this

theorem Compatible.not_dead (h : Compatible hash sha256 held held') (hdb : Admissible db)
    {bucket key : Text} (hkey : .key (hash bucket key) ∈ held) (hcov : Covered hash held' db f) :
    f ∉ deadFiles (db.objects.find? (bucket, key)) := by
  intro hdead
  obtain ⟨r, hr, hk, hf⟩ := hdb.owned.mem_dead_iff.mp hdead
  obtain ⟨rfl, rfl⟩ := Prod.mk.inj hk
  exact h.key hkey (hcov.key_of_object hdb hr hf)

theorem Compatible.other_key (h : Compatible hash sha256 held held') {bucket key bucket' key' : Text}
    (hkey : .key (hash bucket key) ∈ held) (hkey' : .key (hash bucket' key') ∈ held') :
    (bucket, key) ≠ (bucket', key') := by
  rintro heq
  obtain ⟨rfl, rfl⟩ := Prod.mk.inj heq
  exact h.key hkey hkey'

theorem Unused.of_sub {db' : Db} (h : Unused db f) (hseq : db.fileSeq ≤ db'.fileSeq)
    (howned : f ∈ ownedFiles db' → f ∈ ownedFiles db)
    (hchunks : ∀ c ∈ db'.chunks, c.fileId = f → c ∈ db.chunks) : Unused db' f where
  positive := h.positive
  le_max := h.le_max
  drawn := h.drawn.trans hseq
  unowned := fun hf => h.unowned (howned hf)
  rowless := fun c hc hf => h.rowless c (hchunks c hc hf) hf

/-! ## One commit -/

theorem rely_createBucket (h : Compatible hash sha256 held held') {now : ℤ} {name : Text}
    {buckets : Table BucketRow.name} (hlock : .row (.bucket name) .update ∈ held)
    (hinsert : db.buckets.insert? ⟨name, now⟩ = some buckets) :
    Rely hash held' db { db with buckets := buckets } :=
  { Rely.refl hash held' db with
    bucket := by
      intro name' mode hmode hlock'
      apply Option.ext
      intro b
      simp only [Table.find?_eq_some_iff, Table.mem_insert? hinsert]
      constructor
      · rintro ⟨hb | rfl, hk⟩
        · exact ⟨hb, hk⟩
        · exact (h.update (hk ▸ hlock) hmode hlock').elim
      · rintro ⟨hb, hk⟩
        exact ⟨.inl hb, hk⟩
    file := fun f _ hf => hf.of_sub le_rfl id fun _ hc _ => hc }

theorem rely_deleteBucket (h : Compatible hash sha256 held held') {name : Text}
    (hlock : .row (.bucket name) .update ∈ held) :
    Rely hash held' db { db with buckets := db.buckets.deleteWhere (fun b => b.name = name) } :=
  { Rely.refl hash held' db with
    bucket := by
      intro name' mode hmode hlock'
      refine Table.find?_deleteWhere fun b hb => ?_
      rw [decide_eq_false_iff_not]
      rintro rfl
      exact h.update hlock hmode (hb ▸ hlock')
    file := fun f _ hf => hf.of_sub le_rfl id fun _ hc _ => hc }

theorem mem_ownedFiles_published {row : ObjectRow} {old : Option ObjectRow} {chunks : Table _}
    (hf : f ∈ ownedFiles (published (withChunks db chunks) row old)) :
    f ∈ ownedFiles db ∨ f ∈ row.files := by
  rcases mem_ownedFiles.mp hf with ⟨r, hr, hfr⟩ | hp
  · rcases Table.mem_upsert.mp hr with ⟨hr, _⟩ | rfl
    · exact .inl (mem_ownedFiles.mpr (.inl ⟨r, hr, hfr⟩))
    · exact .inr hfr
  · exact .inl (mem_ownedFiles.mpr (.inr hp))

theorem rely_put (h : Compatible hash sha256 held held') (hdb : Admissible db) {now fileId : ℤ}
    {bucket key : Text} {condition : PutCondition} {body : Bytes}
    {chunks : Table ChunkRow.primaryKey} (hkey : .key (hash bucket key) ∈ held)
    (hbucket : .row (.bucket bucket) .keyShare ∈ held) (hfile : .file fileId ∈ held)
    (hunused : Unused db fileId)
    (hrows : db.chunks.insertAll? (rowsOf fileId body) = some chunks) :
    Rely hash held' db (published (withChunks db chunks)
      ((putWrite sha256 fileId condition body).row now bucket key)
      (db.objects.find? (bucket, key))) :=
  { Rely.refl hash held' db with
    object := by
      intro bucket' key' hkey'
      exact Table.find?_upsert_of_ne (h.other_key hkey hkey')
    vacant := by
      intro name hlock hvacant
      obtain ⟨hobjects, huploads⟩ := occupied_eq_false_iff.mp hvacant
      refine occupied_eq_false_iff.mpr ⟨?_, huploads⟩
      intro r hr
      rcases Table.mem_upsert.mp hr with ⟨hr, _⟩ | rfl
      · exact hobjects r hr
      · rintro rfl
        exact h.keyShare hbucket hlock
    file := by
      intro f hlock hf
      have hne : f ≠ fileId := by
        rintro rfl
        exact h.file hfile hlock
      refine hf.of_sub le_rfl ?_ ?_
      · intro hmem
        exact (mem_ownedFiles_published hmem).resolve_right fun hrow =>
          hne (List.mem_singleton.mp hrow)
      · intro c hc hcf
        rcases (Table.mem_insertAll? hrows).mp (Table.mem_deleteWhere.mp hc).1 with hc | hc
        · exact hc
        · exact (hne (hcf.symm.trans (fileId_of_mem_rowsOf hc))).elim
    grown := by
      intro f hcov c hc hcf
      rcases (Table.mem_insertAll? hrows).mp (Table.mem_deleteWhere.mp hc).1 with hc | hc
      · exact hc
      · have hf : f = fileId := hcf.symm.trans (fileId_of_mem_rowsOf hc)
        exact (hunused.unowned (hf ▸ hcov.owned)).elim
    kept := by
      intro f hfirm c hc hcf
      refine Table.mem_deleteWhere.mpr ⟨(Table.mem_insertAll? hrows).mpr (.inl hc), ?_⟩
      rw [decide_eq_false_iff_not, hcf]
      exact h.not_dead hdb hkey hfirm.covered }

theorem rely_deleted (h : Compatible hash sha256 held held') (hdb : Admissible db)
    {bucket key : Text} {r : ObjectRow} (hkey : .key (hash bucket key) ∈ held)
    (hold : db.objects.find? (bucket, key) = some r) : Rely hash held' db (deleted db r) := by
  have hpk := (Table.find?_eq_some_iff.mp hold).2
  exact
    { Rely.refl hash held' db with
      object := by
        intro bucket' key' hkey'
        refine Table.find?_deleteWhere fun q hq => ?_
        rw [decide_eq_false_iff_not, hq, hpk]
        exact (h.other_key hkey hkey').symm
      vacant := by
        intro name _ hvacant
        obtain ⟨hobjects, huploads⟩ := occupied_eq_false_iff.mp hvacant
        exact occupied_eq_false_iff.mpr
          ⟨fun q hq => hobjects q (Table.mem_deleteWhere.mp hq).1, huploads⟩
      file := by
        intro f _ hf
        refine hf.of_sub le_rfl ?_ fun c hc _ => (Table.mem_deleteWhere.mp hc).1
        intro hmem
        rcases mem_ownedFiles.mp hmem with ⟨q, hq, hfq⟩ | hp
        · exact mem_ownedFiles.mpr (.inl ⟨q, (Table.mem_deleteWhere.mp hq).1, hfq⟩)
        · exact mem_ownedFiles.mpr (.inr hp)
      grown := fun f _ c hc _ => (Table.mem_deleteWhere.mp hc).1
      kept := by
        intro f hfirm c hc hcf
        refine Table.mem_deleteWhere.mpr ⟨hc, ?_⟩
        rw [decide_eq_false_iff_not, hcf, ← hold]
        exact h.not_dead hdb hkey hfirm.covered }

theorem rely_createUpload (h : Compatible hash sha256 held held') {now : ℤ}
    {uuid bucket key : Text} {uploads : Table UploadRow.uploadId}
    (hbucket : .row (.bucket bucket) .keyShare ∈ held)
    (hkey : .row (.uploadKey bucket key) .update ∈ held)
    (hid : .row (.upload uuid) .update ∈ held)
    (hinsert : db.uploads.insert? ⟨uuid, bucket, key, now⟩ = some uploads) :
    Rely hash held' db { db with uploads := uploads } :=
  { Rely.refl hash held' db with
    upload := by
      intro id mode hmode hlock
      apply Option.ext
      intro u
      simp only [Table.find?_eq_some_iff, Table.mem_insert? hinsert]
      constructor
      · rintro ⟨hu | rfl, hk⟩
        · exact ⟨hu, hk⟩
        · exact (h.update (hk ▸ hid) hmode hlock).elim
      · rintro ⟨hu, hk⟩
        exact ⟨.inl hu, hk⟩
    uploadKey := by
      intro bucket' key' hlock hnone
      rw [uploadAt?_eq_none_iff] at hnone ⊢
      intro u hu
      rcases (Table.mem_insert? hinsert).mp hu with hu | rfl
      · exact hnone u hu
      · rintro ⟨rfl, rfl⟩
        exact h.update hkey (by decide) hlock
    vacant := by
      intro name hlock hvacant
      obtain ⟨hobjects, huploads⟩ := occupied_eq_false_iff.mp hvacant
      refine occupied_eq_false_iff.mpr ⟨hobjects, ?_⟩
      intro u hu
      rcases (Table.mem_insert? hinsert).mp hu with hu | rfl
      · exact huploads u hu
      · rintro rfl
        exact h.keyShare hbucket hlock
    file := fun f _ hf => hf.of_sub le_rfl id fun _ hc _ => hc }

theorem rely_recorded (h : Compatible hash sha256 held held') (hdb : Admissible db)
    {part : UploadPartRow} {rows : List ChunkRow} {chunks : Table ChunkRow.primaryKey}
    (hupload : .row (.upload part.uploadId) .keyShare ∈ held)
    (hpart : .row (.part part.uploadId part.partNo) .update ∈ held)
    (hfile : .file part.fileId ∈ held) (hunused : Unused db part.fileId)
    (hrows : db.chunks.insertAll? rows = some chunks) (hid : ∀ c ∈ rows, c.fileId = part.fileId) :
    Rely hash held' db (recorded (withChunks db chunks) part) :=
  { Rely.refl hash held' db with
    part := by
      intro id no mode hmode hlock
      refine Table.find?_upsert_of_ne fun hk => ?_
      obtain ⟨rfl, rfl⟩ := Prod.mk.inj hk
      exact h.update hpart hmode hlock
    parts := by
      intro id hlock p hp
      have hne : p.uploadId ≠ part.uploadId := by
        rintro heq
        rw [hp] at heq
        subst heq
        exact h.keyShare hupload hlock
      refine Table.mem_upsert.trans ⟨?_, fun hmem => .inl ⟨hmem, fun hk => hne (Prod.mk.inj hk).1⟩⟩
      rintro (⟨hmem, _⟩ | rfl)
      · exact hmem
      · exact (hne rfl).elim
    file := by
      intro f hlock hf
      have hne : f ≠ part.fileId := by
        rintro rfl
        exact h.file hfile hlock
      refine hf.of_sub le_rfl ?_ ?_
      · intro hmem
        rcases mem_ownedFiles.mp hmem with hr | ⟨p, hp, hpf⟩
        · exact mem_ownedFiles.mpr (.inl hr)
        · rcases Table.mem_upsert.mp hp with ⟨hp, _⟩ | rfl
          · exact mem_ownedFiles.mpr (.inr ⟨p, hp, hpf⟩)
          · exact (hne hpf.symm).elim
      · intro c hc hcf
        rcases (Table.mem_insertAll? hrows).mp (Table.mem_deleteWhere.mp hc).1 with hc | hc
        · exact hc
        · exact (hne (hcf.symm.trans (hid c hc))).elim
    grown := by
      intro f hcov c hc hcf
      rcases (Table.mem_insertAll? hrows).mp (Table.mem_deleteWhere.mp hc).1 with hc | hc
      · exact hc
      · have hf : f = part.fileId := hcf.symm.trans (hid c hc)
        exact (hunused.unowned (hf ▸ hcov.owned)).elim
    kept := by
      intro f hfirm c hc hcf
      refine Table.mem_deleteWhere.mpr ⟨(Table.mem_insertAll? hrows).mpr (.inl hc), ?_⟩
      rw [decide_eq_false_iff_not, Option.mem_toList, Option.map_eq_some_iff]
      rintro ⟨old, hold, hof⟩
      obtain ⟨hmem, hk⟩ := Table.find?_eq_some_iff.mp hold
      have hlock := hfirm.upload_of_part hdb hmem (hof.trans hcf)
      rw [(Prod.mk.inj hk).1] at hlock
      exact h.keyShare hupload hlock }

/-- The part records of an upload go with it only when each is locked. -/
theorem find?_part_unlocked (h : Compatible hash sha256 held held') {uploadId : Text}
    (hparts : ∀ p ∈ db.uploadParts, p.uploadId = uploadId →
      .row (.part uploadId p.partNo) .delete ∈ held) {id : Text} {no : ℤ} {mode : LockMode}
    (hlock : .row (.part id no) mode ∈ held') :
    (db.uploadParts.deleteWhere (fun p => p.uploadId = uploadId)).find? (id, no) =
      db.uploadParts.find? (id, no) := by
  by_cases hid : id = uploadId
  · subst hid
    have hnone : db.uploadParts.find? (id, no) = none := by
      rw [Table.find?_eq_none_iff]
      intro p hp hk
      obtain ⟨hpid, rfl⟩ := Prod.mk.inj hk
      exact h.delete (hparts p hp hpid) hlock
    rw [hnone, Table.find?_eq_none_iff]
    intro p hp
    exact Table.find?_eq_none_iff.mp hnone p (Table.mem_deleteWhere.mp hp).1
  · refine Table.find?_deleteWhere fun p hp => ?_
    rw [decide_eq_false_iff_not, (Prod.mk.inj hp).1]
    exact hid

theorem rely_deleteUpload (h : Compatible hash sha256 held held') {uploadId : Text}
    (hupload : .row (.upload uploadId) .update ∈ held)
    (hparts : ∀ p ∈ db.uploadParts, p.uploadId = uploadId →
      .row (.part uploadId p.partNo) .delete ∈ held) :
    Rely hash held' db (deleteUpload db uploadId) :=
  { Rely.refl hash held' db with
    upload := by
      intro id mode hmode hlock
      refine Table.find?_deleteWhere fun u hu => ?_
      rw [decide_eq_false_iff_not, hu]
      rintro rfl
      exact h.update hupload hmode hlock
    uploadKey := by
      intro bucket key _ hnone
      rw [uploadAt?_eq_none_iff] at hnone ⊢
      exact fun u hu => hnone u (Table.mem_deleteWhere.mp hu).1
    part := fun id no mode _ hlock => find?_part_unlocked h hparts hlock
    parts := by
      intro id hlock p hp
      refine Table.mem_deleteWhere.trans ⟨And.left, fun hmem => ⟨hmem, ?_⟩⟩
      rw [decide_eq_false_iff_not, hp]
      rintro rfl
      exact h.update hupload (by decide) hlock
    vacant := by
      intro name _ hvacant
      obtain ⟨hobjects, huploads⟩ := occupied_eq_false_iff.mp hvacant
      exact occupied_eq_false_iff.mpr
        ⟨hobjects, fun u hu => huploads u (Table.mem_deleteWhere.mp hu).1⟩
    file := by
      intro f _ hf
      refine hf.of_sub le_rfl ?_ fun _ hc _ => hc
      intro hmem
      rcases mem_ownedFiles.mp hmem with hr | ⟨p, hp, hpf⟩
      · exact mem_ownedFiles.mpr (.inl hr)
      · exact mem_ownedFiles.mpr (.inr ⟨p, (Table.mem_deleteWhere.mp hp).1, hpf⟩) }

theorem rely_completed (h : Compatible hash sha256 held held') (hdb : Admissible db) {now : ℤ}
    {uploadId bucket key : Text} {listed : List (ℤ × Text)}
    (hkey : .key (hash bucket key) ∈ held) (hupload : .row (.upload uploadId) .update ∈ held)
    (hparts : ∀ p ∈ db.uploadParts, p.uploadId = uploadId →
      .row (.part uploadId p.partNo) .delete ∈ held)
    (haccept : CompleteAccepts db uploadId bucket key listed) :
    Rely hash held' db (completed sha256 db now uploadId bucket key) :=
  { rely_deleteUpload h hupload hparts with
    object := by
      intro bucket' key' hkey'
      exact Table.find?_upsert_of_ne (h.other_key hkey hkey')
    vacant := by
      intro name _ hvacant
      obtain ⟨hobjects, huploads⟩ := occupied_eq_false_iff.mp hvacant
      refine occupied_eq_false_iff.mpr
        ⟨?_, fun u hu => huploads u (Table.mem_deleteWhere.mp hu).1⟩
      intro r hr
      rcases Table.mem_upsert.mp hr with ⟨hr, _⟩ | rfl
      · exact hobjects r hr
      · -- the upload is a child of the bucket already
        obtain ⟨up, hup, rfl, rfl⟩ := haccept.1
        exact huploads up (Table.find?_eq_some_iff.mp hup).1
    file := by
      intro f _ hf
      refine hf.of_sub le_rfl ?_ fun c hc _ => (Table.mem_deleteWhere.mp hc).1
      intro hmem
      rcases mem_ownedFiles.mp hmem with ⟨r, hr, hfr⟩ | ⟨p, hp, hpf⟩
      · rcases Table.mem_upsert.mp hr with ⟨hr, _⟩ | rfl
        · exact mem_ownedFiles.mpr (.inl ⟨r, hr, hfr⟩)
        · obtain ⟨p, hp, hpf⟩ := List.mem_map.mp hfr
          exact mem_ownedFiles.mpr (.inr ⟨p, (mem_recordedParts.mp hp).1, hpf⟩)
      · exact mem_ownedFiles.mpr (.inr ⟨p, (Table.mem_deleteWhere.mp hp).1, hpf⟩)
    grown := fun f _ c hc _ => (Table.mem_deleteWhere.mp hc).1
    kept := by
      intro f hfirm c hc hcf
      refine Table.mem_deleteWhere.mpr ⟨hc, ?_⟩
      rw [decide_eq_false_iff_not, hcf]
      exact h.not_dead hdb hkey hfirm.covered }

theorem rely_aborted (h : Compatible hash sha256 held held') (hdb : Admissible db)
    {uploadId : Text} (hupload : .row (.upload uploadId) .update ∈ held)
    (hparts : ∀ p ∈ db.uploadParts, p.uploadId = uploadId →
      .row (.part uploadId p.partNo) .delete ∈ held) :
    Rely hash held' db (aborted db uploadId) :=
  { rely_deleteUpload h hupload hparts with
    file := by
      intro f _ hf
      refine hf.of_sub le_rfl ?_ fun c hc _ => (Table.mem_deleteWhere.mp hc).1
      intro hmem
      rcases mem_ownedFiles.mp hmem with hr | ⟨p, hp, hpf⟩
      · exact mem_ownedFiles.mpr (.inl hr)
      · exact mem_ownedFiles.mpr (.inr ⟨p, (Table.mem_deleteWhere.mp hp).1, hpf⟩)
    grown := fun f _ c hc _ => (Table.mem_deleteWhere.mp hc).1
    kept := by
      intro f hfirm c hc hcf
      refine Table.mem_deleteWhere.mpr ⟨hc, ?_⟩
      rw [decide_eq_false_iff_not]
      intro hstaged
      obtain ⟨p, hp, hpf⟩ := List.mem_map.mp hstaged
      obtain ⟨hmem, hid⟩ := List.mem_filter.mp hp
      have hlock := hfirm.upload_of_part hdb hmem (hpf.trans hcf)
      rw [of_decide_eq_true hid] at hlock
      exact h.update hupload (by decide) hlock }

theorem Table.find?_congr {α κ : Type*} {key : α → κ} [DecidableEq κ] {t t' : Table key} {k : κ}
    (h : ∀ a, key a = k → (a ∈ t' ↔ a ∈ t)) : t'.find? k = t.find? k := by
  apply Option.ext
  intro a
  rw [Table.find?_eq_some_iff, Table.find?_eq_some_iff]
  constructor
  · rintro ⟨ha, hk⟩
    exact ⟨(h a hk).mp ha, hk⟩
  · rintro ⟨ha, hk⟩
    exact ⟨(h a hk).mpr ha, hk⟩

theorem rely_expires (h : Compatible hash sha256 held held') (hdb : Admissible db) {db' : Db}
    (hexpires : Expires db db')
    (huploads : ∀ u ∈ db.uploads, u ∉ db'.uploads → .row (.upload u.uploadId) .update ∈ held)
    (hparts : ∀ p ∈ db.uploadParts, p ∉ db'.uploadParts →
      .row (.upload p.uploadId) .update ∈ held ∧ .row (.part p.uploadId p.partNo) .delete ∈ held)
    (hchunks : ∀ c ∈ db.chunks, c ∉ db'.chunks → ∃ p ∈ db.uploadParts,
      p.fileId = c.fileId ∧ .row (.upload p.uploadId) .update ∈ held) :
    Rely hash held' db db' where
  seq_le := hexpires.fileSeq_eq.ge
  bucket := fun _ _ _ _ => by rw [hexpires.buckets_eq]
  object := fun _ _ _ => by rw [hexpires.objects_eq]
  upload := by
    rintro id mode hmode hlock
    refine Table.find?_congr fun u hu => ⟨hexpires.uploads_sub u, fun hmem => ?_⟩
    by_contra hlost
    exact h.update (hu ▸ huploads u hmem hlost) hmode hlock
  uploadKey := by
    intro bucket key _ hnone
    rw [uploadAt?_eq_none_iff] at hnone ⊢
    exact fun u hu => hnone u (hexpires.uploads_sub u hu)
  part := by
    rintro id no mode _ hlock
    refine Table.find?_congr fun p hk =>
      ⟨fun hp => hexpires.parts_sublist.subset hp, fun hmem => ?_⟩
    by_contra hlost
    obtain ⟨rfl, rfl⟩ := Prod.mk.inj hk
    exact h.delete (hparts p hmem hlost).2 hlock
  parts := by
    rintro id hlock p rfl
    refine ⟨fun hp => hexpires.parts_sublist.subset hp, fun hmem => ?_⟩
    by_contra hlost
    exact h.update (hparts p hmem hlost).1 (by decide) hlock
  vacant := by
    intro name _ hvacant
    obtain ⟨hobjects, hups⟩ := occupied_eq_false_iff.mp hvacant
    exact occupied_eq_false_iff.mpr ⟨hexpires.objects_eq ▸ hobjects,
      fun u hu => hups u (hexpires.uploads_sub u hu)⟩
  file := by
    intro f _ hf
    refine hf.of_sub hexpires.fileSeq_eq.ge ?_ fun c hc _ => hexpires.chunks_sub c hc
    intro hmem
    rcases mem_ownedFiles.mp hmem with hr | ⟨p, hp, hpf⟩
    · exact mem_ownedFiles.mpr (.inl (hexpires.objects_eq ▸ hr))
    · exact mem_ownedFiles.mpr (.inr ⟨p, hexpires.parts_sublist.subset hp, hpf⟩)
  grown := fun f _ c hc _ => hexpires.chunks_sub c hc
  kept := by
    intro f hfirm c hc hcf
    by_contra hlost
    obtain ⟨p, hp, hpf, hlock⟩ := hchunks c hc hlost
    exact h.update hlock (by decide) (hfirm.upload_of_part hdb hp (hpf.trans hcf))

theorem Commits.rely {db' : Db} {job : Job} {a : Outcome} (hdb : Admissible db)
    (hc : Commits hash sha256 held db job a db') (h : Compatible hash sha256 held held') :
    Rely hash held' db db' := by
  cases hc with
  | createBucket hlock hinsert => exact rely_createBucket h hlock hinsert
  | deleteBucket hlock => exact rely_deleteBucket h hlock
  | put hkey hbucket hfile hunused _ _ hrows => exact rely_put h hdb hkey hbucket hfile hunused hrows
  | delete hkey hold => exact rely_deleted h hdb hkey hold
  | deleteNone => exact Rely.refl _ _ _
  | createUpload hbucket hkey hid _ _ hinsert => exact rely_createUpload h hbucket hkey hid hinsert
  | reattach => exact Rely.refl _ _ _
  | @uploadPart _ partNo fileId uploadId pushes _ hupload hpart hfile hunused _ hrows =>
      have hid : ∀ c ∈ rowsOf fileId pushes.flatten,
          c.fileId = (partRecord sha256 uploadId partNo fileId pushes.flatten).fileId :=
        fun _ hc => fileId_of_mem_rowsOf hc
      exact rely_recorded h hdb hupload hpart hfile hunused hrows hid
  | completeUpload hkey hupload hparts haccept =>
      exact rely_completed h hdb hkey hupload hparts haccept
  | abortUpload hupload hparts _ => exact rely_aborted h hdb hupload hparts
  | expireUploads hexpires huploads hparts hchunks =>
      exact rely_expires h hdb hexpires huploads hparts hchunks

end

end Pgvs3
