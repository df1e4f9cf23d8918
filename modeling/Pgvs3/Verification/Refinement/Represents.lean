import Pgvs3.Verification.Concurrency.Files
import Pgvs3.Verification.Refinement.ObjectStore

/-! # The object store behind the rows

What committed rows stand for, given the bodies of the files; and every commit as one step
of the object store. -/

namespace Pgvs3

open Library

variable {hash : Text → Text → ℤ} {sha256 : Bytes → Bytes} {held : List Lock} {db db' : Db}
  {written written' : ℤ → Bytes}

def ObjectRow.content (r : ObjectRow) (written : ℤ → Bytes) : Content :=
  ⟨r.files.flatMap written, r.etag, r.createdAt⟩

/-- The bodies of the parts that are recorded for an upload. -/
def stagedParts (db : Db) (written : ℤ → Bytes) (id : Text) (no : ℤ) : Option Bytes :=
  (db.uploadParts.find? (id, no)).map fun p => written p.fileId

def UploadRow.staging (u : UploadRow) (db : Db) (written : ℤ → Bytes) : Staging :=
  ⟨u.bucket, u.key, u.createdAt, stagedParts db written u.uploadId⟩

/-- The object store that the rows stand for. -/
def Db.contents (db : Db) (written : ℤ → Bytes) : ObjectStore where
  buckets name := (db.buckets.find? name).map (·.createdAt)
  objects k := (db.objects.find? k).map (·.content written)
  uploads id := (db.uploads.find? id).map (·.staging db written)

/-- The columns fit the bodies of the files, and a part belongs to an upload. -/
structure Faithful (sha256 : Bytes → Bytes) (written : ℤ → Bytes) (db : Db) : Prop where
  objects : ∀ r ∈ db.objects, r.Holds written
  parts : ∀ p ∈ db.uploadParts,
    p.size = (written p.fileId).length ∧ p.sha256 = sha256 (written p.fileId)
  staged : ∀ p ∈ db.uploadParts, db.uploads.find? p.uploadId ≠ none

/-! ## Bodies of other files -/

theorem ObjectRow.content_congr {r : ObjectRow} (h : ∀ f ∈ r.files, written' f = written f) :
    r.content written' = r.content written := by
  simp only [ObjectRow.content, List.flatMap_congr h]

theorem stagedParts_congr (h : ∀ p ∈ db.uploadParts, written' p.fileId = written p.fileId)
    (id : Text) : stagedParts db written' id = stagedParts db written id := by
  funext no
  cases hp : db.uploadParts.find? (id, no) with
  | none => simp [stagedParts, hp]
  | some p => simp [stagedParts, hp, h p (Table.find?_eq_some_iff.mp hp).1]

theorem contents_congr (h : ∀ f ∈ ownedFiles db, written' f = written f) :
    db.contents written' = db.contents written := by
  have hparts : ∀ p ∈ db.uploadParts, written' p.fileId = written p.fileId := fun p hp =>
    h _ (mem_ownedFiles.mpr (.inr ⟨p, hp, rfl⟩))
  ext1
  · rfl
  · funext k
    cases hr : db.objects.find? k with
    | none => simp [Db.contents, hr]
    | some r =>
        have hmem := (Table.find?_eq_some_iff.mp hr).1
        have hfiles : ∀ f ∈ r.files, written' f = written f := fun f hf =>
          h f (mem_ownedFiles.mpr (.inl ⟨r, hmem, hf⟩))
        simp [Db.contents, hr, ObjectRow.content_congr hfiles]
  · funext id
    simp only [Db.contents, UploadRow.staging, stagedParts_congr hparts]

theorem Faithful.congr (hf : Faithful sha256 written db)
    (h : ∀ f ∈ ownedFiles db, written' f = written f) : Faithful sha256 written' db where
  objects r hr := (hf.objects r hr).congr fun f hfile => h f (mem_ownedFiles.mpr (.inl ⟨r, hr, hfile⟩))
  parts p hp := by
    rw [h _ (mem_ownedFiles.mpr (.inr ⟨p, hp, rfl⟩))]
    exact hf.parts p hp
  staged := hf.staged

/-! ## Reading the store -/

theorem contents_bucket {name : Text} :
    (db.contents written).buckets name = none ↔ db.buckets.find? name = none :=
  Option.map_eq_none_iff

theorem contents_object {k : Text × Text} :
    (db.contents written).objects k = none ↔ db.objects.find? k = none :=
  Option.map_eq_none_iff

theorem contents_upload {id : Text} :
    (db.contents written).uploads id = none ↔ db.uploads.find? id = none :=
  Option.map_eq_none_iff

theorem contents_uploadAt {id bucket key : Text} {u : Staging} :
    (db.contents written).UploadAt id bucket key u ↔
      ∃ up, db.uploads.find? id = some up ∧ up.bucket = bucket ∧ up.key = key ∧
        u = up.staging db written := by
  constructor
  · rintro ⟨hu, rfl, rfl⟩
    obtain ⟨up, hup, rfl⟩ := Option.map_eq_some_iff.mp hu
    exact ⟨up, hup, rfl, rfl, rfl⟩
  · rintro ⟨up, hup, rfl, rfl, rfl⟩
    exact ⟨Option.map_eq_some_iff.mpr ⟨up, hup, rfl⟩, rfl, rfl⟩

theorem contents_uploadAt_iff {id bucket key : Text} :
    (∃ u, (db.contents written).UploadAt id bucket key u) ↔ UploadAt db id bucket key := by
  constructor
  · rintro ⟨u, hu⟩
    obtain ⟨up, hup, hbucket, hkey, -⟩ := contents_uploadAt.mp hu
    exact ⟨up, hup, hbucket, hkey⟩
  · rintro ⟨up, hup, hbucket, hkey⟩
    exact ⟨_, contents_uploadAt.mpr ⟨up, hup, hbucket, hkey, rfl⟩⟩

theorem contents_occupied {name : Text} :
    (db.contents written).Occupied name ↔ Sql.occupied db name = true := by
  simp only [ObjectStore.Occupied, Sql.occupied, decide_eq_true_eq]
  refine or_congr ⟨?_, ?_⟩ ⟨?_, ?_⟩
  · rintro ⟨key, hkey⟩
    obtain ⟨r, hr⟩ := Option.ne_none_iff_exists'.mp (fun h => hkey (contents_object.mpr h))
    obtain ⟨hr, hk⟩ := Table.find?_eq_some_iff.mp hr
    exact ⟨r, hr, congrArg Prod.fst hk⟩
  · rintro ⟨r, hr, rfl⟩
    refine ⟨r.key, fun h => ?_⟩
    exact Table.find?_eq_none_iff.mp (contents_object.mp h) r hr rfl
  · rintro ⟨id, u, hu, rfl⟩
    obtain ⟨up, hup, rfl⟩ := Option.map_eq_some_iff.mp hu
    exact ⟨up, (Table.find?_eq_some_iff.mp hup).1, rfl⟩
  · rintro ⟨up, hup, rfl⟩
    have hfind : db.uploads.find? up.uploadId = some up := Table.find?_eq_some_iff.mpr ⟨hup, rfl⟩
    exact ⟨up.uploadId, _, Option.map_eq_some_iff.mpr ⟨up, hfind, rfl⟩, rfl⟩

theorem allows_iff {condition : PutCondition} {k : Text × Text} :
    condition.allows (db.objects.find? k) = true ↔
      condition.Holds ((db.contents written).objects k) := by
  simp only [Db.contents]
  generalize db.objects.find? k = old
  cases condition <;> cases old <;> simp [PutCondition.allows, PutCondition.Holds, ObjectRow.content]

theorem not_uploadAt {bucket key : Text} (h : uploadAt? db bucket key = none) (id : Text)
    (u : Staging) : ¬ (db.contents written).UploadAt id bucket key u := by
  intro hu
  obtain ⟨up, hup, hbucket, hkey, -⟩ := contents_uploadAt.mp hu
  exact uploadAt?_eq_none_iff.mp h up (Table.find?_eq_some_iff.mp hup).1 ⟨hbucket, hkey⟩

/-! ## Changing the store -/

theorem contents_published (row : ObjectRow) (old : Option ObjectRow) :
    (published db row old).contents written =
      { db.contents written with
        objects := Function.update (db.contents written).objects row.primaryKey
          (some (row.content written)) } := by
  ext1
  · rfl
  · have hfind : (published db row old).objects.find? =
        Function.update db.objects.find? row.primaryKey (some row) := Table.find?_upsert ..
    simp only [Db.contents, hfind]
    exact Function.comp_update (Option.map (·.content written)) db.objects.find? row.primaryKey
      (some row)
  · rfl

theorem contents_deleted (r : ObjectRow) :
    (deleted db r).contents written =
      { db.contents written with
        objects := Function.update (db.contents written).objects r.primaryKey none } := by
  ext1
  · rfl
  · have hfind : (deleted db r).objects.find? =
        Function.update db.objects.find? r.primaryKey none := Table.find?_deleteKey ..
    simp only [Db.contents, hfind]
    exact Function.comp_update (Option.map (·.content written)) db.objects.find? r.primaryKey none
  · rfl

theorem stagedParts_deleteUpload {id id' : Text} (h : id' ≠ id) :
    stagedParts (deleteUpload db id) written id' = stagedParts db written id' := by
  funext no
  have hfind : (deleteUpload db id).uploadParts.find? (id', no) =
      db.uploadParts.find? (id', no) := by
    refine Table.find?_deleteWhere fun p hp => ?_
    have hid : p.uploadId = id' := congrArg Prod.fst hp
    simpa [hid] using h
  simp only [stagedParts, hfind]

theorem contents_deleteUpload (id : Text) :
    (deleteUpload db id).contents written =
      { db.contents written with uploads := Function.update (db.contents written).uploads id none } := by
  ext1
  · rfl
  · rfl
  · have hfind : (deleteUpload db id).uploads.find? =
        Function.update db.uploads.find? id none := Table.find?_deleteKey ..
    funext id'
    simp only [Db.contents, hfind]
    by_cases hid : id' = id
    · subst hid
      simp
    · rw [Function.update_of_ne hid, Function.update_of_ne hid]
      cases hu : db.uploads.find? id' with
      | none => rfl
      | some u =>
          obtain rfl := (Table.find?_eq_some_iff.mp hu).2
          simp only [Option.map_some, UploadRow.staging, stagedParts_deleteUpload hid]

theorem contents_recorded {part : UploadPartRow} {up : UploadRow}
    (hup : db.uploads.find? part.uploadId = some up) :
    (recorded db part).contents written =
      { db.contents written with
        uploads := Function.update (db.contents written).uploads part.uploadId (some
          { up.staging db written with
            parts := Function.update (up.staging db written).parts part.partNo
              (some (written part.fileId)) }) } := by
  have hfind : (recorded db part).uploadParts.find? =
      Function.update db.uploadParts.find? part.primaryKey (some part) := Table.find?_upsert ..
  ext1
  · rfl
  · rfl
  · funext id
    have hsame : (recorded db part).uploads.find? id = db.uploads.find? id := rfl
    by_cases hid : id = part.uploadId
    · subst hid
      have hkey := (Table.find?_eq_some_iff.mp hup).2
      simp only [Db.contents, hsame, hup, Option.map_some, Function.update_self, UploadRow.staging,
        Option.some.injEq, Staging.mk.injEq, true_and]
      funext no
      simp only [stagedParts, hfind, hkey]
      by_cases hno : no = part.partNo
      · subst hno
        have hself : Function.update db.uploadParts.find? part.primaryKey (some part)
            (part.uploadId, part.partNo) = some part := Function.update_self ..
        rw [hself, Function.update_self, Option.map_some]
      · rw [Function.update_of_ne hno, Function.update_of_ne fun h => hno (congrArg Prod.snd h)]
        rfl
    · simp only [Db.contents, hsame, Function.update_of_ne hid]
      cases hu : db.uploads.find? id with
      | none => rfl
      | some u =>
          obtain rfl := (Table.find?_eq_some_iff.mp hu).2
          simp only [Option.map_some, UploadRow.staging, Option.some.injEq, Staging.mk.injEq, true_and]
          funext no
          simp only [stagedParts, hfind]
          rw [Function.update_of_ne fun h => hid (congrArg Prod.fst h)]

theorem contents_insertUpload {u : UploadRow} {uploads : Table UploadRow.uploadId}
    (hstaged : ∀ p ∈ db.uploadParts, db.uploads.find? p.uploadId ≠ none)
    (hinsert : db.uploads.insert? u = some uploads) :
    Db.contents { db with uploads := uploads } written =
      { db.contents written with
        uploads := Function.update (db.contents written).uploads u.uploadId
          (some ⟨u.bucket, u.key, u.createdAt, fun _ => none⟩) } := by
  have hfind := Table.find?_insert? hinsert
  ext1
  · rfl
  · rfl
  · funext id
    simp only [Db.contents, hfind]
    by_cases hid : id = u.uploadId
    · subst hid
      simp only [Function.update_self, Option.map_some, UploadRow.staging, Option.some.injEq,
        Staging.mk.injEq, true_and]
      funext no
      rw [stagedParts, Option.map_eq_none_iff]
      refine Table.find?_eq_none_iff.mpr fun p hp hkey => hstaged p hp ?_
      have hpid : p.uploadId = u.uploadId := congrArg Prod.fst hkey
      rw [hpid]
      exact Table.find?_eq_none_iff.mpr (Table.insert?_eq_some_iff.mp hinsert).1
    · rw [Function.update_of_ne hid, Function.update_of_ne hid]
      rfl

end Pgvs3
