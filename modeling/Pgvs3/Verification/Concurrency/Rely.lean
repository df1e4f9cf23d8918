import Pgvs3.Model.Transactions
import Pgvs3.Library.RelyGuarantee
import Pgvs3.Verification.Store.Ownership

/-! # What a lock protects

A transaction relies on the locks it holds: the row of a row lock stays as it is, so do
the object of an advisory lock and the parts of a locked upload, and no child appears in
a bucket that is locked for update. The files behind such rows keep their chunk rows. -/

namespace Pgvs3

open Library

/-- A drawn file id that nothing committed names. -/
structure Unused (db : Db) (f : ℤ) : Prop where
  positive : 0 < f
  le_max : f ≤ maxFileId
  drawn : f ≤ db.fileSeq
  unowned : f ∉ ownedFiles db
  rowless : ∀ c ∈ db.chunks, c.fileId ≠ f

/-- A file whose object or upload is locked, so that nobody else changes its rows. -/
def Firm (hash : Text → Text → ℤ) (held : List Lock) (db : Db) (f : ℤ) : Prop :=
  (∃ r ∈ db.objects, .key (hash r.bucket r.key) ∈ held ∧ f ∈ r.files) ∨
    ∃ p ∈ db.uploadParts, .row (.upload p.uploadId) .update ∈ held ∧ p.fileId = f

/-- A file to which nobody else adds rows. -/
def Covered (hash : Text → Text → ℤ) (held : List Lock) (db : Db) (f : ℤ) : Prop :=
  Firm hash held db f ∨
    ∃ p ∈ db.uploadParts, .row (.part p.uploadId p.partNo) .delete ∈ held ∧ p.fileId = f

/-- What the others may do while a transaction holds `held`. -/
structure Rely (hash : Text → Text → ℤ) (held : List Lock) (db db' : Db) : Prop where
  seq_le : db.fileSeq ≤ db'.fileSeq
  bucket : ∀ name mode, mode ≠ .present → .row (.bucket name) mode ∈ held →
    db'.buckets.find? name = db.buckets.find? name
  object : ∀ bucket key, .key (hash bucket key) ∈ held →
    db'.objects.find? (bucket, key) = db.objects.find? (bucket, key)
  upload : ∀ id mode, mode ≠ .present → .row (.upload id) mode ∈ held →
    db'.uploads.find? id = db.uploads.find? id
  uploadKey : ∀ bucket key, .row (.uploadKey bucket key) .update ∈ held →
    uploadAt? db bucket key = none → uploadAt? db' bucket key = none
  part : ∀ id no mode, mode ≠ .present → .row (.part id no) mode ∈ held →
    db'.uploadParts.find? (id, no) = db.uploadParts.find? (id, no)
  parts : ∀ id, .row (.upload id) .update ∈ held →
    ∀ p : UploadPartRow, p.uploadId = id → (p ∈ db'.uploadParts ↔ p ∈ db.uploadParts)
  vacant : ∀ name, .row (.bucket name) .update ∈ held →
    Sql.occupied db name = false → Sql.occupied db' name = false
  file : ∀ f, .file f ∈ held → Unused db f → Unused db' f
  grown : ∀ f, Covered hash held db f → ∀ c ∈ db'.chunks, c.fileId = f → c ∈ db.chunks
  kept : ∀ f, Firm hash held db f → ∀ c ∈ db.chunks, c.fileId = f → c ∈ db'.chunks

section

variable {hash : Text → Text → ℤ} {held held' : List Lock} {db db' db'' : Db} {f : ℤ}

theorem Rely.refl (hash : Text → Text → ℤ) (held : List Lock) (db : Db) : Rely hash held db db where
  seq_le := le_rfl
  bucket := fun _ _ _ _ => rfl
  object := fun _ _ _ => rfl
  upload := fun _ _ _ _ => rfl
  uploadKey := fun _ _ _ h => h
  part := fun _ _ _ _ _ => rfl
  parts := fun _ _ _ _ => Iff.rfl
  vacant := fun _ _ h => h
  file := fun _ _ h => h
  grown := fun _ _ _ hc _ => hc
  kept := fun _ _ _ hc _ => hc

theorem Firm.covered (h : Firm hash held db f) : Covered hash held db f := .inl h

theorem Firm.mono (h : Firm hash held db f) (hrely : Rely hash held db db') :
    Firm hash held db' f := by
  rcases h with ⟨r, hr, hlock, hf⟩ | ⟨p, hp, hlock, hf⟩
  · refine .inl ⟨r, ?_, hlock, hf⟩
    have hold : db.objects.find? (r.bucket, r.key) = some r :=
      Table.find?_eq_some_iff.mpr ⟨hr, rfl⟩
    exact (Table.find?_eq_some_iff.mp ((hrely.object r.bucket r.key hlock).trans hold)).1
  · exact .inr ⟨p, (hrely.parts _ hlock p rfl).mpr hp, hlock, hf⟩

theorem Covered.mono (h : Covered hash held db f) (hrely : Rely hash held db db') :
    Covered hash held db' f := by
  rcases h with h | ⟨p, hp, hlock, hf⟩
  · exact .inl (h.mono hrely)
  · refine .inr ⟨p, ?_, hlock, hf⟩
    have hold : db.uploadParts.find? (p.uploadId, p.partNo) = some p :=
      Table.find?_eq_some_iff.mpr ⟨hp, rfl⟩
    have hsame := hrely.part p.uploadId p.partNo .delete (by decide) hlock
    exact (Table.find?_eq_some_iff.mp (hsame.trans hold)).1

theorem Firm.weaken (h : Firm hash held db f) (hsub : held ⊆ held') : Firm hash held' db f := by
  rcases h with ⟨r, hr, hlock, hf⟩ | ⟨p, hp, hlock, hf⟩
  · exact .inl ⟨r, hr, hsub hlock, hf⟩
  · exact .inr ⟨p, hp, hsub hlock, hf⟩

theorem Covered.weaken (h : Covered hash held db f) (hsub : held ⊆ held') :
    Covered hash held' db f := by
  rcases h with h | ⟨p, hp, hlock, hf⟩
  · exact .inl (h.weaken hsub)
  · exact .inr ⟨p, hp, hsub hlock, hf⟩

theorem Rely.trans (h : Rely hash held db db') (h' : Rely hash held db' db'') :
    Rely hash held db db'' where
  seq_le := h.seq_le.trans h'.seq_le
  bucket := fun name mode hmode hlock =>
    (h'.bucket name mode hmode hlock).trans (h.bucket name mode hmode hlock)
  object := fun bucket key hlock =>
    (h'.object bucket key hlock).trans (h.object bucket key hlock)
  upload := fun id mode hmode hlock =>
    (h'.upload id mode hmode hlock).trans (h.upload id mode hmode hlock)
  uploadKey := fun bucket key hlock hnone =>
    h'.uploadKey bucket key hlock (h.uploadKey bucket key hlock hnone)
  part := fun id no mode hmode hlock =>
    (h'.part id no mode hmode hlock).trans (h.part id no mode hmode hlock)
  parts := fun id hlock p hid => (h'.parts id hlock p hid).trans (h.parts id hlock p hid)
  vacant := fun name hlock hvacant => h'.vacant name hlock (h.vacant name hlock hvacant)
  file := fun f hlock hunused => h'.file f hlock (h.file f hlock hunused)
  grown := fun f hcov c hc hf => h.grown f hcov c (h'.grown f (hcov.mono h) c hc hf) hf
  kept := fun f hfirm c hc hf => h'.kept f (hfirm.mono h) c (h.kept f hfirm c hc hf) hf

end

/-! ## Files and their owners -/

/-- Committed rows that the constraints of the schema admit. -/
structure Admissible (db : Db) : Prop where
  owned : Owned db
  objects : ∀ r ∈ db.objects, db.buckets.find? r.bucket ≠ none
  uploads : ∀ u ∈ db.uploads, db.buckets.find? u.bucket ≠ none
  uploadKeys : ∀ u ∈ db.uploads, ∀ v ∈ db.uploads, u.bucket = v.bucket → u.key = v.key → u = v

section

variable {hash : Text → Text → ℤ} {held held' : List Lock} {db : Db} {f : ℤ}

theorem Covered.owned (h : Covered hash held db f) : f ∈ ownedFiles db := by
  rw [mem_ownedFiles]
  rcases h with (⟨r, hr, _, hf⟩ | ⟨p, hp, _, hf⟩) | ⟨p, hp, _, hf⟩
  · exact .inl ⟨r, hr, hf⟩
  · exact .inr ⟨p, hp, hf⟩
  · exact .inr ⟨p, hp, hf⟩

/-- Who covers the file of an object holds the lock of its key. -/
theorem Covered.key_of_object (hdb : Admissible db) (h : Covered hash held db f) {r : ObjectRow}
    (hr : r ∈ db.objects) (hf : f ∈ r.files) : .key (hash r.bucket r.key) ∈ held := by
  rcases h with (⟨q, hq, hlock, hfq⟩ | ⟨p, hp, _, rfl⟩) | ⟨p, hp, _, rfl⟩
  · rwa [hdb.owned.object_unique hr hq hf hfq]
  · exact (hdb.owned.object_part_disjoint hr hp hf).elim
  · exact (hdb.owned.object_part_disjoint hr hp hf).elim

/-- Who covers the file of a part holds its upload or has deleted the record. -/
theorem Covered.lock_of_part (hdb : Admissible db) (h : Covered hash held db f)
    {p : UploadPartRow} (hp : p ∈ db.uploadParts) (hf : p.fileId = f) :
    .row (.upload p.uploadId) .update ∈ held ∨ .row (.part p.uploadId p.partNo) .delete ∈ held := by
  subst hf
  rcases h with (⟨r, hr, _, hfr⟩ | ⟨q, hq, hlock, hfq⟩) | ⟨q, hq, hlock, hfq⟩
  · exact (hdb.owned.object_part_disjoint hr hp hfr).elim
  · rw [hdb.owned.part_unique hp hq hfq.symm]
    exact .inl hlock
  · rw [hdb.owned.part_unique hp hq hfq.symm]
    exact .inr hlock

theorem Firm.upload_of_part (hdb : Admissible db) (h : Firm hash held db f) {p : UploadPartRow}
    (hp : p ∈ db.uploadParts) (hf : p.fileId = f) : .row (.upload p.uploadId) .update ∈ held := by
  subst hf
  rcases h with ⟨r, hr, _, hfr⟩ | ⟨q, hq, hlock, hfq⟩
  · exact (hdb.owned.object_part_disjoint hr hp hfr).elim
  · rwa [hdb.owned.part_unique hp hq hfq.symm]

end

end Pgvs3
