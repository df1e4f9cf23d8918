import Pgvs3.Verification.Concurrency.Guarantee

/-! # The terms between the store's transactions

What a statement may ask for, what its early replies say, and how the writes of an open
transaction change what it sees. -/

namespace Pgvs3

open Library

/-! ## Asking for locks -/

/-- How deep in the usual order of acquisition a lock stands: bucket, upload, key, object,
and the rows that are deleted with them. -/
def Lock.depth : Lock → ℕ
  | .file _ => 0
  | .row (.bucket _) .keyShare => 1
  | .row (.upload _) _ => 2
  | .row (.uploadKey _ _) _ => 2
  | .key _ => 3
  | .row (.object _ _) _ => 4
  | .row (.bucket _) _ => 5
  | .row (.part _ _) _ => 6
  | .row (.chunk _ _) _ => 6

def Job.part? : Job → Option (Text × ℤ)
  | .uploadPart _ uploadId partNo _ _ => some (uploadId, partNo)
  | _ => none

/-- The rows of a file may go: its owner is locked, or it belongs to the part record that a
part upload has deleted before it locks anything else. -/
def Erasable (hash : Text → Text → ℤ) (held : List Lock) (db : Db) (f : ℤ) : Prop :=
  Firm hash held db f ∨ (Covered hash held db f ∧ ∀ l ∈ held, l.depth = 0 ∨ l.depth = 6)

/-- The state in which a transaction that holds `held` asks for a lock. -/
def Asked (hash : Text → Text → ℤ) (held : List Lock) (db : Db) : Lock → Prop
  | .file _ => False
  | .key _ => ∀ l ∈ held, l.depth ≤ 2
  | .row (.bucket _) .keyShare => ∀ l ∈ held, l.depth ≤ 4
  | .row (.bucket name) _ => (∀ l ∈ held, l.depth = 0) ∨ .row (.bucket name) .update ∈ held
  | .row (.object bucket key) _ => .key (hash bucket key) ∈ held
  | .row (.chunk fileId _) _ => Erasable hash held db fileId
  | .row (.upload id) mode =>
      (∀ l ∈ held, l.depth ≤ 1) ∨ .row (.upload id) .update ∈ held ∨
        (mode = .keyShare ∧ ∀ l ∈ held, l.depth = 0 ∨ l.depth = 6)
  | .row (.uploadKey _ _) _ => ∀ l ∈ held, l.depth ≤ 1
  | .row (.part id no) mode =>
      (∀ l ∈ held, l.depth = 0) ∨ .row (.part id no) .delete ∈ held ∨
        (mode = .delete ∧ .row (.upload id) .update ∈ held ∧
          db.uploadParts.find? (id, no) ≠ none)

/-- What goes with a lock for as long as it is held. -/
def Taken (hash : Text → Text → ℤ) (job : Job) (held : List Lock) (db : Db) : Lock → Prop
  | .row _ .present => False
  | .row (.object bucket key) _ => .key (hash bucket key) ∈ held
  | .row (.chunk fileId _) _ => Covered hash held db fileId
  | .row (.part id no) .delete => .row (.upload id) .update ∈ held ∨ job.part? = some (id, no)
  | .row (.part id no) .update => job.part? = some (id, no) ∧
      (db.uploadParts.find? (id, no) = none ∨ .row (.part id no) .delete ∈ held)
  | .row (.part _ _) _ => False
  | _ => True

/-- What an early reply says: it is the reply of the job run alone on the rows it met,
unless two first sends of one part have met. -/
def Refused (sha256 : Bytes → Bytes) (job : Job) (db : Db) (a : Outcome) : Prop :=
  job.serial sha256 db = (db, a) ∨ (job.part? ≠ none ∧ a = .failed .uniqueViolation)

/-- The terms between the store's transactions. -/
def terms (hash : Text → Text → ℤ) (sha256 : Bytes → Bytes) : Contract Db Lock Job Outcome where
  inv := Admissible
  rely := Rely hash
  asks job held db s needs takes :=
    (∀ l ∈ needs ++ takes, s.free l = true ∨ Asked hash held db l) ∧
      ∀ l ∈ takes, Taken hash job (held ++ takes) db l
  refuses := Refused sha256
  commits job held db db' a := Commits hash sha256 held db job a db'

section

variable {hash : Text → Text → ℤ} {held held' : List Lock} {db db' : Db}

theorem Rely.weaken (h : Rely hash held' db db') (hsub : held ⊆ held') : Rely hash held db db' where
  seq_le := h.seq_le
  bucket := fun name mode hmode hlock => h.bucket name mode hmode (hsub hlock)
  object := fun bucket key hlock => h.object bucket key (hsub hlock)
  upload := fun id mode hmode hlock => h.upload id mode hmode (hsub hlock)
  uploadKey := fun bucket key hlock => h.uploadKey bucket key (hsub hlock)
  part := fun id no mode hmode hlock => h.part id no mode hmode (hsub hlock)
  parts := fun id hlock => h.parts id (hsub hlock)
  vacant := fun name hlock => h.vacant name (hsub hlock)
  file := fun f hlock => h.file f (hsub hlock)
  grown := fun f hcov => h.grown f (hcov.weaken hsub)
  kept := fun f hfirm => h.kept f (hfirm.weaken hsub)

theorem Erasable.covered {f : ℤ} (h : Erasable hash held db f) : Covered hash held db f := by
  rcases h with h | ⟨h, _⟩
  · exact h.covered
  · exact h

theorem Erasable.mono {f : ℤ} (h : Erasable hash held db f) (hrely : Rely hash held db db') :
    Erasable hash held db' f := by
  rcases h with h | ⟨h, hdepth⟩
  · exact .inl (h.mono hrely)
  · exact .inr ⟨h.mono hrely, hdepth⟩

theorem Taken.mono {job : Job} {l : Lock} (h : Taken hash job held db l) (hl : l ∈ held)
    (hrely : Rely hash held db db') : Taken hash job held db' l := by
  match l, h with
  | .row (.object _ _) .keyShare, h | .row (.object _ _) .update, h => exact h
  | .row (.object _ _) .delete, h => exact h
  | .row (.chunk _ _) .keyShare, h | .row (.chunk _ _) .update, h => exact Covered.mono h hrely
  | .row (.chunk _ _) .delete, h => exact Covered.mono h hrely
  | .row (.part _ _) .delete, h => exact h
  | .row (.part id no) .update, ⟨hjob, h⟩ =>
      refine ⟨hjob, ?_⟩
      rcases h with h | h
      · exact .inl ((hrely.part id no .update (by decide) hl).trans h)
      · exact .inr h
  | .row (.bucket _) .keyShare, _ | .row (.bucket _) .update, _ => trivial
  | .row (.bucket _) .delete, _ => trivial
  | .row (.upload _) .keyShare, _ | .row (.upload _) .update, _ => trivial
  | .row (.upload _) .delete, _ => trivial
  | .row (.uploadKey _ _) .keyShare, _ | .row (.uploadKey _ _) .update, _ => trivial
  | .row (.uploadKey _ _) .delete, _ => trivial
  | .key _, _ | .file _, _ => trivial

theorem Taken.weaken {job : Job} {l : Lock} (h : Taken hash job held db l) (hsub : held ⊆ held') :
    Taken hash job held' db l := by
  match l, h with
  | .row (.object _ _) .keyShare, h | .row (.object _ _) .update, h => exact hsub h
  | .row (.object _ _) .delete, h => exact hsub h
  | .row (.chunk _ _) .keyShare, h | .row (.chunk _ _) .update, h => exact Covered.weaken h hsub
  | .row (.chunk _ _) .delete, h => exact Covered.weaken h hsub
  | .row (.part _ _) .delete, h => exact h.imp_left (hsub ·)
  | .row (.part _ _) .update, ⟨hjob, h⟩ => exact ⟨hjob, h.imp_right (hsub ·)⟩
  | .row (.bucket _) .keyShare, _ | .row (.bucket _) .update, _ => trivial
  | .row (.bucket _) .delete, _ => trivial
  | .row (.upload _) .keyShare, _ | .row (.upload _) .update, _ => trivial
  | .row (.upload _) .delete, _ => trivial
  | .row (.uploadKey _ _) .keyShare, _ | .row (.uploadKey _ _) .update, _ => trivial
  | .row (.uploadKey _ _) .delete, _ => trivial
  | .key _, _ | .file _, _ => trivial

end

/-! ## What a transaction sees -/

/-- The rows under a transaction's own writes. -/
def Db.after (db : Db) (ws : List Write) : Db := ws.foldl Db.write db

@[simp] theorem after_nil (db : Db) : db.after [] = db := rfl

theorem after_append (db : Db) (ws ws' : List Write) :
    db.after (ws ++ ws') = (db.after ws).after ws' :=
  List.foldl_append

@[simp] theorem after_cons (db : Db) (w : Write) (ws : List Write) :
    db.after (w :: ws) = (db.write w).after ws := rfl

inductive TableName where
  | buckets
  | objects
  | chunks
  | uploads
  | uploadParts
  deriving DecidableEq

def Slot.table : Slot → TableName
  | .bucket _ => .buckets
  | .object _ _ => .objects
  | .chunk _ _ => .chunks
  | .upload _ => .uploads
  | .uploadKey _ _ => .uploads
  | .part _ _ => .uploadParts

def Write.table : Write → TableName
  | .putBucket _ => .buckets
  | .putObject _ => .objects
  | .putUpload _ => .uploads
  | .putPart _ => .uploadParts
  | .copy _ => .chunks
  | .remove slot => slot.table

theorem write_buckets {db : Db} {w : Write} (h : w.table ≠ .buckets) :
    (db.write w).buckets = db.buckets := by
  match w, h with
  | .putObject _, _ | .putUpload _, _ | .putPart _, _ => rfl
  | .copy _, _ => simp only [Db.write]; split <;> rfl
  | .remove (.object _ _), _ | .remove (.chunk _ _), _ | .remove (.upload _), _ => rfl
  | .remove (.uploadKey _ _), _ | .remove (.part _ _), _ => rfl

theorem write_objects {db : Db} {w : Write} (h : w.table ≠ .objects) :
    (db.write w).objects = db.objects := by
  match w, h with
  | .putBucket _, _ | .putUpload _, _ | .putPart _, _ => rfl
  | .copy _, _ => simp only [Db.write]; split <;> rfl
  | .remove (.bucket _), _ | .remove (.chunk _ _), _ | .remove (.upload _), _ => rfl
  | .remove (.uploadKey _ _), _ | .remove (.part _ _), _ => rfl

theorem write_uploads {db : Db} {w : Write} (h : w.table ≠ .uploads) :
    (db.write w).uploads = db.uploads := by
  match w, h with
  | .putBucket _, _ | .putObject _, _ | .putPart _, _ => rfl
  | .copy _, _ => simp only [Db.write]; split <;> rfl
  | .remove (.bucket _), _ | .remove (.object _ _), _ | .remove (.chunk _ _), _ => rfl
  | .remove (.part _ _), _ => rfl

theorem write_uploadParts {db : Db} {w : Write} (h : w.table ≠ .uploadParts) :
    (db.write w).uploadParts = db.uploadParts := by
  match w, h with
  | .putBucket _, _ | .putObject _, _ | .putUpload _, _ => rfl
  | .copy _, _ => simp only [Db.write]; split <;> rfl
  | .remove (.bucket _), _ | .remove (.object _ _), _ | .remove (.chunk _ _), _ => rfl
  | .remove (.upload _), _ | .remove (.uploadKey _ _), _ => rfl

theorem write_fileSeq (db : Db) (w : Write) : (db.write w).fileSeq = db.fileSeq := by
  match w with
  | .putBucket _ | .putObject _ | .putUpload _ | .putPart _ => rfl
  | .copy _ => simp only [Db.write]; split <;> rfl
  | .remove (.bucket _) | .remove (.object _ _) | .remove (.chunk _ _) => rfl
  | .remove (.upload _) | .remove (.uploadKey _ _) | .remove (.part _ _) => rfl

theorem after_same {β : Type*} {db : Db} {ws : List Write} (get : Db → β)
    (h : ∀ w ∈ ws, ∀ db : Db, get (db.write w) = get db) : get (db.after ws) = get db := by
  induction ws generalizing db with
  | nil => rfl
  | cons w ws ih =>
      rw [after_cons, ih fun w' hw' => h w' (List.mem_cons_of_mem _ hw'), h w (List.mem_cons_self ..)]

theorem after_buckets {db : Db} {ws : List Write} (h : ∀ w ∈ ws, w.table ≠ .buckets) :
    (db.after ws).buckets = db.buckets :=
  after_same Db.buckets fun w hw _ => write_buckets (h w hw)

theorem after_objects {db : Db} {ws : List Write} (h : ∀ w ∈ ws, w.table ≠ .objects) :
    (db.after ws).objects = db.objects :=
  after_same Db.objects fun w hw _ => write_objects (h w hw)

theorem after_uploads {db : Db} {ws : List Write} (h : ∀ w ∈ ws, w.table ≠ .uploads) :
    (db.after ws).uploads = db.uploads :=
  after_same Db.uploads fun w hw _ => write_uploads (h w hw)

theorem after_uploadParts {db : Db} {ws : List Write} (h : ∀ w ∈ ws, w.table ≠ .uploadParts) :
    (db.after ws).uploadParts = db.uploadParts :=
  after_same Db.uploadParts fun w hw _ => write_uploadParts (h w hw)

theorem after_fileSeq (db : Db) (ws : List Write) : (db.after ws).fileSeq = db.fileSeq :=
  after_same Db.fileSeq fun w _ _ => write_fileSeq _ w

/-! ## Removing rows -/

def Db.without (db : Db) (slots : List Slot) : Db := db.after (slots.map .remove)

theorem deleteWhere_deleteWhere {α κ : Type*} {key : α → κ} (t : Table key) (p q : α → Bool) :
    (t.deleteWhere p).deleteWhere q = t.deleteWhere fun a => p a || q a := by
  apply Table.ext
  simp only [Table.deleteWhere, List.filter_filter]
  congr 1
  funext a
  cases p a <;> simp

theorem deleteWhere_congr {α κ : Type*} {key : α → κ} {t : Table key} {p q : α → Bool}
    (h : ∀ a ∈ t, p a = q a) : t.deleteWhere p = t.deleteWhere q := by
  apply Table.ext
  exact List.filter_congr fun a ha => by rw [h a ha]

@[simp] theorem without_nil (db : Db) : db.without [] = db := rfl

theorem without_cons (db : Db) (slot : Slot) (slots : List Slot) :
    db.without (slot :: slots) = (db.write (.remove slot)).without slots := rfl

theorem without_chunks (db : Db) (slots : List Slot) :
    (db.without slots).chunks =
      db.chunks.deleteWhere fun c => .chunk c.fileId c.no ∈ slots := by
  induction slots generalizing db with
  | nil => simp
  | cons slot slots ih =>
      rw [without_cons, ih]
      cases slot with
      | chunk fileId no =>
          simp only [Db.write, deleteWhere_deleteWhere]
          refine deleteWhere_congr fun c _ => ?_
          simp [ChunkRow.primaryKey, Bool.decide_or]
      | _ => exact deleteWhere_congr fun c _ => by simp

theorem without_uploads (db : Db) (slots : List Slot) :
    (db.without slots).uploads = db.uploads.deleteWhere fun u => .upload u.uploadId ∈ slots := by
  induction slots generalizing db with
  | nil => simp
  | cons slot slots ih =>
      rw [without_cons, ih]
      cases slot with
      | upload uploadId =>
          simp only [Db.write, deleteWhere_deleteWhere]
          refine deleteWhere_congr fun u _ => ?_
          simp [Bool.decide_or]
      | _ => exact deleteWhere_congr fun u _ => by simp

theorem without_uploadParts (db : Db) (slots : List Slot) :
    (db.without slots).uploadParts =
      db.uploadParts.deleteWhere fun p => .part p.uploadId p.partNo ∈ slots := by
  induction slots generalizing db with
  | nil => simp
  | cons slot slots ih =>
      rw [without_cons, ih]
      cases slot with
      | part uploadId partNo =>
          simp only [Db.write, deleteWhere_deleteWhere]
          refine deleteWhere_congr fun p _ => ?_
          simp [UploadPartRow.primaryKey, Bool.decide_or]
      | _ => exact deleteWhere_congr fun p _ => by simp

end Pgvs3
