import Pgvs3.Model.Multipart
import Pgvs3.Library.Transition

/-! # The store as a state machine

Every transaction of the store is one operation. A run applies operations in any
order; `Ledger` adds to the database what its history has to remember. -/

namespace Pgvs3

open Library

/-- One transaction, with its arguments and the clock it reads. -/
inductive Op where
  | createBucket (now : ℤ) (name : Text)
  | deleteBucket (name : Text)
  | put (now : ℤ) (bucket key : Text) (condition : PutCondition) (pushes : List Bytes)
  | delete (bucket key : Text)
  | createUpload (now : ℤ) (uuid bucket key : Text)
  | uploadPart (now : ℤ) (uploadId : Text) (partNo : ℤ) (pushes : List Bytes)
  | completeUpload (now : ℤ) (uploadId bucket key : Text) (listed : List (ℤ × Text))
  | abortUpload (uploadId bucket key : Text)
  | expireUploads (now : ℤ) (budget : ExpiryBudget)
  /-- Any of these, failing at some statement; it may have drawn a file id. -/
  | rollback (drawn : Bool)
  deriving DecidableEq

inductive Outcome where
  | ok
  | bucketDeletion (d : BucketDeletion)
  | stored (size : ℤ) (sum : Bytes)
  | found (b : Bool)
  | upload (id : Option Text)
  | completed (c : Completed)
  | expired (rows : ℤ)
  | failed (e : DbError)
  | rolledBack
  deriving DecidableEq

/-- An ingest with the file id it draws first. -/
def ingest (sha256 : Bytes → Bytes) (db : Db) (now : ℤ) (target : WriterTarget)
    (pushes : List Bytes) : Db × Outcome :=
  match nextval db with
  | .error e => (db, .failed e)
  | .ok (fileId, db) =>
      match ingestWriter sha256 db now fileId target pushes with
      | .error e => (db, .failed e)
      | .ok (db, total, sum) => (db, .stored total sum)

def apply (sha256 : Bytes → Bytes) (db : Db) : Op → Db × Outcome
  | .createBucket now name => (createBucket db now name, .ok)
  | .deleteBucket name =>
      let (db, d) := deleteBucket db name
      (db, .bucketDeletion d)
  | .put now bucket key condition pushes =>
      ingest sha256 db now (.object bucket key condition) pushes
  | .delete bucket key =>
      let (db, found) := delete db bucket key
      (db, .found found)
  | .createUpload now uuid bucket key =>
      match createUpload db now uuid bucket key with
      | .error e => (db, .failed e)
      | .ok (db, id) => (db, .upload id)
  | .uploadPart now uploadId partNo pushes =>
      ingest sha256 db now (.part uploadId partNo) pushes
  | .completeUpload now uploadId bucket key listed =>
      match completeUpload sha256 db now uploadId bucket key listed with
      | .error e => (db, .failed e)
      | .ok (db, c) => (db, .completed c)
  | .abortUpload uploadId bucket key =>
      let (db, found) := abortUpload db uploadId bucket key
      (db, .found found)
  | .expireUploads now budget =>
      match expireUploads db now budget with
      | .error e => (db, .failed e)
      | .ok (db, rows) => (db, .expired rows)
  | .rollback drawn =>
      match drawn, nextval db with
      | true, .ok (_, db) => (db, .rolledBack)
      | _, _ => (db, .rolledBack)

def Step (sha256 : Bytes → Bytes) (db : Db) (op : Op) (db' : Db) : Prop :=
  (apply sha256 db op).1 = db'

def run (sha256 : Bytes → Bytes) : Db → List Op → Db :=
  List.foldl fun db op => (apply sha256 db op).1

theorem trace_iff_run {sha256 : Bytes → Bytes} {db db' : Db} {ops : List Op} :
    Trace (Step sha256) db ops db' ↔ run sha256 db ops = db' := by
  constructor
  · intro h
    induction h with
    | nil => rfl
    | cons hs _ ih =>
        subst hs
        exact ih
  · rintro rfl
    induction ops generalizing db with
    | nil => exact .nil _
    | cons op ops ih => exact .cons rfl ih

/-! ## History -/

/-- The database with two facts of its history: the body streamed under each file id,
and the files of recorded parts that an expiry has begun to delete. -/
structure Ledger where
  db : Db
  written : ℤ → Bytes
  reaped : List ℤ

def Ledger.empty : Ledger := ⟨Db.empty, fun _ => [], []⟩

/-- Files that still have a part record in `db'` but lost a chunk row since `db`. -/
def partlyReaped (db db' : Db) : List ℤ :=
  (db'.uploadParts.rows.map (·.fileId)).filter fun f =>
    db.chunks.rows.any fun c => c.fileId = f ∧ c ∉ db'.chunks.rows

def Op.body? : Op → Option Bytes
  | .put _ _ _ _ pushes => some pushes.flatten
  | .uploadPart _ _ _ pushes => some pushes.flatten
  | _ => none

def Ledger.apply (sha256 : Bytes → Bytes) (l : Ledger) (op : Op) : Ledger :=
  let db' := (Pgvs3.apply sha256 l.db op).1
  { db := db'
    written :=
      match op.body? with
      | some body => Function.update l.written (l.db.fileSeq + 1) body
      | none => l.written
    reaped :=
      match op with
      | .expireUploads _ _ => l.reaped ++ partlyReaped l.db db'
      | _ => l.reaped }

def Ledger.run (sha256 : Bytes → Bytes) : Ledger → List Op → Ledger :=
  List.foldl (Ledger.apply sha256)

def LedgerStep (sha256 : Bytes → Bytes) (l : Ledger) (op : Op) (l' : Ledger) : Prop :=
  l.apply sha256 op = l'

theorem trace_iff_ledger_run {sha256 : Bytes → Bytes} {l l' : Ledger} {ops : List Op} :
    Trace (LedgerStep sha256) l ops l' ↔ l.run sha256 ops = l' := by
  constructor
  · intro h
    induction h with
    | nil => rfl
    | cons hs _ ih =>
        subst hs
        exact ih
  · rintro rfl
    induction ops generalizing l with
    | nil => exact .nil _
    | cons op ops ih => exact .cons rfl ih

theorem LedgerStep.step {sha256 : Bytes → Bytes} {l l' : Ledger} {op : Op}
    (h : LedgerStep sha256 l op l') : Step sha256 l.db op l'.db := by
  subst h
  rfl

/-- Forgetting the history of a run leaves a run of the store. -/
theorem trace_db {sha256 : Bytes → Bytes} {l l' : Ledger} {ops : List Op}
    (h : Trace (LedgerStep sha256) l ops l') : Trace (Step sha256) l.db ops l'.db := by
  induction h with
  | nil => exact .nil _
  | cons hs _ ih => exact .cons hs.step ih

theorem ledger_run_db (sha256 : Bytes → Bytes) (l : Ledger) (ops : List Op) :
    (l.run sha256 ops).db = run sha256 l.db ops :=
  (trace_iff_run.mp (trace_db (trace_iff_ledger_run.mpr rfl))).symm

end Pgvs3
