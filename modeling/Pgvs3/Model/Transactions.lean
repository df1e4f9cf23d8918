import Pgvs3.Model.Operation
import Pgvs3.Library.Locking

/-! # Transactions, one statement at a time

The transactions of `db.rs` and `schema.sql` as PostgreSQL runs them under READ COMMITTED:
every statement sees what is committed when it runs, under the transaction's own writes.
A statement that would touch a locked row waits, and here it then looks again, as if it had
come later. A DELETE that has waited does not see a row put in meanwhile, and the INSERT after
it meets the unique key: that end is a `drop`. Foreign keys and cascades are statements of
their own. -/

namespace Pgvs3

open Library

/-- What a lock can be on: a row, present or being inserted, or an entry of the unique
index of `s3p.uploads` on `(bucket, key)`. -/
inductive Slot where
  | bucket (name : Text)
  | object (bucket key : Text)
  | chunk (fileId no : ℤ)
  | upload (uploadId : Text)
  | uploadKey (bucket key : Text)
  | part (uploadId : Text) (partNo : ℤ)
  deriving DecidableEq, Repr

/-- `FOR KEY SHARE`, `FOR UPDATE`, and the lock of a row that its holder has deleted.
`present` is never held: an INSERT waits in this mode when it finds a row, until nobody
is deleting it. A row being inserted is locked as `FOR UPDATE` locks it. -/
inductive LockMode where
  | present
  | keyShare
  | update
  | delete
  deriving DecidableEq, Repr

def LockMode.conflict : LockMode → LockMode → Bool
  | .present, .delete => true
  | .delete, .present => true
  | .present, _ => false
  | _, .present => false
  | .keyShare, .keyShare => false
  | _, _ => true

/-- A value of the sequence, which `nextval` gives to one caller only; an advisory lock;
a row lock. -/
inductive Lock where
  | file (fileId : ℤ)
  | key (hash : ℤ)
  | row (slot : Slot) (mode : LockMode)
  deriving DecidableEq, Repr

def Lock.conflict : Lock → Lock → Bool
  | .file f, .file f' => f = f'
  | .key h, .key h' => h = h'
  | .row slot mode, .row slot' mode' => slot = slot' && mode.conflict mode'
  | _, _ => false

theorem Lock.conflict_symm (l l' : Lock) : l.conflict l' = l'.conflict l := by
  cases l with
  | file f => cases l' <;> simp [Lock.conflict, eq_comm]
  | key h => cases l' <;> simp [Lock.conflict, eq_comm]
  | row slot mode =>
      cases l' with
      | file f => rfl
      | key h => rfl
      | row slot' mode' =>
          have hmode : mode.conflict mode' = mode'.conflict mode := by
            cases mode <;> cases mode' <;> rfl
          simp [Lock.conflict, eq_comm, hmode]

inductive Write where
  | putBucket (row : BucketRow)
  | putObject (row : ObjectRow)
  | putUpload (row : UploadRow)
  | putPart (row : UploadPartRow)
  | copy (rows : List ChunkRow)
  | remove (slot : Slot)
  deriving DecidableEq

def Db.write (db : Db) : Write → Db
  | .putBucket row => { db with buckets := db.buckets.upsert row }
  | .putObject row => { db with objects := db.objects.upsert row }
  | .putUpload row => { db with uploads := db.uploads.upsert row }
  | .putPart row => { db with uploadParts := db.uploadParts.upsert row }
  | .copy rows =>
      match db.chunks.insertAll? rows with
      | some chunks => { db with chunks := chunks }
      | none => db
  | .remove (.bucket name) =>
      { db with buckets := db.buckets.deleteWhere (fun b => b.name = name) }
  | .remove (.object bucket key) =>
      { db with objects := db.objects.deleteWhere (fun r => r.primaryKey = (bucket, key)) }
  | .remove (.chunk fileId no) =>
      { db with chunks := db.chunks.deleteWhere (fun c => c.primaryKey = (fileId, no)) }
  | .remove (.upload uploadId) =>
      { db with uploads := db.uploads.deleteWhere (fun u => u.uploadId = uploadId) }
  | .remove (.uploadKey _ _) => db
  | .remove (.part uploadId partNo) =>
      { db with
        uploadParts := db.uploadParts.deleteWhere (fun p => p.primaryKey = (uploadId, partNo)) }

/-- The upload of a key, which `UNIQUE (bucket, key)` makes one. -/
def uploadAt? (db : Db) (bucket key : Text) : Option UploadRow :=
  db.uploads.rows.find? (fun u => u.bucket = bucket ∧ u.key = key)

/-- There is a row to be seen at a slot. -/
def Db.holds (db : Db) : Slot → Bool
  | .bucket name => (db.buckets.find? name).isSome
  | .object bucket key => (db.objects.find? (bucket, key)).isSome
  | .chunk fileId no => (db.chunks.find? (fileId, no)).isSome
  | .upload uploadId => (db.uploads.find? uploadId).isSome
  | .uploadKey bucket key => (uploadAt? db bucket key).isSome
  | .part uploadId partNo => (db.uploadParts.find? (uploadId, partNo)).isSome

/-- The rest of a transaction. -/
abbrev Sql := Code Db Write Lock Outcome

namespace Sql

/-! ## Statements -/

def select (next : Db → Sql) : Sql :=
  .step (fun _ => []) (fun _ => []) (fun _ => []) fun s => next s.db

/-- `SELECT ... FOR KEY SHARE` or `FOR UPDATE` of one row. -/
def lockRow {ρ : Type} (slot : Slot) (mode : LockMode) (find : Db → Option ρ)
    (next : Option ρ → Sql) : Sql :=
  .step (fun _ => []) (fun s => if (find s.db).isSome then [.row slot mode] else [])
    (fun _ => []) fun s => next (find s.db)

/-- `DELETE` of one row, `RETURNING` it: the row that is there when nothing locks it. -/
def deleteRow {ρ : Type} (slot : Slot) (find : Db → Option ρ) (next : Option ρ → Sql) : Sql :=
  .step (fun _ => []) (fun s => if (find s.db).isSome then [.row slot .delete] else [])
    (fun s => if (find s.db).isSome then [.remove slot] else []) fun s => next (find s.db)

/-- The target that a scan visits next, unless another transaction has deleted it. -/
def visited (targets : List Slot) (s : Sight Db Lock) : List Slot :=
  (targets[s.pick % targets.length]?).toList.filter s.db.holds

/-- Delete the targets one after another, in any order, counting the rows. -/
def deleteEach : ℕ → List Slot → ℕ → (ℕ → Sql) → Sql
  | 0, _, count, next => next count
  | left + 1, targets, count, next =>
      .step (fun _ => []) (fun s => (visited targets s).map (Lock.row · .delete))
        (fun s => (visited targets s).map Write.remove)
        fun s => deleteEach left (targets.eraseIdx (s.pick % targets.length))
          (count + (visited targets s).length) next

/-- `DELETE` of the rows that the statement sees when it starts. -/
def deleteRows (rows : Db → List Slot) (next : ℕ → Sql) : Sql :=
  select fun db => deleteEach (rows db).length (rows db) 0 next

/-- `INSERT` of one row, told whether there was room for it. -/
def insertRow (slot : Slot) (write : Write) (next : Bool → Sql) : Sql :=
  .step (fun s => if s.db.holds slot then [.row slot .present] else [])
    (fun s => if s.db.holds slot then [] else [.row slot .update])
    (fun s => if s.db.holds slot then [] else [write]) fun s => next !s.db.holds slot

/-- The check of a foreign key after an INSERT. -/
def foreignKey {ρ : Type} (slot : Slot) (find : Db → Option ρ) (next : Sql) : Sql :=
  lockRow slot .keyShare find fun
    | some _ => next
    | none => .rollback (.failed .foreignKeyViolation)

def chunkSlots (p : ChunkRow → Bool) (db : Db) : List Slot :=
  (db.chunks.rows.filter p).map fun c => .chunk c.fileId c.no

def deleteChunks (p : ChunkRow → Bool) (next : ℕ → Sql) : Sql :=
  deleteRows (chunkSlots p) next

def partSlots (uploadId : Text) (db : Db) : List Slot :=
  (db.uploadParts.rows.filter (fun p => p.uploadId = uploadId)).map fun p =>
    .part p.uploadId p.partNo

/-- `DELETE FROM s3p.uploads`, and then its cascade. -/
def deleteUpload (uploadId : Text) (next : Sql) : Sql :=
  deleteRow (.upload uploadId) (fun db => db.uploads.find? uploadId) fun _ =>
    deleteRows (partSlots uploadId) fun _ => next

/-! ## Objects -/

def copyIn (stream : Bytes) (next : Sql) : Sql :=
  match copyDecode stream with
  | none => select fun _ => .rollback (.failed .badCopyFormat)
  | some rows =>
      .step (fun _ => []) (fun _ => []) (fun _ => [.copy rows]) fun s =>
        if (s.db.chunks.insertAll? rows).isSome then next
        else .rollback (.failed .uniqueViolation)

def lockObjectKey (hash : Text → Text → ℤ) (bucket key : Text) (next : Sql) : Sql :=
  .step (fun _ => []) (fun _ => [.key (hash bucket key)]) (fun _ => []) fun _ => next

def reap (fileId : ℤ) (parts : Option (List ℤ)) (next : Sql) : Sql :=
  deleteChunks (fun c => c.fileId ∈ parts.getD [] ++ [fileId]) fun _ => next

def fileTaken (db : Db) (row : ObjectRow) : Bool :=
  ∃ r ∈ db.objects.rows, r.fileId = row.fileId ∧ r.primaryKey ≠ row.primaryKey

/-- `INSERT INTO s3p.objects ... ON CONFLICT (bucket, key) DO UPDATE`. Only a new row has
its foreign key checked: an update leaves the bucket as it is. -/
def upsertObject (row : ObjectRow) (next : Sql) : Sql :=
  .step (fun _ => []) (fun _ => [.row (.object row.bucket row.key) .update])
    (fun s => if fileTaken s.db row then [] else [.putObject row]) fun s =>
      if fileTaken s.db row then .rollback (.failed .uniqueViolation)
      else if (s.db.objects.find? row.primaryKey).isSome then next
      else foreignKey (.bucket row.bucket) (fun db => db.buckets.find? row.bucket) next

def swapObject (hash : Text → Text → ℤ) (now : ℤ) (bucket key : Text) (write : ObjectWrite)
    (next : Sql) : Sql :=
  lockObjectKey hash bucket key <|
  lockRow (.object bucket key) .update (fun db => db.objects.find? (bucket, key)) fun old =>
  if write.condition.allows old then
    upsertObject (write.row now bucket key) <|
    match old with
    | some r => reap r.fileId r.parts next
    | none => next
  else .rollback (.failed .preconditionFailed)

def put (hash : Text → Text → ℤ) (sha256 : Bytes → Bytes) (now : ℤ) (bucket key : Text)
    (condition : PutCondition) (fileId : ℤ) (pushes : List Bytes) : Sql :=
  lockRow (.bucket bucket) .keyShare (fun db => db.buckets.find? bucket) fun
  | none => .rollback (.failed .bucketDoesNotExist)
  | some _ =>
      let (stream, total, sum) := copyStream sha256 fileId pushes
      copyIn stream <|
      swapObject hash now bucket key ⟨fileId, total, sum, none, condition⟩ <|
      .commit (.stored total sum)

def delete (hash : Text → Text → ℤ) (bucket key : Text) : Sql :=
  lockObjectKey hash bucket key <|
  deleteRow (.object bucket key) (fun db => db.objects.find? (bucket, key)) fun
  | some r => reap r.fileId r.parts <| .commit (.found true)
  | none => .commit (.found false)

/-! ## Buckets -/

/-- `create_bucket`. `ON CONFLICT DO NOTHING` decides the reply and has nothing to commit. -/
def createBucket (now : ℤ) (name : Text) : Sql :=
  insertRow (.bucket name) (.putBucket ⟨name, now⟩) fun inserted =>
    if inserted then .commit .ok else .rollback .ok

/-- `EXISTS (SELECT 1 FROM s3p.objects ...) OR EXISTS (SELECT 1 FROM s3p.uploads ...)`. -/
def occupied (db : Db) (name : Text) : Bool :=
  (∃ r ∈ db.objects.rows, r.bucket = name) ∨ ∃ u ∈ db.uploads.rows, u.bucket = name

/-- `delete_bucket`. The last SELECT is the check of the two foreign keys on the bucket. -/
def deleteBucket (name : Text) : Sql :=
  lockRow (.bucket name) .update (fun db => db.buckets.find? name) fun
  | none => .rollback (.bucketDeletion .notFound)
  | some _ =>
      select fun db =>
      if occupied db name then .rollback (.bucketDeletion .notEmpty)
      else
        deleteRow (.bucket name) (fun db => db.buckets.find? name) fun _ =>
        select fun db =>
        if occupied db name then .rollback (.failed .foreignKeyViolation)
        else .commit (.bucketDeletion .deleted)

/-! ## Multipart uploads -/

/-- `INSERT INTO s3p.uploads ... ON CONFLICT (bucket, key) DO UPDATE`, which locks the
upload it finds and leaves it as it is. -/
def insertUpload (row : UploadRow) (next : Text → Sql) : Sql :=
  .step
    (fun s =>
      match uploadAt? s.db row.bucket row.key with
      | some _ => []
      | none => if s.db.holds (.upload row.uploadId) then [.row (.upload row.uploadId) .present] else [])
    (fun s =>
      match uploadAt? s.db row.bucket row.key with
      | some up => [.row (.upload up.uploadId) .update]
      | none =>
          if s.db.holds (.upload row.uploadId) then []
          else [.row (.uploadKey row.bucket row.key) .update, .row (.upload row.uploadId) .update])
    (fun s =>
      if (uploadAt? s.db row.bucket row.key).isSome ∨ s.db.holds (.upload row.uploadId) then []
      else [.putUpload row])
    fun s =>
      match uploadAt? s.db row.bucket row.key with
      | some up => next up.uploadId
      | none =>
          if s.db.holds (.upload row.uploadId) then .rollback (.failed .uniqueViolation)
          else
            foreignKey (.bucket row.bucket) (fun db => db.buckets.find? row.bucket)
              (next row.uploadId)

def createUpload (now : ℤ) (uuid bucket key : Text) : Sql :=
  lockRow (.bucket bucket) .keyShare (fun db => db.buckets.find? bucket) fun
  | none => .rollback (.upload none)
  | some _ => insertUpload ⟨uuid, bucket, key, now⟩ fun id => .commit (.upload (some id))

def insertPart (part : UploadPartRow) (next : Sql) : Sql :=
  insertRow (.part part.uploadId part.partNo) (.putPart part) fun inserted =>
    if inserted then
      foreignKey (.upload part.uploadId) (fun db => db.uploads.find? part.uploadId) next
    else .rollback (.failed .uniqueViolation)

def commitPart (part : UploadPartRow) (next : Sql) : Sql :=
  deleteRow (.part part.uploadId part.partNo)
    (fun db => db.uploadParts.find? (part.uploadId, part.partNo)) fun
  | some old => deleteChunks (fun c => c.fileId = old.fileId) fun _ => insertPart part next
  | none => insertPart part next

def uploadPart (sha256 : Bytes → Bytes) (uploadId : Text) (partNo fileId : ℤ)
    (pushes : List Bytes) : Sql :=
  let (stream, total, sum) := copyStream sha256 fileId pushes
  copyIn stream <|
  commitPart ⟨uploadId, partNo, fileId, total, sum⟩ <|
  .commit (.stored total sum)

def completeUpload (hash : Text → Text → ℤ) (sha256 : Bytes → Bytes) (now : ℤ)
    (uploadId requestBucket requestKey : Text) (listed : List (ℤ × Text)) : Sql :=
  lockRow (.upload uploadId) .update (fun db => db.uploads.find? uploadId) fun
  | none => .rollback (.completed .noSuchUpload)
  | some up =>
      if up.bucket ≠ requestBucket ∨ up.key ≠ requestKey then
        .rollback (.completed .noSuchUpload)
      else
        select fun db =>
        let rows := recordedParts db uploadId
        let want := sortListed listed
        if want = [] ∨ want.length ≠ rows.length then .rollback (.completed .invalidPart)
        else
          match checkParts .start want rows with
          | none => .rollback (.completed .invalidPart)
          | some tally =>
              let etag := sha256 tally.hashed
              swapObject hash now up.bucket up.key
                ⟨tally.ids.headD 0, tally.size, etag, some (tally.ids, tally.ends), .unconditional⟩ <|
              deleteUpload uploadId <|
              .commit (.completed (.done up.bucket up.key etag tally.size))

def abortUpload (uploadId bucket key : Text) : Sql :=
  lockRow (.upload uploadId) .update
    (fun db => (db.uploads.find? uploadId).filter fun u => u.bucket = bucket ∧ u.key = key) fun
  | none => .rollback (.found false)
  | some _ =>
      select fun db =>
      let ids := (db.uploadParts.rows.filter (fun p => p.uploadId = uploadId)).map (·.fileId)
      deleteUpload uploadId <|
      deleteChunks (fun c => c.fileId ∈ ids) fun _ =>
      .commit (.found true)

/-! ## Expiry -/

/-- The oldest stale upload that nobody has locked. -/
def unlockedVictim? (s : Sight Db Lock) (now grace : ℤ) (bucket : Option Text) :
    Option UploadRow :=
  ((s.db.uploads.rows.filter fun u =>
    eligible now grace bucket u && s.free (.row (.upload u.uploadId) .update)).insertionSort
      olderUpload).head?

/-- `SELECT upload_id ... FOR UPDATE SKIP LOCKED`. -/
def lockVictim (now grace : ℤ) (bucket : Option Text) (next : Option UploadRow → Sql) : Sql :=
  .step (fun _ => [])
    (fun s => (unlockedVictim? s now grace bucket).toList.map fun u =>
      .row (.upload u.uploadId) .update)
    (fun _ => []) fun s => next (unlockedVictim? s now grace bucket)

def doomedSlots (fileId remaining : ℤ) (db : Db) : List Slot :=
  (doomedRows db fileId remaining).map (.chunk fileId)

/-- The loop of `s3p.expire_uploads`; the first argument counts the visits left. -/
def expireLoop (now grace maxRows : ℤ) (bucket : Option Text) : ℕ → ℤ → Sql
  | 0, removed => .commit (.expired removed)
  | visits + 1, removed =>
      lockVictim now grace bucket fun
      | none => .commit (.expired removed)
      | some up =>
          select fun db =>
          match (recordedParts db up.uploadId).head? with
          | none =>
              deleteUpload up.uploadId <| expireLoop now grace maxRows bucket visits removed
          | some part =>
              let remaining := maxRows - removed
              let proceed := fun removed : ℤ =>
                if removed = maxRows then Code.commit (.expired removed)
                else expireLoop now grace maxRows bucket visits removed
              deleteRows (doomedSlots part.fileId remaining) fun batchRemoved =>
              if (batchRemoved : ℤ) < remaining then
                deleteRow (.part part.uploadId part.partNo)
                  (fun db => db.uploadParts.find? part.primaryKey) fun _ =>
                select fun db =>
                if ∃ p ∈ db.uploadParts.rows, p.uploadId = part.uploadId then
                  proceed (removed + batchRemoved)
                else deleteUpload part.uploadId <| proceed (removed + batchRemoved)
              else proceed (removed + batchRemoved)

def expireUploads (now : ℤ) (budget : ExpiryBudget) : Sql :=
  select fun _ =>
  match budget.grace, budget.maxRows with
  | some grace, some maxRows =>
      if grace < 0 ∨ maxRows < 1 ∨ maxRows > 8192 then .rollback (.failed .invalidExpiryBudget)
      else expireLoop now grace maxRows budget.bucket 64 0
  | _, _ => .rollback (.failed .invalidExpiryBudget)

end Sql

/-! ## The store -/

/-- One transaction with its arguments, the clock it reads and the file id it has drawn. -/
inductive Job where
  | createBucket (now : ℤ) (name : Text)
  | deleteBucket (name : Text)
  | put (now : ℤ) (bucket key : Text) (condition : PutCondition) (fileId : ℤ)
      (pushes : List Bytes)
  | delete (bucket key : Text)
  | createUpload (now : ℤ) (uuid bucket key : Text)
  | uploadPart (now : ℤ) (uploadId : Text) (partNo fileId : ℤ) (pushes : List Bytes)
  | completeUpload (now : ℤ) (uploadId bucket key : Text) (listed : List (ℤ × Text))
  | abortUpload (uploadId bucket key : Text)
  | expireUploads (now : ℤ) (budget : ExpiryBudget)
  deriving DecidableEq

def Job.code (hash : Text → Text → ℤ) (sha256 : Bytes → Bytes) : Job → Sql
  | .createBucket now name => Sql.createBucket now name
  | .deleteBucket name => Sql.deleteBucket name
  | .put now bucket key condition fileId pushes =>
      Sql.put hash sha256 now bucket key condition fileId pushes
  | .delete bucket key => Sql.delete hash bucket key
  | .createUpload now uuid bucket key => Sql.createUpload now uuid bucket key
  | .uploadPart _ uploadId partNo fileId pushes =>
      Sql.uploadPart sha256 uploadId partNo fileId pushes
  | .completeUpload now uploadId bucket key listed =>
      Sql.completeUpload hash sha256 now uploadId bucket key listed
  | .abortUpload uploadId bucket key => Sql.abortUpload uploadId bucket key
  | .expireUploads now budget => Sql.expireUploads now budget

def Job.fileId? : Job → Option ℤ
  | .put _ _ _ _ fileId _ => some fileId
  | .uploadPart _ _ _ fileId _ => some fileId
  | _ => none

/-- `ChunkWriter::begin` draws the file id before the transaction, so no rollback gives
it back. -/
def Job.start (job : Job) (db : Db) : Option (Db × List Lock) :=
  match job.fileId? with
  | none => some (db, [])
  | some fileId =>
      match nextval db with
      | .error _ => none
      | .ok (drawn, db) => if drawn = fileId then some (db, [.file fileId]) else none

/-- The store under concurrent transactions; `hash` is PostgreSQL's
`hashtextextended($1, 0) # hashtextextended($2, 1)`. -/
def store (hash : Text → Text → ℤ) (sha256 : Bytes → Bytes) :
    Engine Db Write Lock Job Outcome where
  write := Db.write
  conflict := Lock.conflict
  conflict_symm := Lock.conflict_symm
  start := Job.start
  code := Job.code hash sha256

abbrev StoreWorld := World Db Write Lock Job Outcome

/-- A job run alone, from its first statement to its reply. -/
def Job.serial (sha256 : Bytes → Bytes) (db : Db) : Job → Db × Outcome
  | .createBucket now name => apply sha256 db (.createBucket now name)
  | .deleteBucket name => apply sha256 db (.deleteBucket name)
  | .put now bucket key condition fileId pushes =>
      match ingestWriter sha256 db now fileId (.object bucket key condition) pushes with
      | .error e => (db, .failed e)
      | .ok (db, total, sum) => (db, .stored total sum)
  | .delete bucket key => apply sha256 db (.delete bucket key)
  | .createUpload now uuid bucket key => apply sha256 db (.createUpload now uuid bucket key)
  | .uploadPart now uploadId partNo fileId pushes =>
      match ingestWriter sha256 db now fileId (.part uploadId partNo) pushes with
      | .error e => (db, .failed e)
      | .ok (db, total, sum) => (db, .stored total sum)
  | .completeUpload now uploadId bucket key listed =>
      apply sha256 db (.completeUpload now uploadId bucket key listed)
  | .abortUpload uploadId bucket key => apply sha256 db (.abortUpload uploadId bucket key)
  | .expireUploads now budget => apply sha256 db (.expireUploads now budget)

def Job.replay (sha256 : Bytes → Bytes) : Db → List Job → Db × List Outcome
  | db, [] => (db, [])
  | db, job :: jobs =>
      let (db, reply) := job.serial sha256 db
      let (db, replies) := Job.replay sha256 db jobs
      (db, reply :: replies)

end Pgvs3
