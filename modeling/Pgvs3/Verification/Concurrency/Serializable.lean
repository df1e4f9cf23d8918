import Pgvs3.Verification.Concurrency.Versions
import Pgvs3.Verification.Concurrency.Conditions
import Pgvs3.Library.LockOrder

/-! # Writes to one key are serial

A phase of concurrent PUTs, DELETEs and Completes leaves the rows and gives the replies of
the same jobs run one after another, in the order in which they took the lock of the key. -/

namespace Pgvs3

open Library

variable {hash : Text → Text → ℤ} {sha256 : Bytes → Bytes} {db db' : Db} {job : Job}

/-! ## The serial run -/

/-- File ids are drawn outside of the transactions. -/
def Db.atSeq (db : Db) (n : ℤ) : Db := { db with fileSeq := n }

theorem upsertObject_atSeq (n : ℤ) (row : ObjectRow) :
    upsertObject (db.atSeq n) row = (upsertObject db row).map (·.atSeq n) := by
  have hbuckets : (db.atSeq n).buckets = db.buckets := rfl
  have hobjects : (db.atSeq n).objects = db.objects := rfl
  simp only [upsertObject, hbuckets, hobjects]
  by_cases hnone : db.buckets.find? row.bucket = none
  · rw [if_pos hnone, if_pos hnone]
    rfl
  · rw [if_neg hnone, if_neg hnone]
    by_cases htaken : ∃ r ∈ db.objects.rows, r.fileId = row.fileId ∧ r.primaryKey ≠ row.primaryKey
    · rw [if_pos htaken, if_pos htaken]
      rfl
    · rw [if_neg htaken, if_neg htaken]
      rfl

theorem swapObject_atSeq (n now : ℤ) (bucket key : Text) (write : ObjectWrite) :
    swapObject (db.atSeq n) now bucket key write =
      (swapObject db now bucket key write).map (·.atSeq n) := by
  have hobjects : (db.atSeq n).objects = db.objects := rfl
  simp only [swapObject, hobjects, upsertObject_atSeq]
  generalize db.objects.find? (bucket, key) = old
  cases write.condition.allows old with
  | false => rfl
  | true =>
      cases upsertObject db (write.row now bucket key) with
      | error e => rfl
      | ok db => cases old <;> rfl

theorem copyIn_atSeq (n : ℤ) (stream : Bytes) :
    copyIn (db.atSeq n) stream = (copyIn db stream).map (·.atSeq n) := by
  have hchunks : (db.atSeq n).chunks = db.chunks := rfl
  simp only [copyIn, hchunks]
  cases copyDecode stream with
  | none => rfl
  | some rows =>
      simp only
      cases db.chunks.insertAll? rows <;> rfl

theorem ingestWriter_atSeq (n now fileId : ℤ) (bucket key : Text) (condition : PutCondition)
    (pushes : List Bytes) :
    ingestWriter sha256 (db.atSeq n) now fileId (.object bucket key condition) pushes =
      (ingestWriter sha256 db now fileId (.object bucket key condition) pushes).map
        fun res => (res.1.atSeq n, res.2) := by
  have hbucket : (WriterTarget.object bucket key condition).bucketExists (db.atSeq n) =
    (WriterTarget.object bucket key condition).bucketExists db := rfl
  simp only [ingestWriter, hbucket, copyIn_atSeq]
  cases (WriterTarget.object bucket key condition).bucketExists db with
  | false => rfl
  | true =>
      cases copyIn db (copyStream sha256 fileId pushes).1 with
      | error e => rfl
      | ok db =>
          simp only [Except.map, publish, swapObject_atSeq]
          cases swapObject db now bucket key _ <;> rfl

theorem completeUpload_atSeq (n now : ℤ) (uploadId bucket key : Text) (listed : List (ℤ × Text)) :
    completeUpload sha256 (db.atSeq n) now uploadId bucket key listed =
      (completeUpload sha256 db now uploadId bucket key listed).map
        fun res => (res.1.atSeq n, res.2) := by
  have huploads : (db.atSeq n).uploads = db.uploads := rfl
  have hparts : recordedParts (db.atSeq n) uploadId = recordedParts db uploadId := rfl
  simp only [completeUpload, huploads, hparts]
  cases db.uploads.find? uploadId with
  | none => rfl
  | some up =>
      simp only
      by_cases hother : up.bucket ≠ bucket ∨ up.key ≠ key
      · rw [if_pos hother, if_pos hother]
        rfl
      · rw [if_neg hother, if_neg hother]
        generalize recordedParts db uploadId = rows
        by_cases hcount : sortListed listed = [] ∨ (sortListed listed).length ≠ rows.length
        · rw [if_pos hcount, if_pos hcount]
          rfl
        · rw [if_neg hcount, if_neg hcount]
          cases checkParts .start (sortListed listed) rows with
          | none => rfl
          | some tally =>
              simp only [swapObject_atSeq]
              cases swapObject db now up.bucket up.key _ <;> rfl

/-- What a write to a key does and replies does not depend on the sequence. -/
theorem serial_atSeq (n : ℤ) (hjob : job.target? ≠ none) :
    job.serial sha256 (db.atSeq n) =
      ((job.serial sha256 db).1.atSeq n, (job.serial sha256 db).2) := by
  cases job with
  | put now bucket key condition fileId pushes =>
      simp only [Job.serial, ingestWriter_atSeq]
      cases ingestWriter sha256 db now fileId (.object bucket key condition) pushes <;> rfl
  | delete bucket key =>
      have hobjects : (db.atSeq n).objects = db.objects := rfl
      simp only [Job.serial, apply, Pgvs3.delete, hobjects]
      generalize db.objects.find? (bucket, key) = old
      cases old <;> rfl
  | completeUpload now uploadId bucket key listed =>
      simp only [Job.serial, apply, completeUpload_atSeq]
      cases completeUpload sha256 db now uploadId bucket key listed <;> rfl
  | _ => exact (hjob rfl).elim

theorem replay_append (db : Db) (jobs : List Job) (job : Job) :
    Job.replay sha256 db (jobs ++ [job]) =
      ((job.serial sha256 (Job.replay sha256 db jobs).1).1,
        (Job.replay sha256 db jobs).2 ++ [(job.serial sha256 (Job.replay sha256 db jobs).1).2]) := by
  induction jobs generalizing db with
  | nil => rfl
  | cons j jobs ih => simp only [List.cons_append, Job.replay, ih]

/-- The replies of a phase, and the rows they have left, are those of its jobs run one after
another. -/
def Replays (sha256 : Bytes → Bytes) (db₀ : Db) (log₀ : List (Reply Db Job Outcome)) (db : Db)
    (log : List (Reply Db Job Outcome)) : Prop :=
  ∃ replies, log = log₀ ++ replies ∧
    Job.replay sha256 db₀ (replies.map (·.job)) = (db.atSeq db₀.fileSeq, replies.map (·.reply))

theorem Replays.reply {db₀ : Db} {log₀ log : List (Reply Db Job Outcome)}
    (h : Replays sha256 db₀ log₀ db log) (hjob : job.target? ≠ none) {a : Outcome}
    (hserial : job.serial sha256 db = (db', a)) (i : ℕ) :
    Replays sha256 db₀ log₀ db' (log ++ [⟨i, job, a, db⟩]) := by
  obtain ⟨replies, rfl, hreplay⟩ := h
  refine ⟨replies ++ [⟨i, job, a, db⟩], List.append_assoc .., ?_⟩
  simp only [List.map_append, List.map_cons, List.map_nil]
  rw [replay_append, hreplay, serial_atSeq _ hjob, hserial]

theorem replays_phase {past labels : List (Label Job)} {w₀ w : StoreWorld}
    (h₀ : StoreReaches hash sha256 past w₀) (hidle : ∀ s, s ∉ w₀.sessions)
    (h : Trace (store hash sha256).Step w₀ labels w)
    (hjobs : ∀ job, .begin job ∈ labels → job.target? ≠ none) :
    Replays sha256 w₀.db w₀.log w.db w.log := by
  refine World.committed_trace (terms_lawful hash sha256) (fun job => job.target? ≠ none)
    ?_ ?_ ?_ h₀.sound (fun s hs => (hidle s hs).elim) hjobs ⟨[], by simp, rfl⟩ h
  · rintro db log job db' held - hstart ⟨replies, hlog, hreplay⟩
    refine ⟨replies, hlog, ?_⟩
    rcases Job.start_cases hstart with ⟨-, rfl, -⟩ | ⟨-, -, -, -, rfl, -⟩
    · exact hreplay
    · exact hreplay
  · intro db log i job a hjob _ hrefused hreplays
    rcases hrefused with hserial | ⟨hpart, -⟩
    · exact hreplays.reply hjob hserial i
    · cases job <;> first | exact (hjob rfl).elim | exact (hpart rfl).elim
  · intro db log i job a held db' hjob hdb hcommit hreplays
    refine hreplays.reply hjob (hcommit.serial hdb ?_) i
    rintro now budget rfl
    exact hjob rfl

/-! ## The lock of the key -/

/-- The replies that depend on the version that a key has. -/
def Outcome.tellsVersion : Outcome → Prop
  | .stored _ _ => True
  | .found _ => True
  | .completed (.done _ _ _ _) => True
  | .failed .preconditionFailed => True
  | _ => False

section Guarded

variable {l : Lock} {held : List Lock}

theorem guarded_refusal {a : Outcome} (h : ¬ a.tellsVersion) :
    (Code.rollback a : Sql).Guarded l Outcome.tellsVersion held :=
  fun htells => (h htells).elim

theorem guarded_lockRow {ρ : Type} {slot : Slot} {mode : LockMode} {find : Db → Option ρ}
    {next : Option ρ → Sql} (h : ∀ found held, (next found).Guarded l Outcome.tellsVersion held) :
    (Sql.lockRow slot mode find next).Guarded l Outcome.tellsVersion held :=
  fun s => h (find s.db) _

theorem guarded_copyIn {stream : Bytes} {next : Sql}
    (h : ∀ held, next.Guarded l Outcome.tellsVersion held) :
    (Sql.copyIn stream next).Guarded l Outcome.tellsVersion held := by
  unfold Sql.copyIn
  cases copyDecode stream with
  | none => exact fun _ => guarded_refusal id
  | some rows =>
      intro s
      dsimp only
      split
      · exact h _
      · exact guarded_refusal id

theorem guarded_lockObjectKey {bucket key : Text} {next : Sql} :
    (Sql.lockObjectKey hash bucket key next).Guarded (.key (hash bucket key))
      Outcome.tellsVersion held :=
  fun _ => Code.guarded_of_mem (by simp) _

/-- Each of the three writes tells of the key's version only under the lock of the key. -/
theorem guarded_code {bucket key : Text} (hjob : job.target? = some (bucket, key))
    (held : List Lock) : (job.code hash sha256).Guarded (.key (hash bucket key))
      Outcome.tellsVersion held := by
  cases job with
  | put now bucket' key' condition fileId pushes =>
      obtain ⟨rfl, rfl⟩ := Prod.mk.inj (Option.some.inj hjob)
      rw [Job.code, Sql.put]
      refine guarded_lockRow fun found held => ?_
      cases found with
      | none => exact guarded_refusal id
      | some b => exact guarded_copyIn fun _ => guarded_lockObjectKey
  | delete bucket' key' =>
      obtain ⟨rfl, rfl⟩ := Prod.mk.inj (Option.some.inj hjob)
      exact guarded_lockObjectKey
  | completeUpload now uploadId bucket' key' listed =>
      obtain ⟨rfl, rfl⟩ := Prod.mk.inj (Option.some.inj hjob)
      rw [Job.code, Sql.completeUpload]
      refine guarded_lockRow fun found held => ?_
      cases found with
      | none => exact guarded_refusal id
      | some up =>
          dsimp only
          split
          · exact guarded_refusal id
          · rename_i hsame
            obtain ⟨rfl, rfl⟩ : up.bucket = bucket' ∧ up.key = key' := by
              simpa [not_or] using hsame
            intro s
            dsimp only
            split
            · exact guarded_refusal id
            · cases checkParts .start (sortListed listed) (recordedParts s.db uploadId) with
              | none => exact guarded_refusal id
              | some tally => exact guarded_lockObjectKey
  | _ => cases hjob

end Guarded

/-! ## All of it -/

/-- What a phase of concurrent writes, begun by the labels, comes to. -/
structure Serialized (hash : Text → Text → ℤ) (sha256 : Bytes → Bytes) (labels : List (Label Job))
    (w₀ w : StoreWorld) : Prop where
  /-- Replies and rows are those of the jobs run one after another, -/
  replays : Replays sha256 w₀.db w₀.log w.db w.log
  /-- in the order in which they took the lock of the key, -/
  ordered : ∀ bucket key, ((w.repliesUnder (.key (hash bucket key))).map Reply.id).Sublist
    (w.takers (.key (hash bucket key)))
  /-- as all did whose reply depends on its version. -/
  locked : ∀ r ∈ w.log, ∀ bucket key, r.job.target? = some (bucket, key) → r.reply.tellsVersion →
    (r.id, .key (hash bucket key)) ∈ w.granted
  matched : ∀ r ∈ w.log, ∀ now bucket key want fileId pushes size sum,
    r.job = .put now bucket key (.ifMatch want) fileId pushes → r.reply = .stored size sum →
      ∃ o, r.before.objects.find? (bucket, key) = some o ∧ hex o.etag = want
  created : ∀ bucket key xs r ys r' zs, w.log = xs ++ r :: ys ++ r' :: zs →
    Created bucket key r → Created bucket key r' → ∃ q ∈ ys, Removed bucket key q
  losers : ∀ now bucket key condition fileId pushes,
    .begin (.put now bucket key condition fileId pushes) ∈ labels →
      ∀ c ∈ w.db.chunks, c.fileId = fileId →
        ∃ o, w.db.objects.find? (bucket, key) = some o ∧ fileId ∈ o.files
  replaced : ∀ r ∈ w.log, ∀ o ∈ r.before.objects, o ∉ w.db.objects →
    ∀ c ∈ w.db.chunks, c.fileId ∉ o.files

/-- Concurrent PUTs, DELETEs and Completes come to what they come to one after another, in
the order in which they took the lock of their key. -/
theorem key_writes_serializable {past labels : List (Label Job)} {w₀ w : StoreWorld}
    (h₀ : StoreReaches hash sha256 past w₀) (hidle : ∀ s, s ∉ w₀.sessions)
    (h : Trace (store hash sha256).Step w₀ labels w)
    (hjobs : ∀ job, .begin job ∈ labels → job.target? ≠ none) :
    Serialized hash sha256 labels w₀ w := by
  have hall : StoreReaches hash sha256 (past ++ labels) w := Trace.append h₀ h
  have hkey : ∀ n, (store hash sha256).conflict (.key n) (.key n) = true := fun n => by
    simp [store, Lock.conflict]
  exact {
    replays := replays_phase h₀ hidle h hjobs
    ordered := fun bucket key => World.replies_follow_grants (hkey _) hall
    locked := fun r hr bucket key hjob htells =>
      World.replies_guarded (fun held => guarded_code hjob held) hall r hr rfl htells
    matched := fun r hr now bucket key want fileId pushes size sum hjob hreply =>
      allows_ifMatch (hall.put_allowed hr hjob hreply)
    created := fun bucket key xs r ys r' zs hlog hr hr' => hall.removed_between hlog hr hr'
    losers := fun now bucket key condition fileId pushes hbegin c hc hf =>
      hall.put_rows (List.mem_append_right _ hbegin) hc hf
    replaced := fun r hr o ho hgone => hall.gone_rowless hr ho hgone }

/-- Two creations and a deletion of one key. The second creation takes the lock first. -/
def createRace : List (Label Job) :=
  [.begin (.put 1 ['b'] ['k'] .ifAbsent 1 [[7]]), .begin (.put 2 ['b'] ['k'] .ifAbsent 2 [[8]]),
    .begin (.delete ['b'] ['k']), .run 1 0, .run 2 0, .run 1 0, .run 2 0, .run 2 0, .run 2 0,
    .run 2 0, .run 2 0, .run 2 0, .run 1 0, .run 1 0, .run 1 0, .run 3 0, .run 3 0, .run 3 0,
    .run 3 0, .run 3 0]

theorem key_writes_serializable_createRace :
    ∃ w₀ w, StoreReaches (fun _ _ => 0) id [.begin (.createBucket 0 ['b']), .run 0 0, .run 0 0] w₀ ∧
      Serialized (fun _ _ => 0) id createRace w₀ w ∧
      w.log.map (·.reply) = [.ok, .stored 1 [8], .failed .preconditionFailed, .found true] := by
  have hrun : ((World.idle Db.empty : StoreWorld).runs (store (fun _ _ => 0) id)
      [.begin (.createBucket 0 ['b']), .run 0 0, .run 0 0]).any (fun w₀ =>
        w₀.sessions.rows.isEmpty && (w₀.runs (store (fun _ _ => 0) id) createRace).any fun w =>
          w.log.map (·.reply) = [.ok, .stored 1 [8], .failed .preconditionFailed, .found true]) =
      true := by
    decide +kernel
  obtain ⟨w₀, hw₀, hphase⟩ := (Option.any_eq_true _ _).mp hrun
  obtain ⟨hidle, hphase⟩ := (Bool.and_eq_true _ _).mp hphase
  obtain ⟨w, hw, hlog⟩ := (Option.any_eq_true _ _).mp hphase
  have hnobody : ∀ s, s ∉ w₀.sessions := by
    intro s hs
    rw [Table.mem_def, List.isEmpty_iff.mp hidle] at hs
    cases hs
  exact ⟨w₀, w, World.trace_of_runs hw₀,
    key_writes_serializable (World.trace_of_runs hw₀) hnobody (World.trace_of_runs hw)
      (by simp [createRace, Job.target?]), of_decide_eq_true hlog⟩

end Pgvs3
