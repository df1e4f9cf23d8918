import Pgvs3.Verification.Refinement.Audit

/-! # The bodies of the files

The body of a file is the one acknowledged for it. Its chunk rows hold nothing else, and while
no expiry runs they hold all of it: the object store can be read off the rows. -/

namespace Pgvs3

open Library

variable {hash : Text → Text → ℤ} {sha256 : Bytes → Bytes} {held : List Lock} {db db' : Db}
  {written : ℤ → Bytes} {job : Job} {a : Outcome}

/-- The bodies of the files of acknowledged ingests. -/
def bodies (log : List (Reply Db Job Outcome)) : ℤ → Bytes :=
  log.foldl (fun written r => r.job.record r.reply written) fun _ => []

theorem bodies_append (log : List (Reply Db Job Outcome)) (r : Reply Db Job Outcome) :
    bodies (log ++ [r]) = r.job.record r.reply (bodies log) := by
  simp [bodies]

theorem record_of_refuses {job : Job} {a : Outcome} {written : ℤ → Bytes}
    (h : (storePattern job).refuses a) : job.record a written = written := by
  cases hfile : job.fileId? with
  | none =>
      have hingest : job.ingest? = none := by cases job <;> first | rfl | cases hfile
      simp [Job.record, hingest]
  | some f =>
      obtain ⟨e, rfl⟩ := h (by simp [hfile])
      cases hingest : job.ingest? <;> simp [Job.record, hingest]

/-! ## No row holds anything else -/

/-- Every chunk row is a row of the body of its file, and the rows of a body have distinct
numbers. -/
structure Genuine (written : ℤ → Bytes) (db : Db) : Prop where
  distinct : ∀ f, DistinctRows (written f)
  rows : ∀ c ∈ db.chunks, c ∈ rowsOf c.fileId (written c.fileId)

theorem genuine_empty : Genuine (fun _ => []) Db.empty where
  distinct := fun _ => by simp [DistinctRows, blockCount, rowBytes]
  rows := by simp [Db.empty]

theorem Genuine.grow (h : Genuine written db) {f : ℤ} {body : Bytes} {dead : List ℤ}
    {chunks : Table ChunkRow.primaryKey} (hunused : Unused db f)
    (hrows : db.chunks.insertAll? (rowsOf f body) = some chunks)
    (hchunks : db'.chunks = chunks.deleteWhere fun c => c.fileId ∈ dead) :
    Genuine (Function.update written f body) db' where
  distinct g := by
    by_cases hg : g = f
    · rw [hg, Function.update_self]
      exact distinct_of_nodup (Table.insertAll?_eq_some_iff.mp hrows).1
    · rw [Function.update_of_ne hg]
      exact h.distinct g
  rows c hc := by
    rw [hchunks, Table.mem_deleteWhere, Table.mem_insertAll? hrows] at hc
    rcases hc.1 with hc | hc
    · rw [Function.update_of_ne (hunused.rowless c hc)]
      exact h.rows c hc
    · rwa [fileId_of_mem_rowsOf hc, Function.update_self]

theorem Commits.genuine (hdb : Admissible db) (hc : Commits hash sha256 held db job a db')
    (h : Genuine written db) : Genuine (job.record a written) db' := by
  by_cases hingest : job.ingest? = none
  · obtain ⟨op, hbody, hchange, -⟩ := hc.change hdb hingest
    have hsame : job.record a written = written := by simp [Job.record, hingest]
    rw [hsame]
    refine ⟨h.distinct, fun c hmem => ?_⟩
    rcases hchange.mem_chunks hmem with hmem | ⟨body', hbody', -⟩
    · exact h.rows c hmem
    · rw [hbody] at hbody'
      cases hbody'
  · cases hc with
    | put _ _ _ hunused _ _ hrows => exact h.grow hunused hrows rfl
    | uploadPart _ _ _ hunused _ hrows => exact h.grow hunused hrows rfl
    | _ => simp [Job.ingest?] at hingest

theorem StoreReaches.genuine {labels : List (Label Job)} {w : StoreWorld}
    (h : StoreReaches hash sha256 labels w) : Genuine (bodies w.log) w.db := by
  refine World.audited_trace (P := fun db log => Genuine (bodies log) db)
    (terms_lawful hash sha256) storeAudit_lawful (fun _ => True) ?_ ?_ ?_
    (World.sound_idle admissible_empty) (World.audited_idle _) (fun _ _ => trivial)
    (fun _ _ => trivial) genuine_empty h
  · intro db log job db' held _ hstart hgenuine
    rcases Job.start_cases hstart with ⟨-, rfl, -⟩ | ⟨-, -, -, -, rfl, -⟩
    · exact hgenuine
    · exact ⟨hgenuine.distinct, hgenuine.rows⟩
  · intro db log i job held ws a _ _ _ hrefuses _ hgenuine
    rwa [bodies_append, record_of_refuses hrefuses]
  · intro db log i job held ws a _ hdb hcommit _ _ hgenuine
    rw [bodies_append]
    exact Commits.genuine hdb hcommit hgenuine

/-! ## Owned files are whole -/

/-- Every owned file holds its body. -/
def FilesHold (written : ℤ → Bytes) (db : Db) : Prop :=
  ∀ f ∈ ownedFiles db, FileIs db f (written f)

/-- A log in which the body of every owned file was acknowledged. -/
def acknowledgedLog (sha256 : Bytes → Bytes) (written : ℤ → Bytes) (db : Db) :
    List (Reply Db Job Outcome) :=
  (ownedFiles db).map fun f =>
    ⟨0, .uploadPart 0 [] 0 f [written f], .stored (written f).length (sha256 (written f)), db⟩

theorem ingested_acknowledgedLog {f : ℤ} {body : Bytes}
    (h : Ingested sha256 (acknowledgedLog sha256 written db) f body) :
    f ∈ ownedFiles db ∧ body = written f := by
  obtain ⟨r, hr, hjob, -⟩ := h
  obtain ⟨g, hg, rfl⟩ := List.mem_map.mp hr
  simp only [Job.ingest?, Option.some.injEq, Prod.mk.injEq] at hjob
  obtain ⟨rfl, rfl⟩ := hjob
  exact ⟨hg, by simp⟩

theorem FilesHold.whole (h : FilesHold written db) :
    Whole sha256 db (acknowledgedLog sha256 written db) := by
  intro f hf
  exact ⟨written f, ⟨_, List.mem_map.mpr ⟨f, hf, rfl⟩, by simp [Job.ingest?], rfl⟩, h f hf⟩

theorem Commits.unused {job : Job} {a : Outcome} (hc : Commits hash sha256 held db job a db')
    {f : ℤ} {body : Bytes} (hjob : job.ingest? = some (f, body)) : Unused db f := by
  cases hc with
  | put _ _ _ hunused | uploadPart _ _ _ hunused =>
      simp only [Job.ingest?, Option.some.injEq, Prod.mk.injEq] at hjob
      exact hjob.1 ▸ hunused
  | _ => cases hjob

theorem Commits.record_owned {job : Job} {a : Outcome} (hc : Commits hash sha256 held db job a db')
    {f : ℤ} (hf : f ∈ ownedFiles db) : job.record a written f = written f := by
  cases hingest : job.ingest? with
  | none => simp [Job.record, hingest]
  | some file =>
      obtain ⟨g, body⟩ := file
      cases a with
      | stored size sum =>
          simpa [Job.record, hingest] using update_of_unused (hc.unused hingest) body f hf
      | _ => simp [Job.record, hingest]

/-- A commit other than an expiry keeps the bodies of the files and adds its own. -/
theorem Commits.filesHold {job : Job} {a : Outcome} (hdb : Admissible db)
    (hc : Commits hash sha256 held db job a db')
    (hjob : ∀ now budget, job ≠ .expireUploads now budget) (h : FilesHold written db) :
    FilesHold (job.record a written) db' := by
  intro f hf
  obtain ⟨body, ⟨r, hr, hingest, hreply⟩, hfile⟩ := Commits.whole hdb hc hjob 0 h.whole f hf
  have hbody : body = job.record a written f := by
    rcases List.mem_append.mp hr with hr | hr
    · obtain ⟨hold, rfl⟩ := ingested_acknowledgedLog ⟨r, hr, hingest, hreply⟩
      exact (hc.record_owned hold).symm
    · obtain rfl := List.mem_singleton.mp hr
      have hjob : job.ingest? = some (f, body) := hingest
      have hreply : a = .stored body.length (sha256 body) := hreply
      simp [Job.record, hjob, hreply]
  exact hbody ▸ hfile

theorem StoreReaches.filesHold {labels : List (Label Job)} {w : StoreWorld}
    (h : StoreReaches hash sha256 labels w)
    (hexpire : ∀ now budget, .begin (.expireUploads now budget) ∉ labels) :
    FilesHold (bodies w.log) w.db := by
  refine World.audited_trace (P := fun db log => FilesHold (bodies log) db)
    (terms_lawful hash sha256) storeAudit_lawful
    (fun job => ∀ now budget, job ≠ .expireUploads now budget) ?_ ?_ ?_
    (World.sound_idle admissible_empty) (World.audited_idle _)
    (fun s hs => (Table.not_mem_empty s hs).elim) ?_ ?_ h
  · intro db log job db' held _ hstart hfiles
    rcases Job.start_cases hstart with ⟨_, rfl, _⟩ | ⟨_, _, _, _, rfl, _⟩
    · exact hfiles
    · exact hfiles
  · intro db log i job held ws a _ _ _ hrefuses _ hfiles
    rw [bodies_append, record_of_refuses hrefuses]
    exact hfiles
  · intro db log i job held ws a hjob hdb hcommit _ _ hfiles
    rw [bodies_append]
    exact hcommit.filesHold hdb hjob hfiles
  · rintro job hbegin now budget rfl
    exact hexpire now budget hbegin
  · simp [FilesHold, World.idle, ownedFiles, Db.empty, Table.empty]

/-! ## Reading the rows -/

/-- The bytes that the chunk rows of a file make up, in the order of their numbers. From row
`2 ^ 31` on the numbers are negative. -/
def Db.bytesOf (db : Db) (f : ℤ) : Bytes :=
  (sortByKey (fun c => c.no % 2 ^ 32) (db.chunks.rows.filter fun c => c.fileId = f)).flatMap
    (·.data)

/-- The object store that the rows make up. -/
def contentsOf (db : Db) : ObjectStore := db.contents db.bytesOf

theorem rowsOf_increasing {f : ℤ} {body : Bytes} (h : DistinctRows body) :
    (rowsOf f body).Pairwise fun c d => c.no % 2 ^ 32 < d.no % 2 ^ 32 := by
  rw [rowsOf, rowsFrom, List.pairwise_map]
  refine List.pairwise_lt_range.imp_of_mem fun {i j} hi hj hij => ?_
  rw [List.mem_range] at hi hj
  unfold DistinctRows at h
  have hmod : ∀ n : ℕ, n < 2 ^ 32 → asI32 n % 2 ^ 32 = n := by
    intro n hn
    simp only [asI32]
    exact (Int.bmod_emod ..).trans (Int.emod_eq_of_lt (by omega) (by omega))
  simp only [Nat.zero_add]
  rw [hmod i (by omega), hmod j (by omega)]
  exact_mod_cast hij

theorem flatMap_rowsOf (f : ℤ) (body : Bytes) : (rowsOf f body).flatMap (·.data) = body := by
  rw [rowsOf, rowsFrom, List.flatMap_map]
  exact flatMap_block rowBytes_pos body

theorem FileIs.bytesOf {f : ℤ} {body : Bytes} (h : FileIs db f body) (hdistinct : DistinctRows body) :
    db.bytesOf f = body := by
  have hperm : (db.chunks.rows.filter fun c => c.fileId = f).Perm (rowsOf f body) := by
    refine (List.perm_ext_iff_of_nodup (db.chunks.nodup.of_map.filter _)
      (nodup_of_distinct hdistinct).of_map).mpr fun c => ?_
    rw [List.mem_filter, decide_eq_true_eq]
    constructor
    · rintro ⟨hc, hf⟩
      exact (h c hf).mp hc
    · intro hc
      have hf := fileId_of_mem_rowsOf hc
      exact ⟨(h c hf).mpr hc, hf⟩
  rw [Db.bytesOf, sortByKey_eq_of_perm hperm (rowsOf_increasing hdistinct), flatMap_rowsOf]

/-- While no expiry has begun, the rows make up the object store of the acknowledged bodies. -/
theorem StoreReaches.contentsOf_eq {labels : List (Label Job)} {w : StoreWorld}
    (h : StoreReaches hash sha256 labels w)
    (hexpire : ∀ now budget, .begin (.expireUploads now budget) ∉ labels) :
    contentsOf w.db = w.db.contents (bodies w.log) :=
  contents_congr fun f hf => (h.filesHold hexpire f hf).bytesOf (h.genuine.distinct f)

end Pgvs3
