import Pgvs3.Verification.Concurrency.Interleaving
import Pgvs3.Verification.Read.GetBody

/-! # The files of concurrent ingests

Without an expiry no row of an owned file is ever lost: every owned file holds, row for
row, the body of the ingest that was acknowledged for it. -/

namespace Pgvs3

open Library

variable {hash : Text → Text → ℤ} {sha256 : Bytes → Bytes} {held : List Lock} {db db' : Db}
  {log : List (Reply Db Job Outcome)}

def Job.ingest? : Job → Option (ℤ × Bytes)
  | .put _ _ _ _ fileId pushes => some (fileId, pushes.flatten)
  | .uploadPart _ _ _ fileId pushes => some (fileId, pushes.flatten)
  | _ => none

/-- An ingest of `body` under file id `f` was acknowledged. -/
def Ingested (sha256 : Bytes → Bytes) (log : List (Reply Db Job Outcome)) (f : ℤ) (body : Bytes) :
    Prop :=
  ∃ r ∈ log, r.job.ingest? = some (f, body) ∧ r.reply = .stored body.length (sha256 body)

/-- Every owned file holds the body of an acknowledged ingest. -/
def Whole (sha256 : Bytes → Bytes) (db : Db) (log : List (Reply Db Job Outcome)) : Prop :=
  ∀ f ∈ ownedFiles db, ∃ body, Ingested sha256 log f body ∧ FileIs db f body

theorem Ingested.append {f : ℤ} {body : Bytes} (h : Ingested sha256 log f body)
    (r : Reply Db Job Outcome) : Ingested sha256 (log ++ [r]) f body := by
  obtain ⟨q, hq, hjob, hreply⟩ := h
  exact ⟨q, List.mem_append_left _ hq, hjob, hreply⟩

/-! ## One commit -/

theorem Whole.grow (h : Whole sha256 db log) {f : ℤ} {body : Bytes} (hunused : Unused db f)
    {dead : List ℤ} {chunks : Table ChunkRow.primaryKey}
    (hrows : db.chunks.insertAll? (rowsOf f body) = some chunks)
    (hchunks : db'.chunks = chunks.deleteWhere fun c => c.fileId ∈ dead)
    (hdead : ∀ g ∈ dead, g ∈ ownedFiles db)
    (howned : ∀ g ∈ ownedFiles db', g = f ∨ (g ∈ ownedFiles db ∧ g ∉ dead))
    {r : Reply Db Job Outcome} (hjob : r.job.ingest? = some (f, body))
    (hreply : r.reply = .stored body.length (sha256 body)) : Whole sha256 db' (log ++ [r]) := by
  have hmem : ∀ c : ChunkRow, c ∈ db'.chunks ↔
      (c ∈ db.chunks ∨ c ∈ rowsOf f body) ∧ c.fileId ∉ dead := by
    intro c
    rw [hchunks, Table.mem_deleteWhere, Table.mem_insertAll? hrows, decide_eq_false_iff_not]
  intro g hg
  rcases howned g hg with rfl | ⟨hold, hlive⟩
  · refine ⟨body, ⟨r, by simp, hjob, hreply⟩, fun c hc => ?_⟩
    rw [hmem]
    constructor
    · rintro ⟨hc' | hc', _⟩
      · exact (hunused.rowless c hc' hc).elim
      · exact hc'
    · intro hc'
      exact ⟨.inr hc', fun hmem => hunused.unowned (hdead _ (hc ▸ hmem))⟩
  · obtain ⟨body', hingested, hfile⟩ := h g hold
    refine ⟨body', hingested.append r, fun c hc => ?_⟩
    rw [hmem, ← hfile c hc]
    constructor
    · rintro ⟨hc' | hc', _⟩
      · exact hc'
      · have heq : g = f := hc.symm.trans (fileId_of_mem_rowsOf hc')
        exact (hunused.unowned (heq ▸ hold)).elim
    · exact fun hc' => ⟨.inl hc', hc ▸ hlive⟩

/-- A commit that is no ingest is a change of the store. -/
theorem Commits.change {job : Job} {a : Outcome} (hdb : Admissible db)
    (hc : Commits hash sha256 held db job a db') (hingest : job.ingest? = none) :
    ∃ op, op.body? = none ∧ Change sha256 db op db' ∧
      ((∀ now budget, job ≠ .expireUploads now budget) →
        ∀ now budget, op ≠ .expireUploads now budget) := by
  cases hc with
  | createBucket => exact ⟨.rollback false, rfl, .still rfl rfl rfl le_rfl, by simp⟩
  | deleteBucket => exact ⟨.rollback false, rfl, .still rfl rfl rfl le_rfl, by simp⟩
  | put => simp [Job.ingest?] at hingest
  | delete _ hold => exact ⟨_, rfl, .delete hold, by simp⟩
  | deleteNone => exact ⟨.rollback false, rfl, .still rfl rfl rfl le_rfl, by simp⟩
  | createUpload => exact ⟨.rollback false, rfl, .still rfl rfl rfl le_rfl, by simp⟩
  | reattach => exact ⟨.rollback false, rfl, .still rfl rfl rfl le_rfl, by simp⟩
  | uploadPart => simp [Job.ingest?] at hingest
  | @completeUpload now uploadId bucket key listed _ _ _ haccept =>
      exact ⟨.completeUpload now uploadId bucket key listed, rfl,
        .complete haccept (haccept.fits hdb), by simp⟩
  | abortUpload _ _ hat => exact ⟨_, rfl, .abort hat, by simp⟩
  | @expireUploads now _ budget _ hexpires =>
      exact ⟨.expireUploads now budget, rfl, .expire hexpires, fun h => (h now budget rfl).elim⟩

theorem Commits.whole {job : Job} {a : Outcome} (hdb : Admissible db)
    (hc : Commits hash sha256 held db job a db')
    (hjob : ∀ now budget, job ≠ .expireUploads now budget) (i : ℕ) (h : Whole sha256 db log) :
    Whole sha256 db' (log ++ [⟨i, job, a, db⟩]) := by
  by_cases hingest : job.ingest? = none
  · obtain ⟨op, hbody, hchange, hop⟩ := hc.change hdb hingest
    intro f hf
    have hle : f ≤ db.fileSeq := by
      by_contra hnew
      obtain ⟨_, body, hbody', _⟩ := hchange.new_file hdb.owned hf (not_le.mp hnew)
      rw [hbody] at hbody'
      cases hbody'
    obtain ⟨hold, hkeep⟩ := hchange.keeps hdb.owned hf hle
    obtain ⟨body, hingested, hfile⟩ := h f hold
    refine ⟨body, hingested.append _, fun c hc => ?_⟩
    rw [← hfile c hc]
    constructor
    · intro hmem
      rcases hchange.mem_chunks hmem with hmem | ⟨body', hbody', _⟩
      · exact hmem
      · rw [hbody] at hbody'
        cases hbody'
    · intro hmem
      by_contra hlost
      obtain ⟨_, ⟨now, budget, heq⟩, _⟩ := hkeep c hmem hc hlost
      exact hop hjob now budget heq
  · cases hc with
    | @put now fileId bucket key condition pushes chunks _ _ _ hunused _ _ hrows =>
        refine h.grow hunused hrows rfl ?_ ?_ rfl rfl
        · intro g hg
          obtain ⟨r, hr, _, hf⟩ := hdb.owned.mem_dead_iff.mp hg
          exact mem_ownedFiles.mpr (.inl ⟨r, hr, hf⟩)
        · intro g hg
          rcases mem_ownedFiles.mp hg with ⟨r, hr, hf⟩ | ⟨p, hp, hf⟩
          · rcases Table.mem_upsert.mp hr with ⟨hr, hk⟩ | rfl
            · refine .inr ⟨mem_ownedFiles.mpr (.inl ⟨r, hr, hf⟩), ?_⟩
              rw [hdb.owned.mem_dead_iff]
              rintro ⟨q, hq, hqk, hfq⟩
              exact hk (hdb.owned.object_unique hr hq hf hfq ▸ hqk)
            · exact .inl (List.mem_singleton.mp hf)
          · refine .inr ⟨mem_ownedFiles.mpr (.inr ⟨p, hp, hf⟩), ?_⟩
            rw [hdb.owned.mem_dead_iff]
            rintro ⟨q, hq, _, hfq⟩
            exact hdb.owned.object_part_disjoint hq hp (hf ▸ hfq)
    | @uploadPart now partNo fileId uploadId pushes chunks _ _ _ hunused _ hrows =>
        have hold : ∀ g, g ∈ ((db.uploadParts.find? (uploadId, partNo)).map (·.fileId)).toList →
            ∃ p ∈ db.uploadParts, p.primaryKey = (uploadId, partNo) ∧ p.fileId = g := by
          intro g hg
          simp only [Option.mem_toList, Option.map_eq_some_iff] at hg
          obtain ⟨p, hp, hf⟩ := hg
          obtain ⟨hp, hk⟩ := Table.find?_eq_some_iff.mp hp
          exact ⟨p, hp, hk, hf⟩
        refine h.grow hunused hrows rfl ?_ ?_ rfl rfl
        · intro g hg
          obtain ⟨p, hp, _, hf⟩ := hold g hg
          exact mem_ownedFiles.mpr (.inr ⟨p, hp, hf⟩)
        · intro g hg
          rcases mem_ownedFiles.mp hg with ⟨r, hr, hf⟩ | ⟨p, hp, hf⟩
          · refine .inr ⟨mem_ownedFiles.mpr (.inl ⟨r, hr, hf⟩), fun hdead => ?_⟩
            obtain ⟨p, hp, _, hpf⟩ := hold g hdead
            exact hdb.owned.object_part_disjoint hr hp (hpf ▸ hf)
          · rcases Table.mem_upsert.mp hp with ⟨hp, hk⟩ | rfl
            · refine .inr ⟨mem_ownedFiles.mpr (.inr ⟨p, hp, hf⟩), fun hdead => ?_⟩
              obtain ⟨q, hq, hqk, hqf⟩ := hold g hdead
              exact hk (hdb.owned.part_unique hp hq (hf.trans hqf.symm) ▸ hqk)
            · exact .inl hf.symm
    | _ => simp [Job.ingest?] at hingest

/-! ## Every interleaving without an expiry -/

theorem StoreReaches.whole {labels : List (Label Job)} {w : StoreWorld}
    (h : StoreReaches hash sha256 labels w)
    (hexpire : ∀ now budget, .begin (.expireUploads now budget) ∉ labels) :
    Whole sha256 w.db w.log := by
  refine World.committed_trace (terms_lawful hash sha256)
    (fun job => ∀ now budget, job ≠ .expireUploads now budget) ?_ ?_ ?_
    (World.sound_idle admissible_empty) (fun s hs => (Table.not_mem_empty s hs).elim) ?_ ?_ h
  · intro db log job db' held _ hstart hwhole
    rcases Job.start_cases hstart with ⟨_, rfl, _⟩ | ⟨_, _, _, _, rfl, _⟩
    · exact hwhole
    · exact hwhole
  · intro db log i job a _ _ _ hwhole f hf
    obtain ⟨body, hingested, hfile⟩ := hwhole f hf
    exact ⟨body, hingested.append _, hfile⟩
  · intro db log i job a held db' hjob hdb hcommit hwhole
    exact Commits.whole hdb hcommit hjob i hwhole
  · rintro job hbegin now budget rfl
    exact hexpire now budget hbegin
  · simp [Whole, World.idle, ownedFiles, Db.empty, Table.empty]

/-- Re-sends, Completes and Aborts of an upload, beside anything but an expiry, never leave a
chunk row without its one owner, nor an object without a row of a file it lists. -/
theorem uploads_stay_consistent {labels : List (Label Job)} {w : StoreWorld}
    (h : StoreReaches hash sha256 labels w)
    (hexpire : ∀ now budget, .begin (.expireUploads now budget) ∉ labels) :
    (∀ c ∈ w.db.chunks, ∃! o, Owns w.db o c.fileId) ∧
    ∀ r ∈ w.db.objects, ∀ f ∈ r.files, ∃ body, Ingested sha256 w.log f body ∧
      ∀ c, c.fileId = f → (c ∈ w.db.chunks ↔ c ∈ rowsOf f body) := by
  have howned := h.sound.inv.owned
  constructor
  · intro c hc
    obtain ⟨o, ho⟩ := mem_ownedFiles_iff_owns.mp (howned.covered c hc)
    exact ⟨o, ho, fun o' ho' => howned.owner_unique ho' ho⟩
  · intro r hr f hf
    exact h.whole hexpire f (mem_ownedFiles.mpr (.inl ⟨r, hr, hf⟩))

/-- A part is sent, and sent again while a Complete runs; the Complete falls victim to the
deadlock and is made again. -/
def resendRace : List (Label Job) :=
  [.begin (.createBucket 0 ['b']), .run 0 0, .run 0 0,
    .begin (.createUpload 0 ['u'] ['b'] ['k']), .run 1 0, .run 1 0, .run 1 0, .run 1 0,
    .begin (.uploadPart 0 ['u'] 1 1 [[7]]), .run 2 0, .run 2 0, .run 2 0, .run 2 0, .run 2 0,
    .begin (.uploadPart 0 ['u'] 1 2 [[7]]), .run 3 0, .run 3 0,
    .begin (.completeUpload 0 ['u'] ['b'] ['k'] [(1, hex [7])]), .run 4 0, .run 4 0, .run 4 0,
    .run 4 0, .run 4 0, .run 4 0, .run 4 0, .run 4 0, .run 3 0, .run 3 0, .run 3 0, .drop 4,
    .run 3 0, .run 3 0, .begin (.completeUpload 0 ['u'] ['b'] ['k'] [(1, hex [7])]), .run 5 0,
    .run 5 0, .run 5 0, .run 5 0, .run 5 0, .run 5 0, .run 5 0, .run 5 0, .run 5 0, .run 5 0]

/-- The object published in the end has the row of the second send. -/
theorem uploads_stay_consistent_resendRace :
    ∃ w, StoreReaches (fun _ _ => 0) id resendRace w ∧ ∃ r ∈ w.db.objects, r.files = [2] ∧
      ∃ body, Ingested id w.log 2 body ∧
        ∀ c, c.fileId = 2 → (c ∈ w.db.chunks ↔ c ∈ rowsOf 2 body) := by
  have hrun : ((World.idle Db.empty : StoreWorld).runs (store (fun _ _ => 0) id) resendRace).any
      (fun w => w.db.objects.rows.any fun r => r.files = [2]) = true := by
    decide +kernel
  obtain ⟨w, hw, hobjects⟩ := (Option.any_eq_true _ _).mp hrun
  obtain ⟨r, hr, hfiles⟩ := List.any_eq_true.mp hobjects
  have hfiles := of_decide_eq_true hfiles
  have hreach : StoreReaches (fun _ _ => 0) id resendRace w := World.trace_of_runs hw
  have hexpire : ∀ now budget, Label.begin (Job.expireUploads now budget) ∉ resendRace := by
    simp [resendRace]
  exact ⟨w, hreach, r, hr, hfiles,
    (uploads_stay_consistent hreach hexpire).2 r hr 2 (by simp [hfiles])⟩

end Pgvs3
