import Pgvs3.Verification.Refinement.Reads
import Pgvs3.Verification.Concurrency.Versions

/-! # Acknowledged writes last

The rows of an object stay whole for as long as its row is there, whatever else runs, an
expiry included. So reads see the last write to a key that was acknowledged. -/

namespace Pgvs3

open Library

variable {hash : Text → Text → ℤ} {sha256 : Bytes → Bytes} {held : List Lock} {db db' : Db}
  {job : Job} {a : Outcome} {bucket key : Text}

/-! ## Rows of one file -/

theorem FileIs.grow {f : ℤ} {body : Bytes} {dead : List ℤ} {chunks : Table ChunkRow.primaryKey}
    (hrows : db.chunks.insertAll? (rowsOf f body) = some chunks)
    (hchunks : db'.chunks = chunks.deleteWhere fun c => c.fileId ∈ dead) {g : ℤ} {content : Bytes}
    (hne : g ≠ f) (hlive : g ∉ dead) (h : FileIs db g content) : FileIs db' g content := by
  rintro c rfl
  rw [hchunks, Table.mem_deleteWhere, Table.mem_insertAll? hrows, decide_eq_false_iff_not, ← h c rfl]
  constructor
  · rintro ⟨hc | hc, -⟩
    · exact hc
    · exact (hne (fileId_of_mem_rowsOf hc)).elim
  · exact fun hc => ⟨.inl hc, hlive⟩

theorem fileIs_new {f : ℤ} {body : Bytes} {dead : List ℤ} {chunks : Table ChunkRow.primaryKey}
    (hrows : db.chunks.insertAll? (rowsOf f body) = some chunks)
    (hchunks : db'.chunks = chunks.deleteWhere fun c => c.fileId ∈ dead)
    (hrowless : ∀ c ∈ db.chunks, c.fileId ≠ f) (hlive : f ∉ dead) : FileIs db' f body := by
  intro c hc
  rw [hchunks, Table.mem_deleteWhere, Table.mem_insertAll? hrows, decide_eq_false_iff_not]
  constructor
  · rintro ⟨hmem | hmem, -⟩
    · exact (hrowless c hmem hc).elim
    · exact hmem
  · exact fun hmem => ⟨.inr hmem, hc ▸ hlive⟩

/-- Every commit leaves the files of an object alone whose row stays. -/
theorem Commits.fileIs_kept (hdb : Admissible db) (hdb' : Admissible db')
    (hc : Commits hash sha256 held db job a db') {r : ObjectRow} (hr : r ∈ db.objects)
    (hr' : r ∈ db'.objects) {f : ℤ} (hf : f ∈ r.files) {body : Bytes} (h : FileIs db f body) :
    FileIs db' f body := by
  have howned : f ∈ ownedFiles db := mem_ownedFiles.mpr (.inl ⟨r, hr, hf⟩)
  by_cases hingest : job.ingest? = none
  · obtain ⟨op, hbody, hchange, -⟩ := hc.change hdb hingest
    rintro c rfl
    rw [← h c rfl]
    constructor
    · intro hmem
      rcases hchange.mem_chunks hmem with hmem | ⟨body', hbody', -⟩
      · exact hmem
      · rw [hbody] at hbody'
        cases hbody'
    · intro hmem
      by_contra hlost
      -- only an expiry loses rows, and only of files that a part names
      have howned' : c.fileId ∈ ownedFiles db' := mem_ownedFiles.mpr (.inl ⟨r, hr', hf⟩)
      obtain ⟨-, hkeep⟩ := hchange.keeps hdb.owned howned' (hdb.owned.drawn _ howned)
      obtain ⟨-, -, p, hp, hpf⟩ := hkeep c hmem rfl hlost
      exact hdb'.owned.object_part_disjoint hr' hp (hpf ▸ hf)
  · cases hc with
    | @put now fileId bucket key condition pushes chunks _ _ _ hunused _ _ hrows =>
        refine h.grow hrows rfl (fun heq => hunused.unowned (heq ▸ howned)) fun hdead => ?_
        obtain ⟨q, hq, hqk, hfq⟩ := hdb.owned.mem_dead_iff.mp hdead
        obtain rfl := hdb.owned.object_unique hr hq hf hfq
        -- the row at the key was replaced
        rcases Table.mem_upsert.mp hr' with ⟨-, hk⟩ | rfl
        · exact hk hqk
        · exact hunused.unowned (mem_ownedFiles.mpr (.inl ⟨_, hr, List.mem_singleton.mpr rfl⟩))
    | @uploadPart now partNo fileId uploadId pushes chunks _ _ _ hunused _ hrows =>
        refine h.grow hrows rfl (fun heq => hunused.unowned (heq ▸ howned)) fun hdead => ?_
        simp only [Option.mem_toList, Option.map_eq_some_iff] at hdead
        obtain ⟨p, hp, hpf⟩ := hdead
        exact hdb.owned.object_part_disjoint hr (Table.find?_eq_some_iff.mp hp).1 (hpf ▸ hf)
    | _ => simp [Job.ingest?] at hingest

/-! ## Writes to a key -/

/-- The replies that tell of a change of the object at a key. -/
def Outcome.changesObject : Outcome → Prop
  | .stored _ _ => True
  | .found b => b = true
  | .completed (.done _ _ _ _) => True
  | _ => False

/-- A write to the key was acknowledged. -/
def Writes (bucket key : Text) (r : Reply Db Job Outcome) : Prop :=
  r.job.target? = some (bucket, key) ∧ r.reply.changesObject

theorem Commits.object_kept (hc : Commits hash sha256 held db job a db') {i : ℕ}
    (h : ¬ Writes bucket key ⟨i, job, a, db⟩) :
    db'.objects.find? (bucket, key) = db.objects.find? (bucket, key) := by
  have hother : ∀ k, job.target? = some k → a.changesObject → k ≠ (bucket, key) := by
    rintro k hjob ha rfl
    exact h ⟨hjob, ha⟩
  cases hc with
  | put => exact Table.find?_upsert_of_ne (hother _ rfl trivial)
  | completeUpload => exact Table.find?_upsert_of_ne (hother _ rfl trivial)
  | @delete bucket' key' r _ hold =>
      have hkey := (Table.find?_eq_some_iff.mp hold).2
      refine Table.find?_deleteWhere fun q hq => ?_
      rw [decide_eq_false_iff_not, hq, hkey]
      exact (hother _ rfl rfl).symm
  | expireUploads hexpires => rw [hexpires.objects_eq]
  | _ => rfl

/-- What the last write to a key has left there. -/
structure LastWrite (sha256 : Bytes → Bytes) (bucket key : Text) (db : Db)
    (log : List (Reply Db Job Outcome)) : Prop where
  never : (∀ q ∈ log, ¬ Writes bucket key q) → db.objects.find? (bucket, key) = none
  deleted : ∀ xs r ys, log = xs ++ r :: ys → (∀ q ∈ ys, ¬ Writes bucket key q) →
    r.job = .delete bucket key → r.reply = .found true → db.objects.find? (bucket, key) = none
  stored : ∀ xs r ys, log = xs ++ r :: ys → (∀ q ∈ ys, ¬ Writes bucket key q) →
    ∀ now condition f pushes size sum, r.job = .put now bucket key condition f pushes →
      r.reply = .stored size sum →
      db.objects.find? (bucket, key) =
          some ((putWrite sha256 f condition pushes.flatten).row now bucket key) ∧
        FileIs db f pushes.flatten

/-- What one reply makes of the object at a key. -/
structure Leaves (sha256 : Bytes → Bytes) (bucket key : Text) (r : Reply Db Job Outcome)
    (db' : Db) : Prop where
  kept : ¬ Writes bucket key r →
    db'.objects.find? (bucket, key) = r.before.objects.find? (bucket, key) ∧
      ∀ o f body, r.before.objects.find? (bucket, key) = some o → f ∈ o.files →
        FileIs r.before f body → FileIs db' f body
  deleted : r.job = .delete bucket key → r.reply = .found true →
    db'.objects.find? (bucket, key) = none
  stored : ∀ now condition f pushes size sum, r.job = .put now bucket key condition f pushes →
    r.reply = .stored size sum →
    db'.objects.find? (bucket, key) =
        some ((putWrite sha256 f condition pushes.flatten).row now bucket key) ∧
      FileIs db' f pushes.flatten

theorem LastWrite.snoc {log : List (Reply Db Job Outcome)} {r : Reply Db Job Outcome}
    (h : LastWrite sha256 bucket key r.before log) (hr : Leaves sha256 bucket key r db') :
    LastWrite sha256 bucket key db' (log ++ [r]) := by
  have hsplit : ∀ xs (q : Reply Db Job Outcome) ys, log ++ [r] = xs ++ q :: ys →
      (q = r ∧ ys = []) ∨ ∃ zs, ys = zs ++ [r] ∧ log = xs ++ q :: zs := by
    intro xs q ys hlog
    rcases List.eq_nil_or_concat' ys with rfl | ⟨zs, t, rfl⟩
    · obtain ⟨-, hq⟩ := List.append_inj' hlog rfl
      exact .inl ⟨(List.singleton_inj.mp hq).symm, rfl⟩
    · rw [← List.cons_append, ← List.append_assoc] at hlog
      obtain ⟨hfront, ht⟩ := List.append_inj' hlog rfl
      obtain rfl := List.singleton_inj.mp ht
      exact .inr ⟨zs, rfl, hfront⟩
  refine ⟨fun hnone => ?_, fun xs q ys hlog hlast hjob hreply => ?_,
    fun xs q ys hlog hlast now condition f pushes size sum hjob hreply => ?_⟩
  · rw [(hr.kept (hnone r (by simp))).1]
    exact h.never fun q hq => hnone q (by simp [hq])
  · rcases hsplit xs q ys hlog with ⟨rfl, rfl⟩ | ⟨zs, rfl, hfront⟩
    · exact hr.deleted hjob hreply
    · rw [(hr.kept (hlast r (by simp))).1]
      exact h.deleted xs q zs hfront (fun p hp => hlast p (by simp [hp])) hjob hreply
  · rcases hsplit xs q ys hlog with ⟨rfl, rfl⟩ | ⟨zs, rfl, hfront⟩
    · exact hr.stored now condition f pushes size sum hjob hreply
    · obtain ⟨hsame, hfiles⟩ := hr.kept (hlast r (by simp))
      obtain ⟨hrow, hfile⟩ := h.stored xs q zs hfront (fun p hp => hlast p (by simp [hp])) now condition
        f pushes size sum hjob hreply
      exact ⟨hsame.trans hrow, hfiles _ f _ hrow (List.mem_singleton.mpr rfl) hfile⟩

theorem Commits.leaves (hdb : Admissible db) (hdb' : Admissible db')
    (hc : Commits hash sha256 held db job a db') (i : ℕ) :
    Leaves sha256 bucket key ⟨i, job, a, db⟩ db' := by
  refine ⟨fun hkept => ⟨hc.object_kept hkept, fun o f body ho hf hfile => ?_⟩, ?_, ?_⟩
  · have ho' := (hc.object_kept hkept).trans ho
    exact hc.fileIs_kept hdb hdb' (Table.find?_eq_some_iff.mp ho).1 (Table.find?_eq_some_iff.mp ho').1
      hf hfile
  · rintro hjob hreply
    obtain rfl : job = .delete bucket key := hjob
    obtain rfl : a = .found true := hreply
    cases hc with
    | delete _ hold =>
        have hkey := (Table.find?_eq_some_iff.mp hold).2
        refine Table.find?_eq_none_iff.mpr fun q hq hqk => ?_
        have hother := (Table.mem_deleteWhere.mp hq).2
        rw [decide_eq_false_iff_not, hkey] at hother
        exact hother hqk
  · rintro now condition f pushes size sum hjob hreply
    obtain rfl : job = .put now bucket key condition f pushes := hjob
    obtain rfl : a = .stored size sum := hreply
    cases hc with
    | put _ _ _ hunused _ _ hrows =>
        refine ⟨Table.find?_upsert_self, fileIs_new hrows rfl hunused.rowless fun hdead => ?_⟩
        obtain ⟨q, hq, -, hfq⟩ := hdb.owned.mem_dead_iff.mp hdead
        exact hunused.unowned (mem_ownedFiles.mpr (.inl ⟨q, hq, hfq⟩))

theorem Refused.leaves (hrefused : Refused sha256 job db a) (hrefuses : (storePattern job).refuses a)
    (i : ℕ) : Leaves sha256 bucket key ⟨i, job, a, db⟩ db := by
  refine ⟨fun _ => ⟨rfl, fun _ _ _ _ _ hfile => hfile⟩, ?_, ?_⟩
  · rintro hjob hreply
    obtain rfl : job = .delete bucket key := hjob
    obtain rfl : a = .found true := hreply
    rcases hrefused with halone | ⟨hpart, -⟩
    · -- alone, the DELETE would have left the key empty
      have hgone : (delete db bucket key).1.objects.find? (bucket, key) = none := by
        unfold delete
        refine Table.find?_eq_none_iff.mpr fun q hq => ?_
        have hmem : q ∈ db.objects.deleteWhere (fun r => r.primaryKey = (bucket, key)) := by
          revert hq
          cases db.objects.find? (bucket, key) <;> exact id
        simpa using (Table.mem_deleteWhere.mp hmem).2
      have hsame : (delete db bucket key).1 = db := congrArg Prod.fst halone
      rwa [hsame] at hgone
    · exact (hpart rfl).elim
  · rintro now condition f pushes size sum hjob hreply
    obtain rfl : job = .put now bucket key condition f pushes := hjob
    obtain rfl : a = .stored size sum := hreply
    obtain ⟨e, he⟩ := hrefuses (by simp [Job.fileId?])
    cases he

theorem StoreReaches.lastWrite {labels : List (Label Job)} {w : StoreWorld}
    (h : StoreReaches hash sha256 labels w) (bucket key : Text) :
    LastWrite sha256 bucket key w.db w.log := by
  refine World.audited_trace (terms_lawful hash sha256) storeAudit_lawful (fun _ => True) ?_ ?_ ?_
    (World.sound_idle admissible_empty) (World.audited_idle _) (fun _ _ => trivial)
    (fun _ _ => trivial) ?_ h
  · intro db log job db' held _ hstart hlast
    rcases Job.start_cases hstart with ⟨-, rfl, -⟩ | ⟨-, -, -, -, rfl, -⟩
    · exact hlast
    · exact ⟨hlast.never, hlast.deleted, hlast.stored⟩
  · intro db log i job held ws a _ _ hrefused hrefuses _ hlast
    exact LastWrite.snoc hlast (hrefused.leaves hrefuses i)
  · intro db log i job held ws a _ hdb hcommit _ _ hlast
    have hdb' : Admissible _ := (terms_lawful hash sha256).commits_inv _ _ _ _ _ hdb hcommit
    exact LastWrite.snoc hlast (Commits.leaves hdb hdb' hcommit i)
  · refine ⟨fun _ => rfl, fun xs r ys hlog => ?_, fun xs r ys hlog => ?_⟩
    · simp [World.idle] at hlog
    · simp [World.idle] at hlog

/-! ## Reads -/

/-- What reads of a key see, by the last write to it. -/
structure ReadsLastWrite (sha256 : Bytes → Bytes) (bucket key : Text) (w : StoreWorld) : Prop where
  never : (∀ q ∈ w.log, ¬ Writes bucket key q) → Shows w.db bucket key none
  deleted : ∀ xs r ys, w.log = xs ++ r :: ys → (∀ q ∈ ys, ¬ Writes bucket key q) →
    r.job = .delete bucket key → r.reply = .found true → Shows w.db bucket key none
  stored : ∀ xs r ys, w.log = xs ++ r :: ys → (∀ q ∈ ys, ¬ Writes bucket key q) →
    ∀ now condition f pushes size sum, r.job = .put now bucket key condition f pushes →
      r.reply = .stored size sum → FewRows pushes.flatten →
      Shows w.db bucket key (some ⟨pushes.flatten, sha256 pushes.flatten, now⟩)

/-- Under any interleaving of transactions, an expiry included, reads of a key see the last
write to it that was acknowledged: a stored PUT byte for byte, and after a DELETE nothing. -/
theorem reads_see_last_write {labels : List (Label Job)} {w : StoreWorld}
    (h : StoreReaches hash sha256 labels w) (bucket key : Text) :
    ReadsLastWrite sha256 bucket key w := by
  have hlast := h.lastWrite bucket key
  refine ⟨fun hnone => shows_none (hlast.never hnone), fun xs r ys hlog hkept hjob hreply =>
    shows_none (hlast.deleted xs r ys hlog hkept hjob hreply), ?_⟩
  intro xs r ys hlog hkept now condition f pushes size sum hjob hreply hfew
  obtain ⟨hrow, hfile⟩ := hlast.stored xs r ys hlog hkept now condition f pushes size sum hjob hreply
  have hfiles : ∀ g ∈ [f], FileIs w.db g pushes.flatten := by simpa using hfile
  have hcontent : ((putWrite sha256 f condition pushes.flatten).row now bucket key).content
      (fun _ => pushes.flatten) = ⟨pushes.flatten, sha256 pushes.flatten, now⟩ := by
    simp [ObjectRow.content, ObjectRow.files, putWrite, ObjectWrite.row]
  have hholds : ((putWrite sha256 f condition pushes.flatten).row now bucket key).Holds
      fun _ => pushes.flatten :=
    @holds_putWrite sha256 (fun _ => pushes.flatten) f condition pushes.flatten rfl now bucket key
  rw [← hcontent]
  exact shows_some hholds hfiles hrow (by simpa [hcontent] using hfew)

/-- Two PUTs of one key beside an expiry; the one that began first commits last. -/
def putRace : List (Label Job) :=
  [.begin (.createBucket 0 ['b']), .run 0 0, .run 0 0,
    .begin (.put 1 ['b'] ['k'] .unconditional 1 [[7]]),
    .begin (.put 2 ['b'] ['k'] .unconditional 2 [[8]]), .run 2 0, .run 1 0, .run 2 0, .run 2 0,
    .run 2 0, .run 2 0, .run 1 0, .begin (.expireUploads 9 ⟨some 0, some 5, none⟩), .run 2 0,
    .run 2 0, .run 3 0, .run 1 0, .run 3 0, .run 3 0, .run 1 0, .run 1 0, .run 1 0, .run 1 0,
    .run 1 0]

theorem reads_see_last_write_putRace :
    ∃ w, StoreReaches (fun _ _ => 0) id putRace w ∧
      w.log.map (·.reply) = [.ok, .stored 1 [8], .expired 0, .stored 1 [7]] ∧
      Shows w.db ['b'] ['k'] (some ⟨[7], [7], 1⟩) := by
  have hrun : ((World.idle Db.empty : StoreWorld).runs (store (fun _ _ => 0) id) putRace).any
      (fun w => decide (w.log.map (·.reply) = [.ok, .stored 1 [8], .expired 0, .stored 1 [7]]) &&
        w.log.getLast?.any fun r => r.job = .put 1 ['b'] ['k'] .unconditional 1 [[7]] ∧
          r.reply = .stored 1 [7]) = true := by
    decide +kernel
  obtain ⟨w, hw, hlog⟩ := (Option.any_eq_true _ _).mp hrun
  obtain ⟨hlog, hlast⟩ := (Bool.and_eq_true _ _).mp hlog
  obtain ⟨r, hr, hreply⟩ := (Option.any_eq_true _ _).mp hlast
  obtain ⟨hjob, hreply⟩ := of_decide_eq_true hreply
  have hsplit : w.log = w.log.dropLast ++ [r] := (List.dropLast_append_getLast? r hr).symm
  have hreach : StoreReaches (fun _ _ => 0) id putRace w := World.trace_of_runs hw
  exact ⟨w, hreach, of_decide_eq_true hlog, (reads_see_last_write hreach ['b'] ['k']).stored _ r [] hsplit (by simp)
    1 .unconditional 1 [[7]] 1 [7] hjob hreply (by decide +kernel)⟩

end Pgvs3
