import Pgvs3.Verification.Concurrency.Buckets
import Pgvs3.Verification.Concurrency.Expiring

/-! # Every interleaving

Each kind of transaction keeps the terms alone, so the store keeps its invariant under any
interleaving of any number of transactions. -/

namespace Pgvs3

open Library

variable {hash : Text → Text → ℤ} {sha256 : Bytes → Bytes} {job : Job} {held held' : List Lock}
  {db db' : Db}

theorem admissible_empty : Admissible Db.empty where
  owned := owned_empty
  objects := by simp [Db.empty]
  uploads := by simp [Db.empty]
  uploadKeys := by simp [Db.empty]

/-- A transaction begins with its file id, if it needs one, and changes no row. -/
theorem Job.start_cases (h : job.start db = some (db', held)) :
    (job.fileId? = none ∧ db' = db ∧ held = []) ∨
      ∃ f, job.fileId? = some f ∧ db.fileSeq < maxFileId ∧ f = db.fileSeq + 1 ∧
        db' = drawn db ∧ held = [.file f] := by
  unfold Job.start at h
  cases hfile : job.fileId? with
  | none =>
      simp only [hfile, Option.some.injEq, Prod.mk.injEq] at h
      exact .inl ⟨rfl, h.1.symm, h.2.symm⟩
  | some f =>
      simp only [hfile, nextval] at h
      split at h
      · cases h
      · rename_i n db₁ hnext
        split at hnext
        · rename_i hroom
          cases hnext
          split at h
          · rename_i heq
            simp only [Option.some.injEq, Prod.mk.injEq] at h
            exact .inr ⟨f, rfl, hroom, heq.symm, h.1.symm, h.2.symm⟩
          · cases h
        · cases hnext

theorem rely_drawn : Rely hash held db (drawn db) :=
  { Rely.refl hash held db with
    seq_le := by simp [drawn]
    file := fun f _ h => ⟨h.positive, h.le_max, h.drawn.trans (by simp [drawn]), h.unowned, h.rowless⟩ }

theorem unused_drawn (hdb : Admissible db) (hroom : db.fileSeq < maxFileId) :
    Unused (drawn db) (db.fileSeq + 1) where
  positive := by
    have := hdb.owned.seq_nonneg
    omega
  le_max := hroom
  drawn := le_rfl
  unowned := hdb.owned.next_unowned
  rowless := by
    intro c hc hf
    exact hdb.owned.next_unowned (hf ▸ hdb.owned.covered c hc)

/-- Every job goes on from its first statement. -/
theorem goesOn_start (hdb : Admissible db) (h : job.start db = some (db', held)) :
    GoesOn hash sha256 job (job.code hash sha256) held [] db' := by
  rcases Job.start_cases h with ⟨hnone, rfl, rfl⟩ | ⟨f, hfile, hroom, rfl, rfl, rfl⟩
  · cases job with
    | createBucket => exact goesOn_createBucket
    | deleteBucket => exact goesOn_deleteBucket
    | put => simp [Job.fileId?] at hnone
    | delete => exact goesOn_delete
    | createUpload => exact goesOn_createUpload
    | uploadPart => simp [Job.fileId?] at hnone
    | completeUpload => exact goesOn_completeUpload
    | abortUpload => exact goesOn_abortUpload
    | expireUploads => exact goesOn_expireUploads
  · have hunused := unused_drawn hdb hroom
    cases job with
    | put =>
        obtain rfl := Option.some.inj hfile
        exact goesOn_put hunused
    | uploadPart =>
        obtain rfl := Option.some.inj hfile
        exact goesOn_uploadPart hunused
    | _ => simp [Job.fileId?] at hfile

/-- The terms between the store's transactions are fair. -/
theorem terms_lawful (hash : Text → Text → ℤ) (sha256 : Bytes → Bytes) :
    (terms hash sha256).Lawful (store hash sha256) where
  rely_refl := Rely.refl hash
  rely_trans := fun _ _ _ _ => Rely.trans
  guarantee := fun _ _ _ _ _ _ hdb hc h => Commits.rely hdb hc h
  commits_inv := fun _ _ _ _ _ hdb hc => Commits.admissible hdb hc
  start_rely := by
    intro job held held' db db' _ h
    rcases Job.start_cases h with ⟨_, rfl, _⟩ | ⟨_, _, _, _, rfl, _⟩
    · exact Rely.refl _ _ _
    · exact rely_drawn
  start_inv := by
    intro job held db db' hdb h
    rcases Job.start_cases h with ⟨_, rfl, _⟩ | ⟨_, _, _, _, rfl, _⟩
    · exact hdb
    · exact ⟨hdb.owned.draw, hdb.objects, hdb.uploads, hdb.uploadKeys⟩
  start_safe := fun _ _ _ _ hdb h => (goesOn_start hdb h).2

/-- A world that some interleaving reaches from an empty store. -/
def StoreReaches (hash : Text → Text → ℤ) (sha256 : Bytes → Bytes) (labels : List (Label Job))
    (w : StoreWorld) : Prop :=
  Trace (store hash sha256).Step (World.idle Db.empty) labels w

theorem StoreReaches.sound {labels : List (Label Job)} {w : StoreWorld}
    (h : StoreReaches hash sha256 labels w) :
    w.Sound (store hash sha256) (terms hash sha256) :=
  World.sound_trace (terms_lawful hash sha256) (World.sound_idle admissible_empty) h

/-- Every reply but that of an expiry is the one the job would have got alone on the rows it
met, unless two first sends of one part have met. -/
theorem StoreReaches.serial {labels : List (Label Job)} {w : StoreWorld}
    (h : StoreReaches hash sha256 labels w) {r : Reply Db Job Outcome} (hr : r ∈ w.log)
    (hjob : ∀ now budget, r.job ≠ .expireUploads now budget) :
    (∃ db, r.job.serial sha256 r.before = (db, r.reply)) ∨
      (r.job.part? ≠ none ∧ r.reply = .failed .uniqueViolation) := by
  obtain ⟨hbefore, (hserial | hunique) | ⟨_, _, _, hcommit⟩⟩ := h.sound.answered r hr
  · exact .inl ⟨_, hserial⟩
  · exact .inr hunique
  · exact .inl ⟨_, hcommit.serial hbefore hjob⟩

/-- The step that gives the reply leaves the rows that the job would have left alone. -/
theorem StoreReaches.replied {labels : List (Label Job)} {l : Label Job} {w w' : StoreWorld}
    (h : StoreReaches hash sha256 labels w) (hstep : (store hash sha256).Step w l w')
    {r : Reply Db Job Outcome} (hr : w'.log = w.log ++ [r])
    (hjob : ∀ now budget, r.job ≠ .expireUploads now budget) :
    r.before = w.db ∧ (r.job.serial sha256 w.db = (w'.db, r.reply) ∨
      (r.job.part? ≠ none ∧ r.reply = .failed .uniqueViolation)) := by
  obtain ⟨hbefore, ⟨hdb, hserial | hunique⟩ | ⟨_, hcommit⟩⟩ :=
    h.sound.replied (terms_lawful hash sha256) (World.stepped hstep) hr
  · exact ⟨hbefore, .inl (hdb ▸ hserial)⟩
  · exact ⟨hbefore, .inr hunique⟩
  · exact ⟨hbefore, .inl (hcommit.serial h.sound.inv hjob)⟩

/-- A job that sends no part replies what it would have replied alone. -/
theorem StoreReaches.replied_alone {labels : List (Label Job)} {l : Label Job} {w w' : StoreWorld}
    (h : StoreReaches hash sha256 labels w) (hstep : (store hash sha256).Step w l w')
    {r : Reply Db Job Outcome} (hr : w'.log = w.log ++ [r])
    (hjob : ∀ now budget, r.job ≠ .expireUploads now budget) (hpart : r.job.part? = none) :
    r.before = w.db ∧ r.job.serial sha256 w.db = (w'.db, r.reply) := by
  obtain ⟨hbefore, halone⟩ := h.replied hstep hr hjob
  exact ⟨hbefore, halone.resolve_right fun hunique => hunique.1 hpart⟩

end Pgvs3
