import Pgvs3.Verification.Refinement.Bodies

/-! # The store is linearizable

Under any interleaving of its transactions the store replies like the object store, one
transaction after another, and its rows stand for what the object store holds then. -/

namespace Pgvs3

open Library

variable {hash : Text → Text → ℤ} {sha256 : Bytes → Bytes}

/-- From one state of the store to another, the replies given in between are those of the object
store, one transaction after another. Each chunk row is one of the body acknowledged for its
file, and while no expiry has begun the object store is the one that the rows make up. -/
structure Linearized (sha256 : Bytes → Bytes) (labels : List (Label Job)) (w₀ w : StoreWorld) :
    Prop where
  once : (w.log.map Reply.id).Nodup
  run : ∃ replies, w.log = w₀.log ++ replies ∧
    ObjectStore.Run sha256 (w₀.db.contents (bodies w₀.log)) (replies.map fun r => (r.job, r.reply))
      (w.db.contents (bodies w.log))
  faithful : Faithful sha256 (bodies w.log) w.db
  genuine : Genuine (bodies w.log) w.db
  rows : (∀ now budget, .begin (.expireUploads now budget) ∉ labels) →
    ∃ replies, w.log = w₀.log ++ replies ∧
      ObjectStore.Run sha256 (contentsOf w₀.db) (replies.map fun r => (r.job, r.reply))
        (contentsOf w.db)

theorem faithful_empty (sha256 : Bytes → Bytes) : Faithful sha256 (bodies []) Db.empty where
  objects := by simp [Db.empty]
  parts := by simp [Db.empty]
  staged := by simp [Db.empty]

/-- Each reply is a step of the object store, from the bodies before it to those after it. -/
theorem linearized_trace {w₀ w : StoreWorld} {labels : List (Label Job)}
    (hsound : w₀.Sound (store hash sha256) (terms hash sha256)) (haudit : w₀.Audited storeAudit)
    (hfaithful : Faithful sha256 (bodies w₀.log) w₀.db)
    (h : Trace (store hash sha256).Step w₀ labels w) :
    Faithful sha256 (bodies w.log) w.db ∧ ∃ replies, w.log = w₀.log ++ replies ∧
      ObjectStore.Run sha256 (w₀.db.contents (bodies w₀.log))
        (replies.map fun r => (r.job, r.reply))
        (w.db.contents (bodies w.log)) := by
  refine World.audited_trace (P := fun db log => Faithful sha256 (bodies log) db ∧
    ∃ replies, log = w₀.log ++ replies ∧ ObjectStore.Run sha256 (w₀.db.contents (bodies w₀.log))
      (replies.map fun r => (r.job, r.reply)) (db.contents (bodies log)))
    (terms_lawful hash sha256) storeAudit_lawful (fun _ => True) ?_ ?_ ?_ hsound haudit
    (fun _ _ => trivial) (fun _ _ => trivial) ⟨hfaithful, [], by simp, .nil _⟩ h
  · rintro db log job db' held - hstart hP
    rcases Job.start_cases hstart with ⟨-, rfl, -⟩ | ⟨-, -, -, -, rfl, -⟩
    · exact hP
    · exact ⟨⟨hP.1.objects, hP.1.parts, hP.1.staged⟩, hP.2⟩
  · rintro db log i job held ws a - hdb hrefused hrefuses hknows ⟨hf, replies, rfl, hrun⟩
    have hstep := Refused.simulates hdb hf hrefused fun f hfile =>
      ⟨hrefuses (by simp [hfile]), (hknows.file f hfile).2⟩
    rw [bodies_append, record_of_refuses hrefuses]
    refine ⟨hf, replies ++ [⟨i, job, a, db⟩], List.append_assoc .., ?_⟩
    rw [List.map_append]
    exact hrun.snoc hstep
  · rintro db log i job held ws a - hdb hcommit hcommits hknows ⟨hf, replies, rfl, hrun⟩
    have hstales : Stales held db job := by
      intro now budget hjob
      obtain ⟨grace, maxRows, hvalid⟩ := hcommits now budget hjob
      refine ⟨grace, maxRows, hvalid, fun u hu hlock => ?_⟩
      obtain ⟨grace', hgrace, hstale⟩ := hknows.stale now budget hjob u hu hlock
      rw [hvalid.1, Option.some.injEq] at hgrace
      exact hgrace ▸ hstale
    rw [bodies_append]
    refine ⟨Commits.faithful hf hcommit, replies ++ [⟨i, job, a, db⟩], List.append_assoc .., ?_⟩
    rw [List.map_append]
    exact hrun.snoc (Commits.simulates hdb hf hcommit hstales)

theorem StoreReaches.faithful {labels : List (Label Job)} {w : StoreWorld}
    (h : StoreReaches hash sha256 labels w) : Faithful sha256 (bodies w.log) w.db :=
  (linearized_trace (World.sound_idle admissible_empty) (World.audited_idle _)
    (faithful_empty sha256) h).1

/-- Whatever transactions run side by side, and however their statements interleave, the replies
between two states of the store are those of the object store that makes one transaction after
another, each once and in the order of their deciding statements. -/
theorem store_linearizable {past labels : List (Label Job)} {w₀ w : StoreWorld}
    (h₀ : StoreReaches hash sha256 past w₀) (h : Trace (store hash sha256).Step w₀ labels w) :
    Linearized sha256 (past ++ labels) w₀ w := by
  have hself : ∀ n, (store hash sha256).conflict (.key n) (.key n) = true := fun n => by
    simp [store, Lock.conflict]
  obtain ⟨hfaithful, hrun⟩ := linearized_trace h₀.sound h₀.audited h₀.faithful h
  have hw : StoreReaches hash sha256 (past ++ labels) w := Trace.append h₀ h
  refine ⟨World.replies_once (hself 0) hw, hrun, hfaithful, hw.genuine, fun hexpire => ?_⟩
  rw [hw.contentsOf_eq hexpire, h₀.contentsOf_eq fun now budget hmem =>
    hexpire now budget (List.mem_append_left _ hmem)]
  exact hrun

/-- While a part is being sent, an expiry takes a row of another part of the upload; then the
upload is completed. -/
def expiryRace : List (Label Job) :=
  [.begin (.uploadPart 0 ['u'] 2 2 [[8]]), .begin (.expireUploads 5 ⟨some 1, some 1, none⟩),
    .run 3 0, .run 4 0, .run 4 0, .run 4 0, .run 4 0, .run 4 0, .run 4 0, .run 3 0, .run 3 0,
    .run 3 0, .run 3 0, .begin (.completeUpload 6 ['u'] ['b'] ['k'] [(2, hex [8]), (1, hex [7])]),
    .run 5 0, .run 5 0, .run 5 0, .run 5 0, .run 5 0, .run 5 0, .run 5 0, .run 5 0, .run 5 0,
    .run 5 0, .run 5 0]

/-- The upload that meets the expiry, with its first part. -/
def expiryRaceSetup : List (Label Job) :=
  [.begin (.createBucket 0 ['b']), .run 0 0, .run 0 0,
    .begin (.createUpload 0 ['u'] ['b'] ['k']), .run 1 0, .run 1 0, .run 1 0, .run 1 0,
    .begin (.uploadPart 0 ['u'] 1 1 [[7]]), .run 2 0, .run 2 0, .run 2 0, .run 2 0, .run 2 0]

/-- The rows of a run without an expiry make up what the Complete has published; after the expiry
the replies are still those of the object store. -/
theorem store_linearizable_races :
    (∃ w₀ w, StoreReaches (fun _ _ => 0) id (resendRace.take 14) w₀ ∧
      Linearized id resendRace w₀ w ∧
      (contentsOf w.db).objects (['b'], ['k']) = some ⟨[7], [7], 0⟩) ∧
    ∃ w₀ w, StoreReaches (fun _ _ => 0) id expiryRaceSetup w₀ ∧
      Linearized id (expiryRaceSetup ++ expiryRace) w₀ w ∧
      w.log.map (·.reply) = [.ok, .upload (some ['u']), .stored 1 [7], .expired 1, .stored 1 [8],
        .completed (.done ['b'] ['k'] [7, 8] 2)] := by
  constructor
  · have hrun : ((World.idle Db.empty : StoreWorld).runs (store (fun _ _ => 0) id)
        (resendRace.take 14)).any (fun w₀ => (w₀.runs (store (fun _ _ => 0) id)
          (resendRace.drop 14)).any fun w =>
            (contentsOf w.db).objects (['b'], ['k']) = some ⟨[7], [7], 0⟩) = true := by
      decide +kernel
    obtain ⟨w₀, hw₀, hphase⟩ := (Option.any_eq_true _ _).mp hrun
    obtain ⟨w, hw, hobject⟩ := (Option.any_eq_true _ _).mp hphase
    have hlinear := store_linearizable (World.trace_of_runs hw₀) (World.trace_of_runs hw)
    rw [List.take_append_drop] at hlinear
    exact ⟨w₀, w, World.trace_of_runs hw₀, hlinear, of_decide_eq_true hobject⟩
  · have hrun : ((World.idle Db.empty : StoreWorld).runs (store (fun _ _ => 0) id)
        expiryRaceSetup).any (fun w₀ => (w₀.runs (store (fun _ _ => 0) id) expiryRace).any fun w =>
          w.log.map (·.reply) = [.ok, .upload (some ['u']), .stored 1 [7], .expired 1,
            .stored 1 [8], .completed (.done ['b'] ['k'] [7, 8] 2)]) = true := by
      decide +kernel
    obtain ⟨w₀, hw₀, hphase⟩ := (Option.any_eq_true _ _).mp hrun
    obtain ⟨w, hw, hlog⟩ := (Option.any_eq_true _ _).mp hphase
    exact ⟨w₀, w, World.trace_of_runs hw₀,
      store_linearizable (World.trace_of_runs hw₀) (World.trace_of_runs hw),
      of_decide_eq_true hlog⟩

end Pgvs3
