import Pgvs3.Verification.Concurrency.Deadlock
import Pgvs3.Library.Draining

/-! # The store drains

When no new transactions begin, the open ones come to an end by themselves, or a part sent
again and the transaction that has locked its upload wait for each other. -/

namespace Pgvs3

open Library

variable {hash : Text → Text → ℤ} {sha256 : Bytes → Bytes} {w : StoreWorld}
  {labels : List (Label Job)}

/-- What becomes of the open transactions of `w` when they are left alone. -/
structure Drains (hash : Text → Text → ℤ) (sha256 : Bytes → Bytes) (w : StoreWorld) : Prop where
  /-- They do not go on for ever. -/
  finite : ∀ f : ℕ → StoreWorld, f 0 = w → ¬ ∀ n, ∃ a, (store hash sha256).Run (f n) a (f (n + 1))
  /-- They can go on until none of them can. -/
  ends : ∃ own w', Trace (store hash sha256).Run w own w' ∧ Stuck (store hash sha256).Run w'
  /-- Then none of them is left, or two wait for each other. -/
  empty : ∀ own w', Trace (store hash sha256).Run w own w' → Stuck (store hash sha256).Run w' →
    w'.sessions.rows = [] ∨ Entangled hash sha256 w'

/-- Every reachable state of the store drains. -/
theorem store_drains (h : StoreReaches hash sha256 labels w) : Drains hash sha256 w := by
  refine ⟨fun f _ => not_forall_step_of_wellFounded (World.run_wf _) f,
    exists_stuck_of_wellFounded (World.run_wf _) w, fun own w' hown hstuck => ?_⟩
  have hreach : StoreReaches hash sha256 (labels ++ own) w' := Trace.append h hown.of_guarded
  by_cases hfree : Entangled hash sha256 w'
  · exact .inr hfree
  · exact .inl (World.empty_of_stuck hstuck (hreach.no_circle hfree))

/-- A PUT waits for a Complete of the same key. -/
theorem store_drains_completeRace : ∃ w, StoreReaches (fun _ _ => 0) id completeRace w ∧
    w.Waits (store (fun _ _ => 0) id) 4 3 ∧ Drains (fun _ _ => 0) id w := by
  have hrun : ((World.idle Db.empty : StoreWorld).runs (store (fun _ _ => 0) id)
      completeRace).any (fun w => w.blocks (store (fun _ _ => 0) id) 4 3) = true := by
    decide +kernel
  obtain ⟨w, hw, hblocks⟩ := (Option.any_eq_true _ _).mp hrun
  have hreach := World.trace_of_runs hw
  exact ⟨w, hreach, World.waits_of_blocks hblocks, store_drains hreach⟩

end Pgvs3
