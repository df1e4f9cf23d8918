import Pgvs3.Library.LockOrder
import Pgvs3.Library.Progress
import Mathlib.Logic.Hydra
import Mathlib.Data.Fintype.Card

/-! # Stores that drain

Open transactions come to an end when no new ones begin, as long as they do not wait in a
circle. -/

namespace Library

variable {σ ω Λ ρ α : Type*}

/-- One code is what another has left after a statement. -/
inductive Code.After : Code σ ω Λ α → Code σ ω Λ α → Prop where
  | next (needs takes writes next) (s : Sight σ Λ) : After (next s) (.step needs takes writes next)

theorem Code.after_wf : WellFounded (Code.After : Code σ ω Λ α → Code σ ω Λ α → Prop) := by
  refine ⟨fun c => ?_⟩
  induction c with
  | step needs takes writes next ih =>
      refine ⟨_, fun c h => ?_⟩
      cases h with
      | next _ _ _ _ s => exact ih s
  | commit a | rollback a => exact ⟨_, fun c h => by cases h⟩

/-- What the open transactions have left to do. -/
def World.codes (w : World σ ω Λ ρ α) : Multiset (Code σ ω Λ α) :=
  (w.sessions.rows.map Session.rest : List (Code σ ω Λ α))

def Label.runs : Label ρ → Prop
  | .run _ _ => True
  | _ => False

/-- Open transactions go on, and no new one begins. -/
def Engine.Run (e : Engine σ ω Λ ρ α) : World σ ω Λ ρ α → Label ρ → World σ ω Λ ρ α → Prop :=
  Only Label.runs e.Step

def World.others (w : World σ ω Λ ρ α) (i : ℕ) : Multiset (Code σ ω Λ α) :=
  ((w.sessions.rows.filter fun t => t.id ≠ i).map Session.rest : List (Code σ ω Λ α))

theorem World.codes_of_mem {w : World σ ω Λ ρ α} {s : Session σ ω Λ ρ α} (hs : s ∈ w.sessions) :
    w.codes = w.others s.id + {s.rest} := by
  rw [add_comm, Multiset.singleton_add, World.others, Multiset.cons_coe]
  exact Multiset.coe_eq_coe.mpr ((Table.perm_of_mem hs).map Session.rest)

theorem World.codes_closed (w : World σ ω Λ ρ α) (s : Session σ ω Λ ρ α) :
    (w.closed s).codes = w.others s.id := by
  have hfilter : w.sessions.rows.filter (fun t => !decide (t.id = s.id)) =
      w.sessions.rows.filter (fun t => t.id ≠ s.id) :=
    List.filter_congr fun t _ => by simp
  simp only [World.codes, World.closed, Table.deleteWhere, World.others, hfilter]

theorem World.codes_advanced (w : World σ ω Λ ρ α) (s : Session σ ω Λ ρ α) (rest : Code σ ω Λ α)
    (takes : List Λ) (ws : List ω) :
    (w.advanced s rest takes ws).codes = w.others s.id + {rest} := by
  simp only [World.codes, World.advanced, Table.upsert, World.others, List.map_append,
    List.map_singleton, ← Multiset.coe_add, Multiset.coe_singleton]

/-- A statement leaves one transaction with less to do, or ends it. -/
theorem World.codes_run {e : Engine σ ω Λ ρ α} {w w' : World σ ω Λ ρ α} {a : Label ρ}
    (h : e.Run w a w') : Relation.CutExpand Code.After w'.codes w.codes := by
  obtain ⟨hruns, hstep⟩ := h
  have hclosed : ∀ s ∈ w.sessions,
      Relation.CutExpand Code.After (w.others s.id) w.codes := fun s hs =>
    ⟨0, s.rest, by simp, by rw [World.codes_of_mem hs, add_zero]⟩
  cases World.stepped hstep with
  | begin | drop => cases hruns
  | advance hs s hsight hfree =>
      rw [World.codes_of_mem hs, World.codes_advanced]
      exact Relation.cutExpand_add_single _ (.next _ _ _ _ s)
  | commit hs | rollback hs => exact World.codes_closed w _ ▸ hclosed _ hs

theorem World.run_wf (e : Engine σ ω Λ ρ α) : WellFounded fun w' w => ∃ a, e.Run w a w' := by
  have hirrefl : Std.Irrefl (Code.After : Code σ ω Λ α → Code σ ω Λ α → Prop) :=
    ⟨fun c hc => Code.after_wf.asymmetric c c hc hc⟩
  have hwf : WellFounded (Relation.CutExpand (Code.After : Code σ ω Λ α → Code σ ω Λ α → Prop)) :=
    ⟨fun s => Relation.acc_of_singleton fun c _ => (Code.after_wf.apply c).cutExpand⟩
  exact Subrelation.wf (fun ⟨_, h⟩ => World.codes_run h) (InvImage.wf World.codes hwf)

/-! ## Waiting -/

theorem World.waits_of_stuck {e : Engine σ ω Λ ρ α} {w : World σ ω Λ ρ α} (h : Stuck e.Run w)
    {s : Session σ ω Λ ρ α} (hs : s ∈ w.sessions) :
    ∃ t ∈ w.sessions, w.Waits e s.id t.id := by
  have hnone : w.step e (.run s.id 0) = none := by
    by_contra hne
    obtain ⟨w', hw'⟩ := Option.ne_none_iff_exists'.mp hne
    exact h (.run s.id 0) w' ⟨trivial, hw'⟩
  have hfind : w.sessions.find? s.id = some s := Table.find?_eq_some_iff.mpr ⟨hs, rfl⟩
  simp only [World.step, hfind] at hnone
  cases hrest : s.rest with
  | commit a | rollback a => simp [hrest] at hnone
  | step needs takes writes next =>
      simp only [hrest, ite_eq_right_iff, reduceCtorEq, imp_false, List.all_eq_true] at hnone
      obtain ⟨l, hl⟩ := not_forall.mp hnone
      obtain ⟨hl, hfree⟩ := Classical.not_imp.mp hl
      have hblocked : ¬ w.free e s.id l = true := hfree
      rw [World.free_iff] at hblocked
      push Not at hblocked
      obtain ⟨t, ht, hne, l', hl', hconflict⟩ := hblocked
      refine ⟨t, ht, l, s, hs, t, ht, rfl, rfl, hne.symm, ⟨0, ?_⟩, l', hl', by simpa using hconflict⟩
      rw [World.asked, hrest]
      exact hl

/-- Where no transaction waits for itself through others, one of those that are open can go
on. -/
theorem World.empty_of_stuck {e : Engine σ ω Λ ρ α} {w : World σ ω Λ ρ α} (h : Stuck e.Run w)
    (hcircle : ∀ i, ¬ Relation.TransGen (w.Waits e) i i) : w.sessions.rows = [] := by
  by_contra hne
  obtain ⟨s, hs⟩ := List.exists_mem_of_ne_nil _ hne
  -- waiting is a well-founded relation on the transactions that are open
  let Open := {i // i ∈ w.sessions.rows.map Session.id}
  let waits : Open → Open → Prop := fun i j => Relation.TransGen (w.Waits e) j.1 i.1
  have htrans : IsTrans Open waits := ⟨fun _ _ _ hab hbc => hbc.trans hab⟩
  have hirrefl : Std.Irrefl waits := ⟨fun i => hcircle i.1⟩
  have hwf : WellFounded waits := Finite.wellFounded_of_trans_of_irrefl waits
  obtain ⟨⟨i, hi⟩, -, hmin⟩ := hwf.has_min Set.univ
    ⟨⟨s.id, List.mem_map_of_mem hs⟩, Set.mem_univ _⟩
  obtain ⟨t, ht, rfl⟩ := List.mem_map.mp hi
  obtain ⟨u, hu, hwaits⟩ := World.waits_of_stuck h ht
  exact hmin ⟨u.id, List.mem_map_of_mem hu⟩ (Set.mem_univ _) (.single hwaits)

end Library
