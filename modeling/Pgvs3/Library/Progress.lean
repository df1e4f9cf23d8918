import Pgvs3.Library.Transition
import Mathlib.Algebra.BigOperators.Group.Finset.Basic
import Mathlib.Data.Fintype.BigOperators
import Mathlib.Tactic

/-! # Runs that come to an end

A measure that every step makes smaller bounds every run, and every run can be continued
until no label is enabled. -/

namespace Library

variable {σ ι : Type*}

/-- No label is enabled. -/
def Stuck (Step : σ → ι → σ → Prop) (s : σ) : Prop := ∀ a t, ¬ Step s a t

def Only (labels : ι → Prop) (Step : σ → ι → σ → Prop) : σ → ι → σ → Prop :=
  Guarded (fun _ a => labels a) Step

theorem Trace.only {Step : σ → ι → σ → Prop} {labels : ι → Prop} {s t : σ} {as : List ι}
    (h : Trace Step s as t) (hall : ∀ a ∈ as, labels a) : Trace (Only labels Step) s as t := by
  induction h with
  | nil s => exact .nil s
  | cons hstep _ ih =>
      exact .cons ⟨hall _ List.mem_cons_self, hstep⟩ (ih fun a ha => hall a (List.mem_cons_of_mem _ ha))

/-- A property that steps keep, and a measure that they make smaller where it holds. -/
structure Variant (Step : σ → ι → σ → Prop) (I : σ → Prop) (μ : σ → ℕ) : Prop where
  keeps : ∀ s a t, I s → Step s a t → I t
  decreases : ∀ s a t, I s → Step s a t → μ t < μ s

namespace Variant

variable {Step Step' : σ → ι → σ → Prop} {I : σ → Prop} {μ : σ → ℕ} {s t : σ} {as : List ι}

theorem mono (h : Variant Step I μ) (hle : ∀ s a t, Step' s a t → Step s a t) :
    Variant Step' I μ where
  keeps s a t hs hstep := h.keeps s a t hs (hle s a t hstep)
  decreases s a t hs hstep := h.decreases s a t hs (hle s a t hstep)

theorem length_add_le (h : Variant Step I μ) (hs : I s) (hrun : Trace Step s as t) :
    as.length + μ t ≤ μ s := by
  induction hrun with
  | nil => simp
  | cons hstep _ ih =>
      have hlt := h.decreases _ _ _ hs hstep
      have hrest := ih (h.keeps _ _ _ hs hstep)
      rw [List.length_cons]
      omega

/-- A run can always be continued to its end. -/
theorem exists_stuck (h : Variant Step I μ) (hs : I s) :
    ∃ as t, Trace Step s as t ∧ Stuck Step t := by
  induction hn : μ s using Nat.strong_induction_on generalizing s with
  | _ n ih =>
      subst hn
      by_cases hstuck : Stuck Step s
      · exact ⟨[], s, .nil s, hstuck⟩
      · simp only [Stuck, not_forall, not_not] at hstuck
        obtain ⟨a, t, hstep⟩ := hstuck
        obtain ⟨as, u, hrun, hend⟩ := ih _ (h.decreases _ _ _ hs hstep) (h.keeps _ _ _ hs hstep) rfl
        exact ⟨a :: as, u, .cons hstep hrun, hend⟩

end Variant

/-- Counted steps are paid for by the potential that was there and by what other steps add. -/
theorem Trace.amortized {Step : σ → ι → σ → Prop} {μ : σ → ℕ} {counted paying : ι → Bool} {k : ℕ}
    (hstep : ∀ s a t, Step s a t →
      (if counted a then 1 else 0) + μ t ≤ μ s + if paying a then k else 0)
    {s t : σ} {as : List ι} (h : Trace Step s as t) :
    as.countP counted + μ t ≤ μ s + k * as.countP paying := by
  induction h with
  | nil => simp
  | @cons _ _ _ a _ h _ ih =>
      have hone := hstep _ _ _ h
      rw [List.countP_cons, List.countP_cons, Nat.mul_add]
      cases hcounted : counted a <;> cases hpaying : paying a <;>
        simp only [hcounted, hpaying, if_true, if_false, Bool.false_eq_true] at hone ⊢ <;> omega

theorem Trace.countP_add_le {Step : σ → ι → σ → Prop} {μ : σ → ℕ} {counted : ι → Bool}
    (hstep : ∀ s a t, Step s a t → (if counted a then 1 else 0) + μ t ≤ μ s)
    {s t : σ} {as : List ι} (h : Trace Step s as t) : as.countP counted + μ t ≤ μ s := by
  simpa using @Trace.amortized _ _ Step μ counted (fun _ => false) 0
    (fun s a t hs => by simpa using hstep s a t hs) _ _ _ h

theorem exists_stuck_of_wellFounded {Step : σ → ι → σ → Prop}
    (h : WellFounded fun t s => ∃ a, Step s a t) (s : σ) :
    ∃ as t, Trace Step s as t ∧ Stuck Step t := by
  induction s using h.induction with
  | _ s ih =>
      by_cases hstuck : Stuck Step s
      · exact ⟨[], s, .nil s, hstuck⟩
      · simp only [Stuck, not_forall, not_not] at hstuck
        obtain ⟨a, t, hstep⟩ := hstuck
        obtain ⟨as, u, hrun, hend⟩ := ih t ⟨a, hstep⟩
        exact ⟨a :: as, u, .cons hstep hrun, hend⟩

theorem not_forall_step_of_wellFounded {Step : σ → ι → σ → Prop}
    (h : WellFounded fun t s => ∃ a, Step s a t) (f : ℕ → σ) :
    ¬ ∀ n, ∃ a, Step (f n) a (f (n + 1)) := by
  intro hstep
  obtain ⟨_, ⟨n, rfl⟩, hmin⟩ := h.has_min (Set.range f) ⟨f 0, 0, rfl⟩
  exact hmin (f (n + 1)) ⟨n + 1, rfl⟩ (hstep n)

/-! ## Families of components -/

theorem sum_update_add {κ α : Type*} [Fintype κ] [DecidableEq κ] (f : κ → α → ℕ) (s : κ → α) (i : κ)
    (x : α) :
    ∑ j, f j (Function.update s i x j) + f i (s i) = ∑ j, f j (s j) + f i x := by
  have hrest : ∑ j ∈ Finset.univ.erase i, f j (Function.update s i x j) =
      ∑ j ∈ Finset.univ.erase i, f j (s j) :=
    Finset.sum_congr rfl fun j hj => by
      rw [Function.update_of_ne (Finset.ne_of_mem_erase hj)]
  rw [← Finset.add_sum_erase _ (fun j => f j (Function.update s i x j)) (Finset.mem_univ i),
    ← Finset.add_sum_erase _ (fun j => f j (s j)) (Finset.mem_univ i), hrest, Function.update_self]
  omega

theorem sum_map_set_add {α : Type*} (f : α → ℕ) {l : List α} {n : ℕ} {a : α} (h : l[n]? = some a)
    (b : α) : ((l.set n b).map f).sum + f a = (l.map f).sum + f b := by
  induction l generalizing n with
  | nil => simp at h
  | cons c l ih =>
      cases n with
      | zero =>
          obtain rfl : c = a := by simpa using h
          simp only [List.set_cons_zero, List.map_cons, List.sum_cons]
          omega
      | succ n =>
          have := ih (by simpa using h)
          simp only [List.set_cons_succ, List.map_cons, List.sum_cons]
          omega

end Library
