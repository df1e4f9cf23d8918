import Mathlib.Data.List.Basic

/-! # Labelled transition systems

Runs of a step relation, and the rules that carry a property of one step to a whole
run. -/

namespace Library

variable {σ ι : Type*}

/-- A run from one state to another through the listed labels. -/
inductive Trace (Step : σ → ι → σ → Prop) : σ → List ι → σ → Prop where
  | nil (s) : Trace Step s [] s
  | cons {s t u a as} : Step s a t → Trace Step t as u → Trace Step s (a :: as) u

namespace Trace

variable {Step : σ → ι → σ → Prop} {s t u : σ} {as bs : List ι}

theorem append (h : Trace Step s as t) (h' : Trace Step t bs u) :
    Trace Step s (as ++ bs) u := by
  induction h with
  | nil => exact h'
  | cons hs _ ih => exact .cons hs (ih h')

theorem split (h : Trace Step s (as ++ bs) u) :
    ∃ t, Trace Step s as t ∧ Trace Step t bs u := by
  induction as generalizing s with
  | nil => exact ⟨s, .nil s, h⟩
  | cons a as ih =>
      cases h with
      | cons hs hrest =>
          obtain ⟨t, hl, hr⟩ := ih hrest
          exact ⟨t, .cons hs hl, hr⟩

/-- What every step preserves, every run preserves. -/
theorem invariant {I : σ → Prop} (hstep : ∀ s a t, I s → Step s a t → I t)
    (hs : I s) (h : Trace Step s as t) : I t := by
  induction h with
  | nil => exact hs
  | cons h _ ih => exact ih (hstep _ _ _ hs h)

/-- The same rule where a step may use a second property that runs also preserve. -/
theorem invariant₂ {I J : σ → Prop} (hstep : ∀ s a t, I s → Step s a t → I t)
    (hstep' : ∀ s a t, I s → J s → Step s a t → J t)
    (hs : I s) (hs' : J s) (h : Trace Step s as t) : J t := by
  have hboth : I t ∧ J t :=
    invariant (I := fun s => I s ∧ J s)
      (fun s a t hi hst => ⟨hstep s a t hi.1 hst, hstep' s a t hi.1 hi.2 hst⟩) ⟨hs, hs'⟩ h
  exact hboth.2

theorem mono {Step' : σ → ι → σ → Prop} (hle : ∀ s a t, Step s a t → Step' s a t)
    (h : Trace Step s as t) : Trace Step' s as t := by
  induction h with
  | nil => exact .nil _
  | cons hs _ ih => exact .cons (hle _ _ _ hs) ih

end Trace

/-- The steps whose label meets a condition on the state before it. -/
def Guarded (cond : σ → ι → Prop) (Step : σ → ι → σ → Prop) : σ → ι → σ → Prop :=
  fun s a t => cond s a ∧ Step s a t

theorem Trace.of_guarded {cond : σ → ι → Prop} {Step : σ → ι → σ → Prop} {s t : σ}
    {as : List ι} (h : Trace (Guarded cond Step) s as t) : Trace Step s as t :=
  h.mono fun _ _ _ hs => hs.2

/-- Run a partial step function; `none` when a label is not enabled. -/
def runAll (step : σ → ι → Option σ) : σ → List ι → Option σ
  | s, [] => some s
  | s, a :: as => (step s a).bind fun t => runAll step t as

theorem trace_iff_runAll {step : σ → ι → Option σ} {s t : σ} {as : List ι} :
    Trace (fun s a t => step s a = some t) s as t ↔ runAll step s as = some t := by
  constructor
  · intro h
    induction h with
    | nil => rfl
    | cons hs _ ih => simp [runAll, hs, ih]
  · induction as generalizing s with
    | nil =>
        intro h
        cases h
        exact .nil _
    | cons a as ih =>
        intro h
        simp only [runAll, Option.bind_eq_some_iff] at h
        obtain ⟨m, hm, hrest⟩ := h
        exact .cons hm (ih hrest)

theorem trace_guarded_iff_runAll {cond : σ → ι → Prop} [∀ s a, Decidable (cond s a)]
    {step : σ → ι → Option σ} {s t : σ} {as : List ι} :
    Trace (Guarded cond fun s a t => step s a = some t) s as t ↔
      runAll (fun s a => if cond s a then step s a else none) s as = some t := by
  have heq : (Guarded cond fun s a t => step s a = some t) =
      fun s a t => (if cond s a then step s a else none) = some t := by
    funext s a t
    simp [Guarded]
  rw [heq, trace_iff_runAll]

end Library
