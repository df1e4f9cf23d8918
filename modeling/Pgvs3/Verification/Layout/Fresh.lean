import Pgvs3.Verification.Layout.Agreement

/-! # Gateways that start on a fresh database

One version claims a fresh database, and every gateway starts or is refused by it. -/

namespace Pgvs3

open Library

variable {ι : Type*} [DecidableEq ι] {version : ι → ℤ} {s s' : Starting ι} {c : Catalog} {v : ℤ}
  {i : ι} {event : InitEvent} {events : List (ι × InitEvent)}

/-- The answers that a gateway still waits for, at most. -/
def InitPhase.rank : InitPhase → ℕ
  | .locking => 7
  | .looking => 6
  | .marking => 5
  | .reading => 4
  | .creating => 3
  | .recording => 2
  | .unlocking _ => 1
  | .returned _ => 0

theorem InitPhase.rank_check (found : Option ℤ) : (checkLayout v found).rank ≤ 3 := by
  cases found with
  | none => simp [checkLayout, InitPhase.rank]
  | some x =>
      rw [checkLayout]
      split <;> simp [InitPhase.rank]

theorem InitPhase.rank_next {phase : InitPhase} (h : phase.working = true) :
    (phase.next v c).rank < phase.rank := by
  cases phase with
  | looking =>
      rw [InitPhase.next]
      split <;> decide
  | marking =>
      rw [InitPhase.next]
      split
      · decide
      · exact lt_of_le_of_lt (InitPhase.rank_check _) (by decide)
  | reading => exact lt_of_le_of_lt (InitPhase.rank_check _) (by decide)
  | creating | recording => simp [InitPhase.next, InitPhase.rank]
  | locking | unlocking _ | returned _ => cases h

/-- An answer takes the gateway forward, and no other. -/
theorem Starting.Moves.rank_lt {catalog : Catalog} {holder : Option ι} {phase : InitPhase} {i : ι}
    (h : Starting.Moves version s i .answer catalog holder phase) :
    phase.rank < (s.phase i).rank := by
  cases h with
  | acquire h =>
      rw [h]
      decide
  | work h => exact InitPhase.rank_next h
  | release h =>
      rw [h]
      exact Nat.zero_lt_one

/-- What holds besides, when no statement fails, in a database that was fresh. -/
structure Starting.Clean (version : ι → ℤ) (s : Starting ι) : Prop where
  /-- The lock is held by a gateway that gives it back. -/
  held : ∀ i, s.holder = some i → (s.phase i).inside
  /-- Between the steps of the gateway that creates it, the layout is absent or marked. -/
  settled : (∀ i, s.phase i ≠ .recording) →
    s.catalog.chunks = false ∨ ∃ k, s.catalog.Holds (version k)
  /-- A gateway is refused for another version than its own. -/
  refused : ∀ i e, s.phase i = .unlocking (.error e) ∨ s.phase i = .returned (.error e) →
    ∃ w, e = .otherLayout w ∧ w ≠ version i ∧ s.catalog.Holds w

omit [DecidableEq ι] in
theorem Starting.clean_start (h : c.chunks = false) :
    (Starting.start c : Starting ι).Clean version where
  held i hi := by cases hi
  settled _ := .inl h
  refused i e hi := by rcases hi with hi | hi <;> cases hi

theorem Catalog.Holds.found_eq (h : c.Holds v) : c.found = some v ∧ c.layout.isSome = true := by
  obtain ⟨-, versions, hversions, hmax⟩ := h
  exact ⟨by simp [Catalog.found, hversions, hmax], by rw [hversions]; rfl⟩

omit [DecidableEq ι] in
theorem Starting.Clean.marked (h : s.Clean version) (hs : s.Sound version)
    (hw : (s.phase i).working = true) (hne : s.phase i ≠ .recording)
    (hchunks : s.catalog.chunks = true) : ∃ k, s.catalog.Holds (version k) := by
  have hsettled : ∀ j, s.phase j ≠ .recording := by
    intro j hj
    have hji := hs.alone (i := i) (.inl hw) (.inl (by rw [hj]; rfl) : (s.phase j).inside)
    exact hne (hji ▸ hj)
  rcases h.settled hsettled with hnone | hmarked
  · rw [hchunks] at hnone
    cases hnone
  · exact hmarked

omit [DecidableEq ι] in
theorem Starting.Clean.next_error (h : s.Clean version) (hs : s.Sound version)
    (hw : (s.phase i).working = true) {e : InitError}
    (he : (s.phase i).next (version i) s.catalog = .unlocking (.error e)) :
    ∃ w, e = .otherLayout w ∧ w ≠ version i ∧ s.catalog.Holds w := by
  have hfits := hs.fits i
  cases hphase : s.phase i with
  | looking =>
      rw [hphase, InitPhase.next] at he
      split at he <;> cases he
  | marking =>
      rw [hphase] at hfits he
      obtain ⟨k, hk⟩ := h.marked hs hw (by rw [hphase]; exact InitPhase.noConfusion) hfits
      rw [InitPhase.next, if_pos hk.found_eq.2] at he
      cases he
  | reading =>
      rw [hphase] at hfits he
      obtain ⟨k, hk⟩ := h.marked hs hw (by rw [hphase]; exact InitPhase.noConfusion) hfits.1
      obtain ⟨versions, hversions⟩ := Option.isSome_iff_exists.mp hfits.2
      have hfound := hk.found_eq.1
      simp only [Catalog.found, hversions] at hfound
      rw [InitPhase.next, hversions, Option.getD_some, hfound, checkLayout] at he
      split at he
      · cases he
      · rename_i hne
        cases he
        exact ⟨version k, rfl, hne, hk⟩
  | creating | recording =>
      rw [hphase] at he
      cases he
  | locking | unlocking _ | returned _ =>
      rw [hphase] at hw
      cases hw

theorem Starting.Clean.step (h : s.Clean version) (hs : s.Sound version)
    (hstep : InitStep version s (i, .answer) s') : s'.Clean version := by
  have hs' : s'.Sound version := hs.step hstep
  obtain ⟨phase, hphase, hmove⟩ := hstep.moves
  have hself : s'.phase i = phase := by rw [hphase, Function.update_self]
  have hothers : ∀ j, j ≠ i → s'.phase j = s.phase j := fun j hj => by
    rw [hphase, Function.update_of_ne hj]
  dsimp only at hmove
  generalize hcatalog : s'.catalog = catalog at hmove
  generalize hholder : s'.holder = holder at hmove
  cases hmove with
  | acquire hlocking hfree =>
      refine ⟨fun j hj => ?_, fun hnone => ?_, fun j e hj => ?_⟩
      · obtain rfl : i = j := Option.some.inj (hholder.symm.trans hj)
        exact .inl (by rw [hself]; rfl)
      · rw [hcatalog]
        refine h.settled fun j hj => ?_
        by_cases hji : j = i
        · rw [hji, hlocking] at hj
          cases hj
        · exact hnone j ((hothers j hji).trans hj)
      · by_cases hji : j = i
        · rw [hji, hself] at hj
          rcases hj with hj | hj <;> cases hj
        · rw [hothers j hji] at hj
          rw [hcatalog]
          exact h.refused j e hj
  | work hw =>
      have hheld := hs.exclusive i (.inl hw)
      refine ⟨fun j hj => ?_, fun hnone => ?_, fun j e hj => ?_⟩
      · obtain rfl : i = j := Option.some.inj (hheld.symm.trans (hholder.symm.trans hj))
        rw [hself]
        exact InitPhase.inside_next hw
      · cases hwas : s.phase i with
        | creating =>
            refine absurd ?_ (hnone i)
            rw [hself, hwas]
            rfl
        | recording =>
            have hfits := hs'.fits i
            rw [hself, hwas] at hfits
            exact .inr ⟨i, hfits⟩
        | looking | marking | reading =>
            rw [hcatalog, hwas]
            refine h.settled fun j hj => ?_
            by_cases hji : j = i
            · rw [hji, hwas] at hj
              cases hj
            · exact hnone j ((hothers j hji).trans hj)
        | locking | unlocking _ | returned _ =>
            rw [hwas] at hw
            cases hw
      · rw [hcatalog]
        by_cases hji : j = i
        · subst hji
          rw [hself] at hj
          have hin := @InitPhase.inside_next s.catalog (version j) (s.phase j) hw
          rcases hj with hj | hj
          · obtain ⟨w, he, hne, hholds⟩ := h.next_error hs hw hj
            exact ⟨w, he, hne, hholds.effect _⟩
          · rw [hj] at hin
            rcases hin with hw | ⟨result, hr⟩
            · cases hw
            · cases hr
        · rw [hothers j hji] at hj
          obtain ⟨w, he, hne, hholds⟩ := h.refused j e hj
          exact ⟨w, he, hne, hholds.effect _⟩
  | @release result _ hunlocking =>
      have hheld := hs.exclusive i (.inr ⟨result, hunlocking⟩)
      refine ⟨fun j hj => ?_, fun hnone => ?_, fun j e hj => ?_⟩
      · rw [hholder, if_pos hheld] at hj
        cases hj
      · rw [hcatalog]
        refine h.settled fun j hj => ?_
        by_cases hji : j = i
        · rw [hji, hunlocking] at hj
          cases hj
        · exact hnone j ((hothers j hji).trans hj)
      · rw [hcatalog]
        by_cases hji : j = i
        · subst hji
          rw [hself] at hj
          rcases hj with hj | hj
          · cases hj
          · cases hj
            exact h.refused j e (.inl hunlocking)
        · rw [hothers j hji] at hj
          exact h.refused j e hj

/-! ## The end of a start -/

/-- The steps in which no statement fails. -/
def AnswerStep (version : ι → ℤ) : Starting ι → ι × InitEvent → Starting ι → Prop :=
  Only (fun e => e.2 = .answer) (InitStep version)

/-- Each gateway waits for seven answers at most. -/
theorem AnswerStep.countP_le (hrun : Trace (AnswerStep version) (Starting.start c) events s)
    (i : ι) : events.countP (fun e => e.1 = i) ≤ 7 := by
  have hstep : ∀ (s : Starting ι) (e : ι × InitEvent) t, AnswerStep version s e t →
      (if decide (e.1 = i) = true then 1 else 0) + (t.phase i).rank ≤ (s.phase i).rank := by
    rintro s ⟨j, e⟩ t ⟨he, hstep⟩
    obtain rfl : e = .answer := he
    obtain ⟨phase, hphase, hmove⟩ := hstep.moves
    have hlt : phase.rank < (s.phase j).rank := hmove.rank_lt
    rw [hphase]
    by_cases hj : j = i
    · subst hj
      simp only [Function.update_self, decide_true, if_true]
      omega
    · simp [hj, Function.update_of_ne (Ne.symm hj)]
  have hle := Trace.countP_add_le hstep hrun
  have hstart : ((Starting.start c : Starting ι).phase i).rank = 7 := rfl
  omega

/-- When nothing is left to be answered, `init` has returned everywhere. -/
theorem Starting.Clean.returned (h : s.Clean version)
    (hstuck : Stuck (AnswerStep version) s) (i : ι) :
    ∃ result, s.phase i = .returned result := by
  have hno : ∀ j, s.step version (j, .answer) = none := by
    intro j
    by_contra hne
    obtain ⟨t, ht⟩ := Option.ne_none_iff_exists'.mp hne
    exact hstuck (j, .answer) t ⟨rfl, ht⟩
  have houtside : ∀ j, ¬ (s.phase j).inside := by
    intro j hj
    have hstep := hno j
    rcases hj with hw | ⟨result, hr⟩
    · cases hphase : s.phase j with
      | looking | marking | reading | creating | recording =>
          simp [Starting.step, hphase] at hstep
      | locking | unlocking _ | returned _ =>
          rw [hphase] at hw
          cases hw
    · simp [Starting.step, hr] at hstep
  have hfree : s.holder = none := by
    cases hholder : s.holder with
    | none => rfl
    | some j => exact absurd (h.held j hholder) (houtside j)
  have hstep := hno i
  have hout := houtside i
  cases hphase : s.phase i with
  | returned result => exact ⟨result, rfl⟩
  | locking => simp [Starting.step, hphase, hfree] at hstep
  | unlocking result => exact absurd (.inr ⟨result, hphase⟩) hout
  | looking | marking | reading | creating | recording =>
      exact absurd (.inl (by rw [hphase]; rfl)) hout

variable [Nonempty ι]

/-- Where no statement fails, a fresh database comes to be marked with the version of one of
the gateways; those of that version start, and all others are refused for it. -/
theorem layout_consensus (hchunks : c.chunks = false) (hlayout : c.layout.getD [] = [])
    (hrun : Trace (AnswerStep version) (Starting.start c) events s) :
    (∀ i, events.countP (fun e => e.1 = i) ≤ 7) ∧
      (Stuck (AnswerStep version) s → ∃ k, s.catalog.Holds (version k) ∧
        ∀ i, s.phase i = .returned
          (if version i = version k then .ok () else .error (.otherLayout (version k)))) := by
  have hinv : s.Sound version ∧ s.Clean version := hrun.invariant
    (I := fun s => s.Sound version ∧ s.Clean version)
    (fun t e u ht hstep => by
      obtain ⟨i, e⟩ := e
      obtain ⟨hanswer, hstep⟩ := hstep
      obtain rfl : e = .answer := hanswer
      exact ⟨ht.1.step hstep, ht.2.step ht.1 hstep⟩)
    ⟨Starting.sound_start fun _ => hlayout, Starting.clean_start hchunks⟩
  obtain ⟨hs, h⟩ := hinv
  refine ⟨AnswerStep.countP_le hrun, fun hstuck => ?_⟩
  have hreturned := h.returned hstuck
  have hsettled := h.settled fun j hj => by
    obtain ⟨result, hr⟩ := hreturned j
    rw [hj] at hr
    cases hr
  have hholds : ∀ i, ∃ w, s.catalog.Holds w ∧ s.phase i = .returned
      (if version i = w then .ok () else .error (.otherLayout w)) := by
    intro i
    obtain ⟨result, hr⟩ := hreturned i
    cases result with
    | ok u =>
        have hfits := hs.fits i
        rw [hr] at hfits
        exact ⟨version i, hfits, by rw [hr, if_pos rfl]⟩
    | error e =>
        obtain ⟨w, rfl, hne, hw⟩ := h.refused i e (.inr hr)
        exact ⟨w, hw, by rw [hr, if_neg fun heq => hne heq.symm]⟩
  rcases hsettled with hnone | ⟨k, hk⟩
  · obtain ⟨w, hw, -⟩ := hholds (Classical.arbitrary ι)
    rw [hw.1] at hnone
    cases hnone
  · refine ⟨k, hk, fun i => ?_⟩
    obtain ⟨w, hw, hphase⟩ := hholds i
    rwa [hw.unique hk] at hphase

/-! ### Three gateways, one of which is built for layout 2 -/

def threeGateways : Fin 3 → ℤ := ![layoutVersion, layoutVersion, 2]

def emptyDatabase : Catalog := ⟨false, none⟩

/-- The second gateway creates the layout; the others find it. -/
def threeStarts : List (Fin 3 × InitEvent) :=
  [(1, .answer), (1, .answer), (1, .answer), (1, .answer), (1, .answer), (2, .answer),
    (2, .answer), (2, .answer), (2, .answer), (2, .answer), (0, .answer), (0, .answer),
    (0, .answer), (0, .answer), (0, .answer), (0, .answer), (0, .answer)]

theorem layout_consensus_threeGateways : ∃ s k, Trace (AnswerStep threeGateways)
    (Starting.start emptyDatabase) threeStarts s ∧ s.catalog.Holds (threeGateways k) ∧
      s.phase 2 = .returned (if (2 : ℤ) = threeGateways k then .ok () else
        .error (.otherLayout (threeGateways k))) := by
  obtain ⟨s, hs⟩ := Option.isSome_iff_exists.mp (show (runAll
    (fun s e => if e.2 = .answer then Starting.step threeGateways s e else none)
    (Starting.start emptyDatabase) threeStarts).isSome by decide +kernel)
  have hend : (runAll (fun s e => if e.2 = .answer then Starting.step threeGateways s e else none)
      (Starting.start emptyDatabase) threeStarts).map
        (fun s => decide (∀ i, s.phase i = .returned (.ok ()) ∨
          s.phase i = .returned (.error (.otherLayout 3)))) = some true := by
    decide +kernel
  rw [hs, Option.map_some, Option.some.injEq, decide_eq_true_eq] at hend
  have hrun := trace_guarded_iff_runAll.mpr hs
  have hstuck : Stuck (AnswerStep threeGateways) s := by
    rintro ⟨i, e⟩ t ⟨he, hstep⟩
    obtain rfl : e = .answer := he
    rcases hend i with hi | hi <;> simp [InitStep, Starting.step, hi] at hstep
  obtain ⟨k, hk, hall⟩ := (layout_consensus rfl rfl hrun).2 hstuck
  exact ⟨s, k, hrun, hk, hall 2⟩

end Pgvs3
