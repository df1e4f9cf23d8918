import Pgvs3.Model.Layout
import Pgvs3.Library.Progress

/-! # Gateways that start agree on the layout

The advisory lock makes the check and the creation of the layout one step, and a gateway that
is built for another layout than the one it finds does not start. -/

namespace Pgvs3

open Library

/-! ## The catalog -/

/-- The layout version that a gateway finds where `s3p.chunks` is there. -/
def Catalog.found (c : Catalog) : Option ℤ :=
  match c.layout with
  | some versions => versions.max?
  | none => some 1

/-- The marker table has no rows before `s3p.chunks` is there. -/
def Catalog.Untorn (c : Catalog) : Prop :=
  c.chunks = false → c.layout.getD [] = []

/-- The layout is there and marked with one version. -/
def Catalog.Holds (c : Catalog) (version : ℤ) : Prop :=
  c.chunks = true ∧ ∃ versions, c.layout = some versions ∧ versions.max? = some version

variable {c c' : Catalog} {v w : ℤ}

theorem Catalog.Holds.unique (h : c.Holds v) (h' : c.Holds w) : v = w := by
  obtain ⟨-, vs, hvs, hv⟩ := h
  obtain ⟨-, ws, hws, hw⟩ := h'
  obtain rfl : vs = ws := Option.some.inj (hvs.symm.trans hws)
  exact Option.some.inj (hv.symm.trans hw)

theorem Catalog.Holds.schema (h : c.Holds v) : c.schema.Holds v := by
  obtain ⟨-, vs, hvs, hv⟩ := h
  exact ⟨rfl, vs, by simp [Catalog.schema, hvs], hv⟩

theorem Catalog.Holds.record_eq (h : c.Holds v) : c.record w = c := by
  obtain ⟨-, vs, hvs, hv⟩ := h
  cases vs with
  | nil => cases hv
  | cons x xs => simp [Catalog.record, hvs]

/-- What a gateway knows in each phase. -/
def InitPhase.Fits (version : ℤ) (c : Catalog) : InitPhase → Prop
  | .marking => c.chunks = true
  | .reading => c.chunks = true ∧ c.layout.isSome = true
  | .creating => c.chunks = true → c.found = some version
  | .recording => c.chunks = true ∧ ∃ versions, c.layout = some versions ∧
      (versions = [] ∨ versions.max? = some version)
  | .unlocking (.ok ()) | .returned (.ok ()) => c.Holds version
  | _ => True

theorem InitPhase.Fits.check (found : Option ℤ) (h : c.found = found) :
    (checkLayout v found).Fits v c := by
  cases found with
  | none => trivial
  | some x =>
      rw [checkLayout]
      split
      · rename_i hx
        exact fun _ => h.trans (congrArg some hx)
      · trivial

theorem InitPhase.Fits.returned {result : Except InitError Unit}
    (h : (InitPhase.unlocking result).Fits v c) : (InitPhase.returned result).Fits v c := by
  cases result with
  | ok u => exact h
  | error e => trivial

/-- The phases between the lock and the unlock. -/
def InitPhase.working : InitPhase → Bool
  | .looking | .marking | .reading | .creating | .recording => true
  | .locking | .unlocking _ | .returned _ => false

/-- The phases in which a gateway has the lock. -/
def InitPhase.inside (phase : InitPhase) : Prop :=
  phase.working = true ∨ ∃ result, phase = .unlocking result

theorem InitPhase.Fits.next {phase : InitPhase} (h : phase.Fits v c) (huntorn : c.Untorn)
    (hw : phase.working = true) : (phase.next v c).Fits v (phase.effect v c) := by
  cases phase with
  | looking =>
      simp only [InitPhase.next, InitPhase.effect]
      split
      · assumption
      · rename_i hnone
        exact fun hchunks => absurd hchunks hnone
  | marking =>
      simp only [InitPhase.next, InitPhase.effect]
      split
      · rename_i hsome
        exact ⟨h, hsome⟩
      · rename_i hnone
        refine InitPhase.Fits.check _ ?_
        rw [Option.not_isSome_iff_eq_none] at hnone
        simp [Catalog.found, hnone]
  | reading =>
      obtain ⟨versions, hversions⟩ := Option.isSome_iff_exists.mp h.2
      exact InitPhase.Fits.check _ (by simp [Catalog.found, InitPhase.effect, hversions])
  | creating =>
      refine ⟨rfl, c.layout.getD [], rfl, ?_⟩
      cases hchunks : c.chunks with
      | false => exact .inl (huntorn hchunks)
      | true =>
          have hfound := h hchunks
          cases hlayout : c.layout with
          | none => exact .inl rfl
          | some versions =>
              rw [Catalog.found, hlayout] at hfound
              exact .inr hfound
  | recording =>
      obtain ⟨hchunks, versions, hversions, hmax⟩ := h
      rcases hmax with rfl | hmax
      · exact ⟨by simp [InitPhase.effect, Catalog.record, hversions, hchunks], [v],
          by simp [InitPhase.effect, Catalog.record, hversions], by simp⟩
      · have hholds : c.Holds v := ⟨hchunks, versions, hversions, hmax⟩
        change (c.record v).Holds v
        rwa [hholds.record_eq]
  | locking | unlocking _ | returned _ => cases hw

@[simp] theorem Catalog.record_chunks (c : Catalog) (v : ℤ) : (c.record v).chunks = c.chunks := by
  unfold Catalog.record
  split <;> rfl

theorem InitPhase.Fits.untorn {phase : InitPhase} (h : phase.Fits v c) (huntorn : c.Untorn) :
    (phase.effect v c).Untorn := by
  cases phase with
  | creating => exact fun hchunks => by cases hchunks
  | recording =>
      intro hchunks
      rw [InitPhase.effect, Catalog.record_chunks, h.1] at hchunks
      cases hchunks
  | looking | marking | reading | locking | unlocking _ | returned _ => exact huntorn

theorem Catalog.Holds.effect (h : c.Holds w) (phase : InitPhase) : (phase.effect v c).Holds w := by
  cases phase with
  | creating => exact h.schema
  | recording =>
      change (c.record v).Holds w
      rwa [h.record_eq]
  | looking | marking | reading | locking | unlocking _ | returned _ => exact h

/-! ## Steps -/

section Steps

variable {ι : Type*} [DecidableEq ι] {version : ι → ℤ} {s s' : Starting ι} {i : ι}
  {event : InitEvent}

/-- What an event at gateway `i` does to the database and to the lock, and the next phase. -/
inductive Starting.Moves (version : ι → ℤ) (s : Starting ι) (i : ι) :
    InitEvent → Catalog → Option ι → InitPhase → Prop where
  | acquire (h : s.phase i = .locking) (hfree : s.holder = none) :
      Moves version s i .answer s.catalog (some i) .looking
  | work (h : (s.phase i).working = true) :
      Moves version s i .answer ((s.phase i).effect (version i) s.catalog) s.holder
        ((s.phase i).next (version i) s.catalog)
  | release {result event} (h : s.phase i = .unlocking result) :
      Moves version s i event s.catalog (if s.holder = some i then none else s.holder)
        (.returned result)
  | keep {result} (h : s.phase i = .unlocking result) :
      Moves version s i .refuse s.catalog s.holder (.returned result)
  | refuseWait (h : s.phase i = .locking) :
      Moves version s i .refuse s.catalog s.holder (.returned (.error .query))
  | refuse (h : (s.phase i).working = true) :
      Moves version s i .refuse s.catalog s.holder (.unlocking (.error .query))
  | lose (ran : Bool) (h : s.phase i = .locking ∨ (s.phase i).working = true) :
      Moves version s i (.lose ran)
        (if ran then (s.phase i).effect (version i) s.catalog else s.catalog)
        (if s.holder = some i then none else s.holder) (.returned (.error .query))
  | hangUp {result} (ran : Bool) (h : s.phase i = .returned result) (hheld : s.holder = some i) :
      Moves version s i (.lose ran) s.catalog none (.returned result)

theorem InitStep.moves {e : ι × InitEvent} (h : InitStep version s e s') :
    ∃ phase, s'.phase = Function.update s.phase e.1 phase ∧
      Starting.Moves version s e.1 e.2 s'.catalog s'.holder phase := by
  obtain ⟨i, e⟩ := e
  cases e with
  | answer =>
      cases hphase : s.phase i with
      | returned result => simp [InitStep, Starting.step, hphase] at h
      | locking =>
          simp only [InitStep, Starting.step, hphase, Option.ite_none_right_eq_some,
            Option.some.injEq] at h
          obtain ⟨hfree, rfl⟩ := h
          exact ⟨_, rfl, .acquire hphase hfree⟩
      | unlocking result =>
          simp only [InitStep, Starting.step, hphase, Option.some.injEq] at h
          subst h
          exact ⟨_, rfl, .release hphase⟩
      | looking | marking | reading | creating | recording =>
          simp only [InitStep, Starting.step, hphase, Option.some.injEq] at h
          subst h
          have hmove : Starting.Moves version s i .answer _ _ _ := .work (by rw [hphase]; rfl)
          rw [hphase] at hmove
          exact ⟨_, rfl, hmove⟩
  | refuse =>
      cases hphase : s.phase i with
      | returned result => simp [InitStep, Starting.step, hphase] at h
      | locking =>
          simp only [InitStep, Starting.step, hphase, Option.some.injEq] at h
          subst h
          exact ⟨_, rfl, .refuseWait hphase⟩
      | unlocking result =>
          simp only [InitStep, Starting.step, hphase, Option.some.injEq] at h
          subst h
          exact ⟨_, rfl, .keep hphase⟩
      | looking | marking | reading | creating | recording =>
          simp only [InitStep, Starting.step, hphase, Option.some.injEq] at h
          subst h
          exact ⟨_, rfl, .refuse (by rw [hphase]; rfl)⟩
  | lose ran =>
      cases hphase : s.phase i with
      | returned result =>
          simp only [InitStep, Starting.step, hphase, Option.ite_none_right_eq_some,
            Option.some.injEq] at h
          obtain ⟨hheld, rfl⟩ := h
          exact ⟨_, by rw [← hphase, Function.update_eq_self], .hangUp ran hphase hheld⟩
      | unlocking result =>
          simp only [InitStep, Starting.step, hphase, Option.some.injEq] at h
          subst h
          exact ⟨_, rfl, .release hphase⟩
      | locking | looking | marking | reading | creating | recording =>
          simp only [InitStep, Starting.step, hphase, Option.some.injEq] at h
          subst h
          have hmove : Starting.Moves version s i (.lose ran) _ _ _ :=
            .lose ran (by rw [hphase]; first | exact .inl rfl | exact .inr rfl)
          rw [hphase] at hmove
          exact ⟨_, rfl, hmove⟩

/-- What holds in every state. -/
structure Starting.Sound (version : ι → ℤ) (s : Starting ι) : Prop where
  exclusive : ∀ i, (s.phase i).inside → s.holder = some i
  untorn : s.catalog.Untorn
  fits : ∀ i, (s.phase i).Fits (version i) s.catalog

/-- A gateway that does not have the lock knows only that the layout holds its version. -/
theorem InitPhase.Fits.outside {phase : InitPhase} (h : phase.Fits v c) (hout : ¬ phase.inside)
    (hkeep : ∀ w, c.Holds w → c'.Holds w) : phase.Fits v c' := by
  cases phase with
  | returned result =>
      cases result with
      | ok u => exact hkeep v h
      | error e => trivial
  | locking => trivial
  | looking | marking | reading | creating | recording => exact absurd (.inl rfl) hout
  | unlocking result => exact absurd (.inr ⟨result, rfl⟩) hout

omit [DecidableEq ι] in
theorem Starting.sound_start (h : c.Untorn) : (Starting.start c : Starting ι).Sound version where
  exclusive i hi := by
    rcases hi with hw | ⟨result, hr⟩
    · cases hw
    · cases hr
  untorn := h
  fits i := trivial

theorem InitPhase.inside_of_check {found : Option ℤ} : (checkLayout v found).inside := by
  cases found with
  | none => exact .inr ⟨_, rfl⟩
  | some x =>
      rw [checkLayout]
      split
      · exact .inl rfl
      · exact .inr ⟨_, rfl⟩

theorem InitPhase.inside_next {phase : InitPhase} (h : phase.working = true) :
    (phase.next v c).inside := by
  cases phase with
  | looking =>
      rw [InitPhase.next]
      split <;> exact .inl rfl
  | marking =>
      rw [InitPhase.next]
      split
      · exact .inl rfl
      · exact InitPhase.inside_of_check
  | reading => exact InitPhase.inside_of_check
  | creating => exact .inl rfl
  | recording => exact .inr ⟨_, rfl⟩
  | locking | unlocking _ | returned _ => cases h

theorem Starting.Moves.catalog_cases {catalog : Catalog} {holder : Option ι} {phase : InitPhase}
    (h : Starting.Moves version s i event catalog holder phase) :
    catalog = s.catalog ∨ (s.phase i).working = true ∧
      catalog = (s.phase i).effect (version i) s.catalog := by
  cases h with
  | acquire | release | keep | refuseWait | refuse | hangUp => exact .inl rfl
  | work hw => exact .inr ⟨hw, rfl⟩
  | lose ran hp =>
      cases ran with
      | false => exact .inl rfl
      | true =>
          rcases hp with hp | hw
          · rw [hp]
            exact .inl rfl
          · exact .inr ⟨hw, rfl⟩

theorem Starting.Moves.holder_of_ne {catalog : Catalog} {holder : Option ι} {phase : InitPhase}
    (h : Starting.Moves version s i event catalog holder phase) {j : ι} (hj : j ≠ i)
    (hheld : s.holder = some j) : holder = some j := by
  have hne : s.holder ≠ some i := by
    rw [hheld]
    exact fun heq => hj (Option.some.inj heq)
  cases h with
  | acquire _ hfree =>
      rw [hheld] at hfree
      cases hfree
  | work | keep | refuseWait | refuse => exact hheld
  | release | lose => rw [if_neg hne, hheld]
  | hangUp _ _ hi => exact absurd hi hne

theorem Starting.Moves.inside {catalog : Catalog} {holder : Option ι} {phase : InitPhase}
    (hmove : Starting.Moves version s i event catalog holder phase) (h : s.Sound version)
    (hin : phase.inside) : holder = some i := by
  cases hmove with
  | acquire => rfl
  | work hw | refuse hw => exact h.exclusive i (.inl hw)
  | release | keep | refuseWait | lose | hangUp =>
      rcases hin with hw | ⟨result, hr⟩
      · cases hw
      · cases hr

theorem Starting.Moves.fits {catalog : Catalog} {holder : Option ι} {phase : InitPhase}
    (hmove : Starting.Moves version s i event catalog holder phase) (h : s.Sound version) :
    phase.Fits (version i) catalog := by
  have hfits := h.fits i
  cases hmove with
  | acquire | refuseWait | refuse | lose => trivial
  | work hw => exact hfits.next h.untorn hw
  | release hphase | keep hphase =>
      rw [hphase] at hfits
      exact hfits.returned
  | hangUp _ hphase => rwa [hphase] at hfits

omit [DecidableEq ι] in
theorem Starting.Sound.alone (h : s.Sound version) {j : ι} (hi : (s.phase i).inside)
    (hj : (s.phase j).inside) : i = j :=
  Option.some.inj ((h.exclusive i hi).symm.trans (h.exclusive j hj))

theorem Starting.Sound.step (h : s.Sound version) {e : ι × InitEvent}
    (hstep : InitStep version s e s') : s'.Sound version := by
  obtain ⟨phase, hphase, hmove⟩ := hstep.moves
  refine ⟨fun j hj => ?_, ?_, fun j => ?_⟩
  · rw [hphase] at hj
    by_cases hji : j = e.1
    · subst hji
      rw [Function.update_self] at hj
      exact hmove.inside h hj
    · rw [Function.update_of_ne hji] at hj
      exact hmove.holder_of_ne hji (h.exclusive j hj)
  · rcases hmove.catalog_cases with hc | ⟨-, hc⟩
    · rw [hc]
      exact h.untorn
    · rw [hc]
      exact (h.fits e.1).untorn h.untorn
  · rw [hphase]
    by_cases hji : j = e.1
    · subst hji
      rw [Function.update_self]
      exact hmove.fits h
    · rw [Function.update_of_ne hji]
      rcases hmove.catalog_cases with hc | ⟨hw, hc⟩
      · rw [hc]
        exact h.fits j
      · -- the gateway that steps has the lock, so the other one is outside
        rw [hc]
        exact (h.fits j).outside (fun hj => hji (h.alone hj (.inl hw))) fun w hw => hw.effect _

end Steps

/-! ## Every start -/

section Runs

variable {ι : Type*} [DecidableEq ι] {version : ι → ℤ} {s : Starting ι} {event : InitEvent}
  {events : List (ι × InitEvent)}

/-- The gateways that have started agree: the layout is marked with the version of each. -/
theorem layout_agreement (hc : c.Untorn)
    (hrun : Trace (InitStep version) (Starting.start c) events s) :
    (∀ i, s.phase i = .returned (.ok ()) → s.catalog.Holds (version i)) ∧
      ∀ i j, s.phase i = .returned (.ok ()) → s.phase j = .returned (.ok ()) →
        version i = version j := by
  have h : s.Sound version := hrun.invariant (fun _ _ _ hs hstep => hs.step hstep)
    (Starting.sound_start hc)
  have hholds : ∀ i, s.phase i = .returned (.ok ()) → s.catalog.Holds (version i) := by
    intro i hi
    have hfits := h.fits i
    rwa [hi] at hfits
  exact ⟨hholds, fun i j hi hj => (hholds i hi).unique (hholds j hj)⟩

def InitPhase.passed : InitPhase → Bool
  | .creating | .recording | .unlocking (.ok _) | .returned (.ok _) => true
  | _ => false

theorem InitPhase.passed_returned {result : Except InitError Unit} :
    (InitPhase.returned result).passed = (InitPhase.unlocking result).passed := by
  cases result <;> rfl

theorem InitPhase.not_passed_check {found : Option ℤ} (h : found ≠ some v) :
    (checkLayout v found).passed = false := by
  cases found with
  | none => rfl
  | some x =>
      rw [checkLayout, if_neg fun hx => h (congrArg some hx)]
      rfl

/-- A gateway stays outside a layout of another version. -/
theorem InitPhase.not_passed_next {phase : InitPhase} (h : phase.Fits v c)
    (hchunks : c.chunks = true) (hfound : c.found ≠ some v) (hp : phase.passed = false) :
    (phase.next v c).passed = false ∧ phase.effect v c = c := by
  cases phase with
  | looking => simp [InitPhase.next, InitPhase.effect, hchunks, InitPhase.passed]
  | marking =>
      refine ⟨?_, rfl⟩
      rw [InitPhase.next]
      split
      · rfl
      · rename_i hnone
        rw [Option.not_isSome_iff_eq_none] at hnone
        refine InitPhase.not_passed_check ?_
        rwa [Catalog.found, hnone] at hfound
  | reading =>
      refine ⟨?_, rfl⟩
      obtain ⟨versions, hversions⟩ := Option.isSome_iff_exists.mp h.2
      refine InitPhase.not_passed_check ?_
      rw [hversions, Option.getD_some]
      rwa [Catalog.found, hversions] at hfound
  | locking => exact ⟨rfl, rfl⟩
  | creating | recording => cases hp
  | unlocking result | returned result =>
      cases result with
      | ok u => cases hp
      | error e => exact ⟨rfl, rfl⟩

theorem Starting.Moves.not_passed {catalog : Catalog} {holder : Option ι} {phase : InitPhase} {i : ι}
    (h : Starting.Moves version s i event catalog holder phase) (hp : (s.phase i).passed = false)
    (hnext : ((s.phase i).next (version i) s.catalog).passed = false) : phase.passed = false := by
  cases h with
  | acquire | refuseWait | refuse | lose => rfl
  | work => exact hnext
  | release h | keep h =>
      rw [h] at hp
      exact InitPhase.passed_returned.trans hp
  | hangUp _ h => rwa [h] at hp

/-- Where no gateway is built for the layout that is there, or the layout is not marked, none
starts and the database is left as it is. -/
theorem layout_refused (hchunks : c.chunks = true) (hother : ∀ i, c.found ≠ some (version i))
    (hrun : Trace (InitStep version) (Starting.start c) events s) :
    s.catalog = c ∧ ∀ i, s.phase i ≠ .returned (.ok ()) := by
  have huntorn : c.Untorn := fun hnone => by rw [hchunks] at hnone; cases hnone
  have hkeep : ∀ (s : Starting ι) e s', s.Sound version →
      s.catalog = c ∧ (∀ i, (s.phase i).passed = false) → InitStep version s e s' →
        s'.catalog = c ∧ ∀ i, (s'.phase i).passed = false := by
    rintro s e s' hs ⟨rfl, hpassed⟩ hstep
    obtain ⟨phase, hphase, hmove⟩ := hstep.moves
    have hnext := InitPhase.not_passed_next (hs.fits e.1) hchunks (hother e.1) (hpassed e.1)
    refine ⟨?_, fun i => ?_⟩
    · rcases hmove.catalog_cases with hc | ⟨-, hc⟩
      · exact hc
      · exact hc.trans hnext.2
    · rw [hphase]
      by_cases hi : i = e.1
      · subst hi
        rw [Function.update_self]
        exact hmove.not_passed (hpassed e.1) hnext.1
      · rw [Function.update_of_ne hi]
        exact hpassed i
  obtain ⟨hcatalog, hpassed⟩ := hrun.invariant₂ (I := Starting.Sound version)
    (J := fun s => s.catalog = c ∧ ∀ i, (s.phase i).passed = false)
    (fun _ _ _ hs hstep => hs.step hstep) hkeep (Starting.sound_start huntorn)
    ⟨rfl, fun i => rfl⟩
  refine ⟨hcatalog, fun i hi => ?_⟩
  have hp := hpassed i
  rw [hi] at hp
  cases hp

/-- The states that starts on a fresh database can leave behind: nothing, a layout that is not
marked, or one that is marked by one of the gateways. -/
inductive Catalog.Left (version : ι → ℤ) (c : Catalog) : Catalog → Prop where
  | fresh : Left version c c
  | unmarked : Left version c ⟨true, some []⟩
  | marked (i) : Left version c ⟨true, some [version i]⟩

omit [DecidableEq ι] in
theorem Catalog.Left.effect {d : Catalog} {phase : InitPhase} {i : ι} (h : c.Left version d)
    (hfresh : c.layout.getD [] = []) (hfits : phase.Fits (version i) d) :
    c.Left version (phase.effect (version i) d) := by
  cases phase with
  | creating =>
      cases h with
      | fresh =>
          rw [InitPhase.effect, Catalog.schema, hfresh]
          exact .unmarked
      | unmarked => exact .unmarked
      | marked k => exact .marked k
  | recording =>
      cases h with
      | fresh =>
          obtain ⟨hchunks, versions, hversions, -⟩ := hfits
          obtain rfl : versions = [] := by rwa [hversions] at hfresh
          have hrecord : c.record (version i) = ⟨true, some [version i]⟩ := by
            simp [Catalog.record, hversions, hchunks]
          rw [InitPhase.effect, hrecord]
          exact .marked i
      | unmarked => exact .marked i
      | marked k => exact .marked k
  | looking | marking | reading | locking | unlocking _ | returned _ => exact h

/-- Whatever connections are lost on the way, a fresh database is left untouched, with a layout
that is not marked, or with one that is marked by a gateway. -/
theorem layout_left (hc : c.layout.getD [] = [])
    (hrun : Trace (InitStep version) (Starting.start c) events s) : c.Left version s.catalog := by
  refine hrun.invariant₂ (I := Starting.Sound version) (J := fun s => c.Left version s.catalog)
    (fun _ _ _ hs hstep => hs.step hstep) (fun s e s' hs hleft hstep => ?_)
    (Starting.sound_start fun _ => hc) .fresh
  obtain ⟨phase, -, hmove⟩ := hstep.moves
  rcases hmove.catalog_cases with hsame | ⟨-, heffect⟩
  · rwa [hsame]
  · rw [heffect]
    exact hleft.effect hc (hs.fits e.1)

end Runs

/-! ### Gateways of two versions -/

/-- A database of the first layout, which has no marker. -/
def firstLayout : Catalog := ⟨true, none⟩

/-- The second gateway loses its connection before the layout is marked. -/
theorem layout_left_lostConnection : ∃ s : Starting (Fin 2),
    Trace (InitStep ![layoutVersion, 2]) (Starting.start ⟨false, none⟩)
      [(1, .answer), (1, .answer), (1, .answer), (1, .lose false), (0, .answer)] s ∧
      Catalog.Left ![layoutVersion, 2] ⟨false, none⟩ s.catalog ∧ s.catalog = ⟨true, some []⟩ := by
  obtain ⟨s, hs⟩ := Option.isSome_iff_exists.mp (show (runAll
    (Starting.step ![layoutVersion, 2]) (Starting.start ⟨false, none⟩)
    [(1, .answer), (1, .answer), (1, .answer), (1, .lose false), (0, .answer)]).isSome by
      decide +kernel)
  have hcatalog : (runAll (Starting.step ![layoutVersion, 2]) (Starting.start ⟨false, none⟩)
      [(1, .answer), (1, .answer), (1, .answer), (1, .lose false), (0, .answer)]).map
        Starting.catalog = some ⟨true, some []⟩ := by
    decide +kernel
  rw [hs, Option.map_some, Option.some.injEq] at hcatalog
  have hrun := trace_iff_runAll.mpr hs
  exact ⟨s, hrun, layout_left rfl hrun, hcatalog⟩

/-- The first gateway keeps the lock until its connection is lost. -/
theorem layout_agreement_lostUnlock : ∃ s : Starting (Fin 2),
    s.phase 0 = .returned (.ok ()) ∧ s.phase 1 = .marking ∧ s.catalog.Holds layoutVersion := by
  obtain ⟨s, hs⟩ := Option.isSome_iff_exists.mp (show (runAll
    (Starting.step ![layoutVersion, 2]) (Starting.start ⟨false, none⟩)
    [(0, .answer), (0, .answer), (0, .answer), (0, .answer), (0, .refuse), (0, .lose true),
      (1, .answer), (1, .answer)]).isSome by decide +kernel)
  have hphase : (runAll (Starting.step ![layoutVersion, 2]) (Starting.start ⟨false, none⟩)
      [(0, .answer), (0, .answer), (0, .answer), (0, .answer), (0, .refuse), (0, .lose true),
        (1, .answer), (1, .answer)]).map (fun s => (s.phase 0, s.phase 1)) =
          some (.returned (.ok ()), .marking) := by
    decide +kernel
  rw [hs, Option.map_some, Option.some.injEq, Prod.mk.injEq] at hphase
  exact ⟨s, hphase.1, hphase.2,
    (layout_agreement (fun _ => rfl) (trace_iff_runAll.mpr hs)).1 0 hphase.1⟩

theorem layout_refused_firstLayout : ∃ s : Starting (Fin 2),
    Trace (InitStep ![layoutVersion, 2]) (Starting.start firstLayout)
      [(1, .answer), (1, .answer), (0, .lose true), (1, .answer), (1, .answer)] s ∧
      s.catalog = firstLayout ∧ ∀ i, s.phase i ≠ .returned (.ok ()) := by
  obtain ⟨s, hs⟩ := Option.isSome_iff_exists.mp (show (runAll
    (Starting.step ![layoutVersion, 2]) (Starting.start firstLayout)
    [(1, .answer), (1, .answer), (0, .lose true), (1, .answer), (1, .answer)]).isSome by
      decide +kernel)
  have hrun := trace_iff_runAll.mpr hs
  exact ⟨s, hrun, layout_refused rfl (by decide) hrun⟩

end Pgvs3
