import Pgvs3.Verification.Pipeline.Accounts

/-! # Every schedule of the read tasks

The tasks of all GETs that share a pool come to an end in any order of their steps, no task
waits for ever, and no slow client keeps a connection. -/

namespace Pgvs3

open Library

section Stuck

variable {ask : SpanAsk} {s : SpanTask} {slots : ℕ}

def SpanEvent.ofPart : SpanEvent → Bool
  | .part _ _ => true
  | _ => false

theorem SpanTask.part_stuck (hstuck : ∀ n e, s.step ask slots (.part n e) = none) {part : Part}
    (hpart : part ∈ s.parts) (e : PartEvent) : part.step slots e = none := by
  obtain ⟨n, hn⟩ := List.mem_iff_getElem?.mp hpart
  have hstep := hstuck n e
  simp only [SpanTask.step, hn, Option.map_eq_none_iff] at hstep
  exact hstep

/-- When no part task can go on, none of them holds a connection. -/
theorem SpanTask.Sound.holds_eq_zero (h : s.Sound ask)
    (hstuck : ∀ n e, s.step ask slots (.part n e) = none) : s.holds = 0 := by
  rw [SpanTask.holds, List.sum_eq_zero_iff]
  intro n hn
  obtain ⟨part, hpart, rfl⟩ := List.mem_map.mp hn
  rcases (h.parts part hpart).progress (SpanTask.part_stuck hstuck hpart) with hp | ⟨hp, -⟩ <;>
    simp [Part.holds, hp]

/-- A span that is over: every task has returned, and a client that stayed has taken all. -/
structure SpanTask.Over (s : SpanTask) : Prop where
  phase : s.phase = .done
  parts : ∀ part ∈ s.parts, part.phase = .done
  queue : s.reading = true → s.queue = []

/-- While a connection is free, only the client can keep a span from going on. -/
theorem SpanTask.Sound.over (h : s.Sound ask) (hfree : 0 < slots)
    (hstuck : ∀ e, e ≠ .hangUp → s.step ask slots e = none) : s.Over := by
  have hparts : ∀ part ∈ s.parts, part.phase = .done := by
    intro part hpart
    have hstep := SpanTask.part_stuck (fun n e => hstuck (.part n e) SpanEvent.noConfusion) hpart
    rcases (h.parts part hpart).progress hstep with hp | ⟨-, hnone⟩
    · exact hp
    · omega
  have hqueue : s.reading = true → s.queue = [] := by
    intro hreading
    have htake := hstuck .take SpanEvent.noConfusion
    cases hq : s.queue with
    | nil => rfl
    | cons m queue => simp [SpanTask.step, hq, hreading] at htake
  have hsend : s.phase.pending = none := by
    have hstep := hstuck .send SpanEvent.noConfusion
    cases hp : s.phase.pending with
    | none => rfl
    | some next =>
        cases hreading : s.reading with
        | false => simp [SpanTask.step, SpanTask.send, hp, hreading] at hstep
        | true =>
            simp [SpanTask.step, SpanTask.send, hp, hreading, hqueue hreading,
              responseQueue] at hstep
  refine ⟨?_, hparts, hqueue⟩
  cases hphase : s.phase with
  | done => rfl
  | filling =>
      have hfill := hstuck .fill SpanEvent.noConfusion
      simp [SpanTask.step, hphase] at hfill
  | draining early next =>
      have hrecv := hstuck .recv SpanEvent.noConfusion
      have hne := h.oldest (by rw [hphase]; rfl) (by rw [hphase]; exact SpanPhase.noConfusion)
      obtain ⟨part, rest, hlist⟩ := List.exists_cons_of_ne_nil hne
      have hdone := hparts part (by rw [hlist]; exact List.mem_cons_self ..)
      simp only [SpanTask.step, SpanTask.recv, hphase, hlist, hdone, if_true] at hrecv
      split at hrecv
      · cases hrecv
      · cases hrecv
      · split at hrecv <;> cases hrecv
  | sending c early next | flushing c | failing e =>
      rw [hphase] at hsend
      cases hsend

end Stuck

/-! ## All GETs of a pool -/

variable {ι : Type*} [DecidableEq ι] {ask : ι → SpanAsk} {max : ℕ} {s s' : ReadTasks ι}
  {events : List (ι × SpanEvent)}

theorem ReadStep.cases {e : ι × SpanEvent} (h : ReadStep ask s e s') : ∃ span,
    (s.spans e.1).step (ask e.1) s.slots e.2 = some (s'.slots, span) ∧
      s'.spans = Function.update s.spans e.1 span := by
  obtain ⟨i, e⟩ := e
  simp only [ReadStep, ReadTasks.step, Option.map_eq_some_iff] at h
  obtain ⟨⟨slots, span⟩, hstep, rfl⟩ := h
  exact ⟨span, hstep, rfl⟩

variable [Fintype ι]

/-- What holds of the tasks of a pool of `max` connections in every state. -/
structure ReadTasks.Sound (ask : ι → SpanAsk) (max : ℕ) (s : ReadTasks ι) : Prop where
  spans : ∀ i, (s.spans i).Sound (ask i)
  streams : ∀ i, (s.spans i).Streams (ask i)
  slots : s.slots + ∑ i, (s.spans i).holds = max

omit [DecidableEq ι] in
theorem ReadTasks.sound_start (hask : ∀ i, ServesRows (ask i).run) :
    (ReadTasks.start max ask).Sound ask max where
  spans i := SpanTask.sound_start (hask i)
  streams i := SpanTask.streams_start (ask i)
  slots := by
    have hzero : ∀ i, ((ReadTasks.start max ask).spans i).holds = 0 := fun i => rfl
    simp only [hzero, Finset.sum_const_zero]
    rfl

theorem ReadTasks.Sound.step (h : s.Sound ask max) {e : ι × SpanEvent} (hstep : ReadStep ask s e s') :
    s'.Sound ask max := by
  obtain ⟨span, hspan, hupdate⟩ := hstep.cases
  refine ⟨fun i => ?_, fun i => ?_, ?_⟩
  · rw [hupdate]
    by_cases hi : i = e.1
    · subst hi
      rw [Function.update_self]
      exact (h.spans _).step hspan
    · rw [Function.update_of_ne hi]
      exact h.spans i
  · rw [hupdate]
    by_cases hi : i = e.1
    · subst hi
      rw [Function.update_self]
      exact (h.streams _).step (h.spans _) hspan
    · rw [Function.update_of_ne hi]
      exact h.streams i
  · have hsum := sum_update_add (fun _ => SpanTask.holds) s.spans e.1 span
    have hslots := SpanTask.slots_add hspan
    have hall := h.slots
    rw [hupdate]
    omega

def ReadTasks.work (ask : ι → SpanAsk) (s : ReadTasks ι) : ℕ :=
  ∑ i, (s.spans i).work (ask i)

theorem readStep_variant (ask : ι → SpanAsk) (max : ℕ) :
    Variant (ReadStep ask) (ReadTasks.Sound ask max) (ReadTasks.work ask) where
  keeps _ _ _ hs hstep := hs.step hstep
  decreases s e s' _ hstep := by
    obtain ⟨span, hspan, hupdate⟩ := hstep.cases
    have hsum := sum_update_add (fun i => SpanTask.work (ask i)) s.spans e.1 span
    have hlt := SpanTask.work_lt hspan
    rw [ReadTasks.work, ReadTasks.work, hupdate]
    omega

/-- When the part tasks cannot go on, all connections are back. -/
theorem ReadTasks.Sound.slots_eq (h : s.Sound ask max)
    (hstuck : Stuck (Only (·.2.ofPart = true) (ReadStep ask)) s) : s.slots = max := by
  have hholds : ∀ i, (s.spans i).holds = 0 := by
    intro i
    have hnone : ∀ n e, (s.spans i).step (ask i) s.slots (.part n e) = none := by
      intro n e
      by_contra hne
      obtain ⟨⟨slots, span⟩, hspan⟩ := Option.ne_none_iff_exists'.mp hne
      exact hstuck (i, .part n e) _ ⟨rfl, by rw [ReadStep, ReadTasks.step, hspan]; rfl⟩
    exact (h.spans i).holds_eq_zero hnone
  have hall := h.slots
  simpa only [hholds, Finset.sum_const_zero, Nat.add_zero] using hall

/-- The tasks after any steps, in any order. -/
structure ReadTasks.Spec (ask : ι → SpanAsk) (max : ℕ) (events : List (ι × SpanEvent))
    (s : ReadTasks ι) : Prop where
  /-- There is an end to what the tasks and their clients can do. -/
  bounded : events.length ≤ ∑ i, (ask i).work
  /-- A client has the beginning of its response. -/
  received : ∀ i, (s.spans i).received <+: spanMessages (ask i).response
  /-- When nothing but a client's leaving can happen any more, every connection is back, every
  task has returned, and every client that stayed has its whole response. -/
  complete : Stuck (Only (·.2 ≠ .hangUp) (ReadStep ask)) s → s.slots = max ∧
    ∀ i, (s.spans i).Over ∧
      ((s.spans i).reading = true → (s.spans i).received = spanMessages (ask i).response)

theorem reads_sound (hask : ∀ i, ServesRows (ask i).run)
    (hrun : Trace (ReadStep ask) (ReadTasks.start max ask) events s) : s.Sound ask max :=
  hrun.invariant (fun _ _ _ hs hstep => hs.step hstep) (ReadTasks.sound_start hask)

theorem ReadTasks.Sound.complete (h : s.Sound ask max) (hmax : 0 < max)
    (hstuck : Stuck (Only (·.2 ≠ .hangUp) (ReadStep ask)) s) : s.slots = max ∧ ∀ i,
      (s.spans i).Over ∧
        ((s.spans i).reading = true → (s.spans i).received = spanMessages (ask i).response) := by
  have hslots : s.slots = max := by
    refine h.slots_eq fun e t ⟨hpart, hstep⟩ => hstuck e t ⟨fun he => ?_, hstep⟩
    have hpart : e.2.ofPart = true := hpart
    rw [he] at hpart
    cases hpart
  refine ⟨hslots, fun i => ?_⟩
  have hover : (s.spans i).Over := by
    have hnone : ∀ e, e ≠ .hangUp → (s.spans i).step (ask i) s.slots e = none := by
      intro e he
      by_contra hne
      obtain ⟨⟨slots, span⟩, hspan⟩ := Option.ne_none_iff_exists'.mp hne
      exact hstuck (i, e) _ ⟨he, by rw [ReadStep, ReadTasks.step, hspan]; rfl⟩
    exact (h.spans i).over (hslots ▸ hmax) hnone
  refine ⟨hover, fun hreading => ?_⟩
  have hall := (h.streams i).returned hreading hover.phase
  rwa [hover.queue hreading, List.append_nil] at hall

/-- In every schedule of the GETs of a pool, the responses are those of the queries run one
after the other, and all of them end. -/
theorem reads_complete (hmax : 0 < max) (hask : ∀ i, ServesRows (ask i).run)
    (hrun : Trace (ReadStep ask) (ReadTasks.start max ask) events s) : s.Spec ask max events := by
  have h := reads_sound hask hrun
  refine ⟨?_, fun i => (h.streams i).isPrefix, h.complete hmax⟩
  have hlen := (readStep_variant ask max).length_add_le (ReadTasks.sound_start hask) hrun
  have hwork : (ReadTasks.start max ask).work ask = ∑ i, (ask i).work :=
    Finset.sum_congr rfl fun i _ => SpanTask.work_start (ask i)
  omega

/-! ### Two GETs on one connection -/

/-- Two files of one row each. -/
def twoFiles : Db :=
  { Db.empty with chunks := { rows := [⟨1, 0, [7, 8, 9]⟩, ⟨2, 0, [4, 5]⟩], nodup := by decide } }

/-- The object that they make up, in a database at rest. -/
def twoFilesAsk (start stop : ℤ) : SpanAsk where
  m := ⟨5, [], 0, 0, some [1, 2], some [3, 5]⟩
  start := start
  stop := stop
  run p := ⟨selectRows twoFiles p, none⟩

theorem answers_twoFiles (start stop : ℤ) : ServesRows (twoFilesAsk start stop).run :=
  fun p => ⟨twoFiles, List.Subperm.refl (selectRows twoFiles p)⟩

/-- One of two clients leaves while its parts wait for the connection. -/
def sharedSchedule : List (Bool × SpanEvent) :=
  [(false, .fill), (true, .fill), (false, .part 0 .acquire), (false, .part 0 .advance),
    (true, .hangUp), (false, .part 0 .advance), (false, .recv), (true, .part 1 .acquire),
    (false, .recv), (false, .fill), (true, .part 1 .advance), (true, .part 1 .advance),
    (false, .part 0 .acquire), (false, .part 0 .advance), (false, .recv),
    (false, .part 0 .advance), (false, .recv), (false, .fill), (false, .send), (false, .take)]

def sharedAsks : Bool → SpanAsk
  | false => twoFilesAsk 0 4
  | true => twoFilesAsk 1 3

theorem answers_shared : ∀ i, ServesRows (sharedAsks i).run := by
  intro i
  cases i with
  | false => exact answers_twoFiles 0 4
  | true => exact answers_twoFiles 1 3

/-- The client that stays ends with the whole object. -/
theorem shared_run : ∃ s : ReadTasks Bool,
    Trace (ReadStep sharedAsks) (ReadTasks.start 1 sharedAsks) sharedSchedule s ∧
      (s.spans false).received = [.ok [7, 8, 9, 4, 5]] := by
  obtain ⟨s, hs⟩ := Option.isSome_iff_exists.mp (show (runAll (ReadTasks.step sharedAsks)
    (ReadTasks.start 1 sharedAsks) sharedSchedule).isSome by decide +kernel)
  have hreceived : (runAll (ReadTasks.step sharedAsks) (ReadTasks.start 1 sharedAsks)
      sharedSchedule).map (fun s => (s.spans false).received) = some [.ok [7, 8, 9, 4, 5]] := by
    decide +kernel
  rw [hs, Option.map_some, Option.some.injEq] at hreceived
  exact ⟨s, trace_iff_runAll.mpr hs, hreceived⟩

theorem reads_complete_sharedConnection : ∃ s : ReadTasks Bool,
    s.Spec sharedAsks 1 sharedSchedule ∧ (s.spans false).received = [.ok [7, 8, 9, 4, 5]] := by
  obtain ⟨s, hrun, hreceived⟩ := shared_run
  exact ⟨s, reads_complete (by decide) answers_shared hrun, hreceived⟩

/-! ## Slow clients -/

theorem SpanTask.part_frame {ask : SpanAsk} {s s' : SpanTask} {slots slots' : ℕ} {e : SpanEvent}
    (he : e.ofPart = true) (hstep : s.step ask slots e = some (slots', s')) :
    s'.phase = s.phase ∧ s'.queue = s.queue ∧ s'.received = s.received := by
  cases e with
  | part n e =>
      cases SpanTask.moves hstep
      exact ⟨rfl, rfl, rfl⟩
  | fill | recv | send | take | hangUp => cases he

/-- The span tasks and the clients are where they were. -/
def ReadTasks.SameSpans (s s' : ReadTasks ι) : Prop :=
  ∀ i, (s'.spans i).phase = (s.spans i).phase ∧ (s'.spans i).queue = (s.spans i).queue ∧
    (s'.spans i).received = (s.spans i).received

omit [Fintype ι] in
theorem sameSpans_run (hrun : Trace (Only (·.2.ofPart = true) (ReadStep ask)) s events s') :
    s.SameSpans s' := by
  induction hrun with
  | nil => exact fun i => ⟨rfl, rfl, rfl⟩
  | @cons s t u e events hstep _ ih =>
      obtain ⟨span, hspan, hupdate⟩ := hstep.2.cases
      intro i
      obtain ⟨hphase, hqueue, hreceived⟩ := ih i
      rw [hphase, hqueue, hreceived, hupdate]
      by_cases hi : i = e.1
      · subst hi
        rw [Function.update_self]
        exact SpanTask.part_frame hstep.1 hspan
      · rw [Function.update_of_ne hi]
        exact ⟨rfl, rfl, rfl⟩

/-- From whatever state, the part tasks give all connections back by themselves: no span task
takes a row and no client takes a chunk while they do. -/
theorem connections_come_back (hask : ∀ i, ServesRows (ask i).run)
    (hrun : Trace (ReadStep ask) (ReadTasks.start max ask) events s) :
    (∃ own t, Trace (Only (·.2.ofPart = true) (ReadStep ask)) s own t ∧ s.SameSpans t ∧
      t.slots = max) ∧
    ∀ own t, Trace (Only (·.2.ofPart = true) (ReadStep ask)) s own t →
      own.length ≤ s.work ask ∧
        (Stuck (Only (·.2.ofPart = true) (ReadStep ask)) t → t.slots = max) := by
  have h := reads_sound hask hrun
  have hvariant : Variant (Only (·.2.ofPart = true) (ReadStep ask)) _ _ :=
    (readStep_variant ask max).mono fun _ _ _ hstep => hstep.2
  refine ⟨?_, fun own t hown => ⟨?_, fun hstuck => ?_⟩⟩
  · obtain ⟨own, t, hown, hstuck⟩ := hvariant.exists_stuck h
    exact ⟨own, t, hown, sameSpans_run hown,
      (hown.invariant hvariant.keeps h).slots_eq hstuck⟩
  · have hlen := hvariant.length_add_le h hown
    omega
  · exact (hown.invariant hvariant.keeps h).slots_eq hstuck

/-- A client reads nothing at all. -/
def idleSchedule : List (Bool × SpanEvent) :=
  [(false, .fill), (true, .fill), (false, .part 1 .acquire), (false, .part 1 .advance)]

theorem connections_come_back_idleClient : ∃ s : ReadTasks Bool, s.slots = 0 ∧
    ∃ own t, Trace (Only (·.2.ofPart = true) (ReadStep sharedAsks)) s own t ∧ s.SameSpans t ∧
      t.slots = 1 := by
  obtain ⟨s, hs⟩ := Option.isSome_iff_exists.mp (show (runAll (ReadTasks.step sharedAsks)
    (ReadTasks.start 1 sharedAsks) idleSchedule).isSome by decide +kernel)
  have hslots : (runAll (ReadTasks.step sharedAsks) (ReadTasks.start 1 sharedAsks)
      idleSchedule).map ReadTasks.slots = some 0 := by
    decide +kernel
  rw [hs, Option.map_some, Option.some.injEq] at hslots
  exact ⟨s, hslots, (connections_come_back answers_shared (trace_iff_runAll.mpr hs)).1⟩

end Pgvs3
