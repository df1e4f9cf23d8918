import Pgvs3.Verification.Pipeline.Parts

/-! # Span tasks

What holds of a span task and its part tasks in every state. -/

namespace Pgvs3

open Library

variable {ask : SpanAsk} {s s' : SpanTask} {slots slots' : ℕ}

/-! ## Steps -/

/-- What can happen to a span: the slots and the tasks after it. -/
inductive SpanTask.Moves (ask : SpanAsk) (slots : ℕ) (s : SpanTask) :
    SpanEvent → ℕ → SpanTask → Prop where
  | fill (hphase : s.phase = .filling) : Moves ask slots s .fill slots (s.fill ask)
  | row {early next part rest row queue} (hphase : s.phase = .draining early next)
      (hparts : s.parts = part :: rest) (hqueue : part.queue = .ok row :: queue) :
      Moves ask slots s .recv slots
        (SpanTask.row ask { s with parts := { part with queue := queue } :: rest } part.piece early
          next row)
  | partFailed {early next part rest e queue} (hphase : s.phase = .draining early next)
      (hparts : s.parts = part :: rest) (hqueue : part.queue = .error e :: queue) :
      Moves ask slots s .recv slots (s.leave (.failing e))
  | partDone {early next part rest} (hphase : s.phase = .draining early next)
      (hparts : s.parts = part :: rest) (hqueue : part.queue = []) (hdone : part.phase = .done)
      (hnext : part.piece.hi < next) :
      Moves ask slots s .recv slots { s with phase := .filling, parts := rest }
  | rowMissing {early next part rest} (hphase : s.phase = .draining early next)
      (hparts : s.parts = part :: rest) (hqueue : part.queue = []) (hdone : part.phase = .done)
      (hnext : ¬ part.piece.hi < next) :
      Moves ask slots s .recv slots
        (s.leave (.failing (.rowMissing part.piece.fileId part.piece.lo part.piece.hi next)))
  | send {message phase} (hpending : s.phase.pending = some (message, phase))
      (hreading : s.reading = true) (hroom : s.queue.length < responseQueue) :
      Moves ask slots s .send slots { s with queue := s.queue ++ [message], phase := phase }
  | sendClosed {message phase} (hpending : s.phase.pending = some (message, phase))
      (hreading : s.reading = false) : Moves ask slots s .send slots (s.leave .done)
  | take {message queue} (hqueue : s.queue = message :: queue) (hreading : s.reading = true) :
      Moves ask slots s .take slots
        { s with queue := queue, received := s.received ++ [message] }
  | hangUp (hreading : s.reading = true) :
      Moves ask slots s .hangUp slots { s with reading := false, queue := [] }
  | part {n e part part' slots'} (hpart : s.parts[n]? = some part)
      (hmove : part.Moves slots slots' part') :
      Moves ask slots s (.part n e) slots' { s with parts := s.parts.set n part' }

theorem SpanTask.moves {e : SpanEvent} (h : s.step ask slots e = some (slots', s')) :
    s.Moves ask slots e slots' s' := by
  cases e with
  | fill =>
      simp only [SpanTask.step, Option.ite_none_right_eq_some, Option.some.injEq,
        Prod.mk.injEq] at h
      obtain ⟨hphase, rfl, rfl⟩ := h
      exact .fill hphase
  | recv =>
      simp only [SpanTask.step, Option.map_eq_some_iff, Prod.mk.injEq] at h
      obtain ⟨t, ht, rfl, rfl⟩ := h
      unfold SpanTask.recv at ht
      split at ht
      · rename_i hphase hparts
        dsimp only at ht
        split at ht
        · rename_i hqueue
          cases ht
          exact .row hphase hparts hqueue
        · rename_i hqueue
          cases ht
          exact .partFailed hphase hparts hqueue
        · rename_i hqueue
          split at ht
          · rename_i hdone
            split at ht
            · rename_i hnext
              cases ht
              exact .partDone hphase hparts hqueue hdone hnext
            · rename_i hnext
              cases ht
              exact .rowMissing hphase hparts hqueue hdone hnext
          · cases ht
      · cases ht
  | send =>
      simp only [SpanTask.step, Option.map_eq_some_iff, Prod.mk.injEq] at h
      obtain ⟨t, ht, rfl, rfl⟩ := h
      unfold SpanTask.send at ht
      split at ht
      · rename_i hpending
        split at ht
        · rename_i hreading
          split at ht
          · rename_i hroom
            cases ht
            exact .send hpending hreading hroom
          · cases ht
        · rename_i hreading
          cases ht
          exact .sendClosed hpending (by simpa using hreading)
      · cases ht
  | take =>
      simp only [SpanTask.step] at h
      split at h
      · rename_i hqueue
        split at h
        · rename_i hreading
          cases h
          exact .take hqueue hreading
        · cases h
      · cases h
  | hangUp =>
      simp only [SpanTask.step, Option.ite_none_right_eq_some, Option.some.injEq,
        Prod.mk.injEq] at h
      obtain ⟨hreading, rfl, rfl⟩ := h
      exact .hangUp hreading
  | part n e =>
      simp only [SpanTask.step] at h
      split at h
      · rename_i part hpart
        simp only [Option.map_eq_some_iff, Prod.mk.injEq] at h
        obtain ⟨⟨slots'', part'⟩, hmove, rfl, rfl⟩ := h
        exact .part hpart (Part.moves hmove)
      · cases h

/-! ## The invariant -/

def SpanPhase.working : SpanPhase → Bool
  | .filling | .draining _ _ | .sending _ _ _ => true
  | .flushing _ | .failing _ | .done => false

/-- What holds of the tasks of a span in every state. -/
structure SpanTask.Sound (ask : SpanAsk) (s : SpanTask) : Prop where
  parts : ∀ part ∈ s.parts, part.Sound ask.run
  todo : ∀ p ∈ s.todo, p.Fits ask.run
  /-- The span task holds the receivers until it returns. -/
  watched : s.phase.working = true → ∀ part ∈ s.parts, part.watched = true
  /-- The part that is drained is there. -/
  oldest : s.phase.working = true → s.phase ≠ .filling → s.parts ≠ []

theorem SpanTask.sound_start (h : ServesRows ask.run) : (SpanTask.start ask).Sound ask where
  parts part hp := by cases hp
  todo p hp := h.fits (plan_nonempty hp)
  watched _ part hp := by cases hp
  oldest _ hne := absurd rfl hne

theorem SpanTask.Sound.leave (h : s.Sound ask) {phase : SpanPhase} (hp : phase.working = false) :
    (s.leave phase).Sound ask where
  parts part hpart := by
    obtain ⟨part, hmem, rfl⟩ := List.mem_map.mp hpart
    exact (h.parts part hmem).abandon
  todo := h.todo
  watched hw := absurd (hp.symm.trans hw) (by decide)
  oldest hw := absurd (hp.symm.trans hw) (by decide)

theorem SpanTask.sound_of_nil (hparts : s.parts = []) (htodo : ∀ p ∈ s.todo, p.Fits ask.run)
    (hp : s.phase.working = false) : s.Sound ask where
  parts part hpart := by
    rw [hparts] at hpart
    cases hpart
  todo := htodo
  watched hw := absurd (hp.symm.trans hw) (by decide)
  oldest hw := absurd (hp.symm.trans hw) (by decide)

theorem SpanTask.Sound.fill (h : s.Sound ask) (hphase : s.phase = .filling) :
    (s.fill ask).Sound ask := by
  have hworking : s.phase.working = true := by rw [hphase]; rfl
  have hparts : ∀ part ∈ s.parts ++ (s.todo.take (partsInflight - s.parts.length)).map
      (spawnPart ask.run), part.Sound ask.run ∧ part.watched = true := by
    intro part hpart
    rcases List.mem_append.mp hpart with hpart | hpart
    · exact ⟨h.parts part hpart, h.watched hworking part hpart⟩
    · obtain ⟨p, hp, rfl⟩ := List.mem_map.mp hpart
      exact ⟨Part.sound_spawn (h.todo p (List.mem_of_mem_take hp)), rfl⟩
  have htodo : ∀ p ∈ s.todo.drop (partsInflight - s.parts.length), p.Fits ask.run :=
    fun p hp => h.todo p (List.mem_of_mem_drop hp)
  unfold SpanTask.fill
  dsimp only
  split
  · rename_i part rest hlist
    exact
      { parts := fun part hp => (hparts part hp).1
        todo := htodo
        watched := fun _ part hp => (hparts part hp).2
        oldest := fun _ _ hnil => absurd (hlist.symm.trans hnil) (List.cons_ne_nil _ _) }
  · rename_i hlist
    split
    · exact sound_of_nil hlist htodo rfl
    · split
      · exact sound_of_nil hlist htodo rfl
      · exact sound_of_nil hlist htodo rfl

theorem SpanTask.Sound.row (h : s.Sound ask) (hw : s.phase.working = true) {part : Part}
    {rest : List Part} (hparts : s.parts = part :: rest) {p : Piece} {early : List ChunkRow}
    {next : ℤ} {row : ChunkRow} : (s.row ask p early next row).Sound ask := by
  have hfields : (s.row ask p early next row).parts = s.parts ∧
      (s.row ask p early next row).todo = s.todo := by
    unfold SpanTask.row
    dsimp only
    split
    · exact ⟨rfl, rfl⟩
    · split <;> exact ⟨rfl, rfl⟩
  refine ⟨?_, ?_, fun _ => ?_, fun _ _ => ?_⟩
  · rw [hfields.1]
    exact h.parts
  · rw [hfields.2]
    exact h.todo
  · rw [hfields.1]
    exact h.watched hw
  · rw [hfields.1, hparts]
    exact List.cons_ne_nil _ _

theorem Part.Sound.taken {run : Piece → PartRun} {part : Part} (h : part.Sound run)
    {m : Except ReadError ChunkRow} {queue : Fetch} (hqueue : part.queue = m :: queue) :
    Part.Sound run { part with queue := queue } where
  isSuffix := h.isSuffix
  room hw := by
    have hroom := h.room hw
    rw [hqueue, List.length_cons] at hroom
    dsimp only
    omega
  reporting := h.reporting
  done := h.done

theorem SpanTask.Sound.taken (h : s.Sound ask) (hw : s.phase.working = true) {part : Part}
    {rest : List Part} (hparts : s.parts = part :: rest) {m : Except ReadError ChunkRow}
    {queue : Fetch} (hqueue : part.queue = m :: queue) :
    SpanTask.Sound ask { s with parts := { part with queue := queue } :: rest } := by
  have hwatched := h.watched hw
  have hsound := h.parts
  rw [hparts] at hwatched hsound
  refine ⟨fun q hq => ?_, h.todo, fun _ q hq => ?_, fun _ _ => List.cons_ne_nil _ _⟩
  · rcases List.mem_cons.mp hq with rfl | hq
    · exact (hsound part (List.mem_cons_self ..)).taken hqueue
    · exact hsound q (List.mem_cons_of_mem _ hq)
  · rcases List.mem_cons.mp hq with rfl | hq
    · exact hwatched part (List.mem_cons_self ..)
    · exact hwatched q (List.mem_cons_of_mem _ hq)

theorem SpanTask.Sound.drained (h : s.Sound ask) (hw : s.phase.working = true) {part : Part}
    {rest : List Part} (hparts : s.parts = part :: rest) :
    SpanTask.Sound ask { s with phase := .filling, parts := rest } := by
  have hwatched := h.watched hw
  have hsound := h.parts
  rw [hparts] at hwatched hsound
  exact ⟨fun q hq => hsound q (List.mem_cons_of_mem _ hq), h.todo,
    fun _ q hq => hwatched q (List.mem_cons_of_mem _ hq), fun _ hne => absurd rfl hne⟩

theorem SpanPhase.working_of_pending {phase phase' : SpanPhase} {m : Except ReadError Bytes}
    (h : phase.pending = some (m, phase')) (hw : phase'.working = true) :
    phase.working = true ∧ phase ≠ .filling := by
  cases phase with
  | sending c early next => exact ⟨rfl, SpanPhase.noConfusion⟩
  | flushing c | failing e =>
      cases h
      cases hw
  | filling | draining early next | done => cases h

theorem SpanTask.Sound.step (h : s.Sound ask) {e : SpanEvent}
    (hstep : s.step ask slots e = some (slots', s')) : s'.Sound ask := by
  cases SpanTask.moves hstep with
  | fill hphase => exact h.fill hphase
  | row hphase hparts hqueue =>
      have hw : s.phase.working = true := by rw [hphase]; rfl
      exact (h.taken hw hparts hqueue).row hw rfl
  | partDone hphase hparts => exact h.drained (by rw [hphase]; rfl) hparts
  | partFailed | rowMissing | sendClosed => exact h.leave rfl
  | send hpending =>
      have hwas := fun hw => SpanPhase.working_of_pending hpending hw
      exact ⟨h.parts, h.todo, fun hw => h.watched (hwas hw).1,
        fun hw _ => h.oldest (hwas hw).1 (hwas hw).2⟩
  | take | hangUp => exact ⟨h.parts, h.todo, h.watched, h.oldest⟩
  | @part n _ part _ _ hpart hmove =>
      have hmem : part ∈ s.parts := List.mem_of_getElem? hpart
      refine ⟨fun q hq => ?_, h.todo, fun hw q hq => ?_, fun hw hne => ?_⟩
      · rcases List.mem_or_eq_of_mem_set hq with hq | rfl
        · exact h.parts q hq
        · exact (h.parts part hmem).moves hmove
      · rcases List.mem_or_eq_of_mem_set hq with hq | rfl
        · exact h.watched hw q hq
        · exact hmove.watched.trans (h.watched hw part hmem)
      · exact fun hnil => h.oldest hw hne (by simpa using hnil)

end Pgvs3
