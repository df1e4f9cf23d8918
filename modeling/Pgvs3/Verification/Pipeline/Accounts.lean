import Pgvs3.Verification.Pipeline.Stream

/-! # What the read tasks hold and have left to do

A step gives back the slots that it stops holding, and leaves less to do than there was. -/

namespace Pgvs3

open Library

variable {ask : SpanAsk} {s s' : SpanTask} {slots slots' : ℕ}

/-! ## Connections -/

def SpanTask.holds (s : SpanTask) : ℕ := (s.parts.map Part.holds).sum

@[simp] theorem Part.holds_spawn (run : Piece → PartRun) (p : Piece) :
    (spawnPart run p).holds = 0 := rfl

@[simp] theorem Part.holds_abandon (part : Part) : part.abandon.holds = part.holds := rfl

theorem SpanTask.holds_leave (phase : SpanPhase) : (s.leave phase).holds = s.holds := by
  simp only [SpanTask.holds, SpanTask.leave, List.map_map]
  rfl

theorem SpanTask.holds_fill : (s.fill ask).holds = s.holds := by
  have hspawned : ∀ pieces : List Piece,
      ((pieces.map (spawnPart ask.run)).map Part.holds).sum = 0 := by
    intro pieces
    rw [List.map_map, List.sum_eq_zero_iff]
    intro n hn
    obtain ⟨p, -, rfl⟩ := List.mem_map.mp hn
    rfl
  have hall : (s.fill ask).parts =
      s.parts ++ (s.todo.take (partsInflight - s.parts.length)).map (spawnPart ask.run) := by
    unfold SpanTask.fill
    dsimp only
    split
    · rfl
    · split
      · rfl
      · split <;> rfl
  rw [SpanTask.holds, hall, List.map_append, List.sum_append, hspawned, Nat.add_zero]
  rfl

theorem SpanTask.parts_row {p : Piece} {early : List ChunkRow} {next : ℤ} {row : ChunkRow} :
    (s.row ask p early next row).parts = s.parts := by
  unfold SpanTask.row
  dsimp only
  split
  · rfl
  · split <;> rfl

/-- The slots that a span takes are those that its parts hold. -/
theorem SpanTask.slots_add {e : SpanEvent} (hstep : s.step ask slots e = some (slots', s')) :
    slots' + s'.holds = slots + s.holds := by
  cases SpanTask.moves hstep with
  | fill => rw [SpanTask.holds_fill]
  | row hphase hparts =>
      simp only [SpanTask.holds, SpanTask.parts_row, hparts, List.map_cons]
      rfl
  | partDone hphase hparts hqueue hdone =>
      simp [SpanTask.holds, hparts, Part.holds, hdone]
  | partFailed | rowMissing | sendClosed => rw [SpanTask.holds_leave]
  | send | take | hangUp => rfl
  | @part _ _ _ part' _ hpart hmove =>
      have hset := sum_map_set_add Part.holds hpart part'
      have hslots := hmove.slots_add
      simp only [SpanTask.holds]
      omega

/-! ## Work left -/

def Piece.work (run : Piece → PartRun) (p : Piece) : ℕ := 5 + 4 * (run p).messages.length

def PartPhase.work : PartPhase → ℕ
  | .acquiring => 3
  | .fetching => 2
  | .reporting => 1
  | .done => 0

def Part.work (part : Part) : ℕ :=
  2 + 4 * part.todo.length + 3 * part.queue.length + part.phase.work

def SpanPhase.work : SpanPhase → ℕ
  | .filling => 4
  | .draining _ _ => 3
  | .sending _ _ _ => 5
  | .flushing _ => 2
  | .failing _ => 2
  | .done => 0

section Phases

variable (c : Bytes) (early : List ChunkRow) (next : ℤ) (e : ReadError)

@[simp] theorem PartPhase.work_acquiring : PartPhase.acquiring.work = 3 := rfl
@[simp] theorem PartPhase.work_fetching : PartPhase.fetching.work = 2 := rfl
@[simp] theorem PartPhase.work_reporting : PartPhase.reporting.work = 1 := rfl
@[simp] theorem PartPhase.work_done : PartPhase.done.work = 0 := rfl
@[simp] theorem SpanPhase.work_filling : SpanPhase.filling.work = 4 := rfl
@[simp] theorem SpanPhase.work_draining : (SpanPhase.draining early next).work = 3 := rfl
@[simp] theorem SpanPhase.work_sending : (SpanPhase.sending c early next).work = 5 := rfl
@[simp] theorem SpanPhase.work_flushing : (SpanPhase.flushing c).work = 2 := rfl
@[simp] theorem SpanPhase.work_failing : (SpanPhase.failing e).work = 2 := rfl
@[simp] theorem SpanPhase.work_done : SpanPhase.done.work = 0 := rfl

end Phases

/-- The steps that a span and its client can still take, at most. -/
def SpanTask.work (ask : SpanAsk) (s : SpanTask) : ℕ :=
  (s.todo.map (Piece.work ask.run)).sum + (s.parts.map Part.work).sum + s.phase.work +
    s.queue.length + s.reading.toNat

def SpanAsk.work (ask : SpanAsk) : ℕ :=
  5 + ((plan ask.m ask.start ask.stop partRows).map (Piece.work ask.run)).sum

theorem SpanTask.work_start (ask : SpanAsk) : (SpanTask.start ask).work ask = ask.work := by
  simp [SpanTask.work, SpanTask.start, SpanAsk.work]
  omega

theorem Part.work_spawn (run : Piece → PartRun) (p : Piece) :
    (spawnPart run p).work = p.work run := by
  simp only [Part.work, Piece.work, spawnPart, List.length_nil, PartPhase.work_acquiring]
  omega

theorem Part.work_abandon_le (part : Part) : part.abandon.work ≤ part.work := by
  simp only [Part.work, Part.abandon, List.length_nil]
  omega

theorem Part.Moves.work_lt {part part' : Part} (h : part.Moves slots slots' part') :
    part'.work < part.work := by
  cases h with
  | acquire hphase _ | giveUp hphase _ | finish hphase _ | fail hphase _ => simp [Part.work, hphase]
  | row _ htodo _ =>
      simp [Part.work, htodo]
      omega
  | stop hphase _ | ignore hphase _ =>
      simp only [Part.work, hphase, List.length_nil, PartPhase.work_done]
      simp only [PartPhase.work_fetching, PartPhase.work_reporting]
      omega
  | report hphase htodo _ =>
      simp [Part.work, hphase, htodo]
      omega

theorem SpanTask.work_leave_lt {phase : SpanPhase} (h : phase.work < s.phase.work) :
    (s.leave phase).work ask < s.work ask := by
  have hparts : ((s.parts.map Part.abandon).map Part.work).sum ≤ (s.parts.map Part.work).sum := by
    rw [List.map_map]
    exact List.sum_le_sum fun part _ => Part.work_abandon_le part
  simp only [SpanTask.work, SpanTask.leave]
  omega

theorem SpanTask.work_fill_lt (hphase : s.phase = .filling) : (s.fill ask).work ask < s.work ask := by
  have hmoved : (s.todo.map (Piece.work ask.run)).sum + (s.parts.map Part.work).sum =
      ((s.todo.drop (partsInflight - s.parts.length)).map (Piece.work ask.run)).sum +
        ((s.parts ++ (s.todo.take (partsInflight - s.parts.length)).map
          (spawnPart ask.run)).map Part.work).sum := by
    have hspawned : Part.work ∘ spawnPart ask.run = Piece.work ask.run :=
      funext fun p => Part.work_spawn ask.run p
    have hsplit := congrArg (fun l => (l.map (Piece.work ask.run)).sum)
      (List.take_append_drop (partsInflight - s.parts.length) s.todo)
    simp only [List.map_append, List.sum_append] at hsplit
    rw [List.map_append, List.sum_append, List.map_map, hspawned]
    omega
  have hwork : s.phase.work = 4 := by rw [hphase]; rfl
  unfold SpanTask.fill
  dsimp only
  split
  · simp only [SpanTask.work, SpanPhase.work_draining, hwork]
    omega
  · split
    · simp only [SpanTask.work, SpanPhase.work_failing, hwork]
      omega
    · split
      · simp only [SpanTask.work, SpanPhase.work_flushing, hwork]
        omega
      · simp only [SpanTask.work, SpanPhase.work_done, hwork]
        omega

theorem SpanTask.work_row_le {p : Piece} {early : List ChunkRow} {next : ℤ} {row : ChunkRow}
    (hwork : s.phase.work = 3) : (s.row ask p early next row).work ask ≤ s.work ask + 2 := by
  unfold SpanTask.row
  dsimp only
  split
  · simp only [SpanTask.work, SpanPhase.work_draining, hwork]
    omega
  · split
    · simp only [SpanTask.work, SpanPhase.work_sending, hwork]
      omega
    · simp only [SpanTask.work, SpanPhase.work_draining, hwork]
      omega

theorem SpanPhase.work_of_pending {phase phase' : SpanPhase} {m : Except ReadError Bytes}
    (h : phase.pending = some (m, phase')) : phase'.work + 2 = phase.work := by
  cases phase with
  | sending c early next | flushing c | failing e =>
      cases h
      rfl
  | filling | draining early next | done => cases h

theorem SpanTask.work_lt {e : SpanEvent} (hstep : s.step ask slots e = some (slots', s')) :
    s'.work ask < s.work ask := by
  cases SpanTask.moves hstep with
  | fill hphase => exact SpanTask.work_fill_lt hphase
  | row hphase hparts hqueue =>
      refine lt_of_le_of_lt (SpanTask.work_row_le (by rw [hphase]; rfl)) ?_
      simp only [SpanTask.work, hparts, List.map_cons, List.sum_cons, Part.work, hqueue,
        List.length_cons]
      omega
  | partDone hphase hparts =>
      simp only [SpanTask.work, hphase, hparts, List.map_cons, List.sum_cons, Part.work,
        SpanPhase.work_draining, SpanPhase.work_filling]
      omega
  | partFailed hphase | rowMissing hphase => exact SpanTask.work_leave_lt (by simp [hphase])
  | send hpending =>
      have hwork := SpanPhase.work_of_pending hpending
      simp only [SpanTask.work, List.length_append, List.length_singleton]
      omega
  | sendClosed hpending =>
      have hwork := SpanPhase.work_of_pending hpending
      exact SpanTask.work_leave_lt (by simp only [SpanPhase.work_done]; omega)
  | take hqueue =>
      simp only [SpanTask.work, hqueue, List.length_cons]
      omega
  | hangUp hreading => simp [SpanTask.work, hreading]
  | @part _ _ _ part' _ hpart hmove =>
      have hset := sum_map_set_add Part.work hpart part'
      have hlt := hmove.work_lt
      simp only [SpanTask.work]
      omega

end Pgvs3
