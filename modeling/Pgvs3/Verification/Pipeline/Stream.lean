import Pgvs3.Verification.Pipeline.Spans
import Pgvs3.Verification.Read.Receiver

/-! # What the tasks deliver

A span task and its part tasks send what `stream_span` sends when each query is run to its
end before the next one starts. -/

namespace Pgvs3

open Library

variable {ask : SpanAsk} {s s' : SpanTask} {out : List Bytes} {slots slots' : ℕ}

/-! ## The sequential reading -/

/-- What a piece's channel delivers. -/
def SpanAsk.spawn (ask : SpanAsk) (p : Piece) : Fetch := (ask.run p).messages

/-- What the request is answered with, read off one query after the other. -/
def SpanAsk.response (ask : SpanAsk) : SpanStop :=
  streamSpan (fun _ => true) ask.spawn ask.m ask.start ask.stop

def SpanAsk.loop (ask : SpanAsk) (todo : List Piece) (running : List (Piece × Fetch))
    (span : Span) : Except SpanStop Span :=
  spanLoop partsInflight chunkSize (fun _ => true) ask.spawn ask.start ask.stop
    (todo.length + running.length + 1) todo running span

def SpanAsk.finish (ask : SpanAsk) : Except SpanStop Span → SpanStop
  | .error r => r
  | .ok span =>
      let got := span.sent + span.chunk.length
      if got ≠ ask.stop - ask.start + 1 then
        (span.out, some (.shortRead got (ask.stop - ask.start + 1)))
      else if span.chunk ≠ [] then (span.out ++ [span.chunk], none)
      else (span.out, none)

/-- The rest of the response from the middle of the oldest part. -/
def SpanAsk.drain (ask : SpanAsk) (todo : List Piece) (running : List (Piece × Fetch))
    (span : Span) (early : List ChunkRow) (next : ℤ) : SpanStop :=
  match running with
  | [] => (span.out, none)
  | (p, rows) :: running =>
      match recvRows chunkSize (fun _ => true) p ask.start ask.stop rows span early next with
      | .error r => r
      | .ok span => ask.finish (ask.loop todo running span)

theorem SpanAsk.response_eq (ask : SpanAsk) :
    ask.response = ask.finish (ask.loop (plan ask.m ask.start ask.stop partRows) [] ⟨[], 0, []⟩) := by
  unfold SpanAsk.response streamSpan streamSpanOf SpanAsk.loop
  cases hloop : spanLoop partsInflight chunkSize (fun _ => true) ask.spawn ask.start ask.stop
      ((plan ask.m ask.start ask.stop partRows).length + ([] : List (Piece × Fetch)).length + 1)
      (plan ask.m ask.start ask.stop partRows) [] ⟨[], 0, []⟩ with
  | error r =>
      rw [List.length_nil, Nat.add_zero] at hloop
      simp only [hloop, SpanAsk.finish]
  | ok span =>
      rw [List.length_nil, Nat.add_zero] at hloop
      simp only [hloop, SpanAsk.finish, and_true]

/-- A part with the messages that its channel has still to deliver. -/
def Part.coming (part : Part) : Piece × Fetch := (part.piece, part.queue ++ part.todo)

/-- The response of which the chunks `out` are sent, when nothing interferes any more. -/
def SpanTask.response (ask : SpanAsk) (out : List Bytes) (s : SpanTask) : SpanStop :=
  let coming := s.parts.map Part.coming
  match s.phase with
  | .filling => ask.finish (ask.loop s.todo coming ⟨s.chunk, s.sent, out⟩)
  | .draining early next => ask.drain s.todo coming ⟨s.chunk, s.sent, out⟩ early next
  | .sending c early next => ask.drain s.todo coming ⟨s.chunk, s.sent, out ++ [c]⟩ early next
  | .flushing c => (out ++ [c], none)
  | .failing e => (out, some e)
  | .done => (out, none)

theorem SpanAsk.isPrefix_finish (ask : SpanAsk) (r : Except SpanStop Span) :
    chunksOf r <+: (ask.finish r).1 := by
  unfold SpanAsk.finish
  split
  · exact List.prefix_refl _
  · dsimp only
    split
    · exact List.prefix_refl _
    · split
      · exact List.prefix_append _ _
      · exact List.prefix_refl _

theorem SpanAsk.isPrefix_loop {todo : List Piece} {running : List (Piece × Fetch)} {span : Span} :
    span.out <+: (ask.finish (ask.loop todo running span)).1 :=
  out_isPrefix_spanLoop.trans (ask.isPrefix_finish _)

theorem SpanAsk.isPrefix_drain {todo : List Piece} {running : List (Piece × Fetch)} {span : Span}
    {early : List ChunkRow} {next : ℤ} :
    span.out <+: (ask.drain todo running span early next).1 := by
  unfold SpanAsk.drain
  split
  · exact List.prefix_refl _
  · rename_i p rows running
    have hrows := @out_isPrefix_recvRows chunkSize ask.start ask.stop p rows span early next
    split
    · rename_i r hr
      rw [hr] at hrows
      exact hrows
    · rename_i span' hr
      rw [hr] at hrows
      exact hrows.trans SpanAsk.isPrefix_loop

theorem SpanTask.isPrefix_response : out <+: (s.response ask out).1 := by
  unfold SpanTask.response
  dsimp only
  cases s.phase with
  | filling => exact @SpanAsk.isPrefix_loop ask _ _ ⟨s.chunk, s.sent, out⟩
  | draining early next => exact @SpanAsk.isPrefix_drain ask _ _ ⟨s.chunk, s.sent, out⟩ early next
  | sending c early next =>
      exact (List.prefix_append _ [c]).trans
        (@SpanAsk.isPrefix_drain ask _ _ ⟨s.chunk, s.sent, out ++ [c]⟩ early next)
  | flushing c => exact List.prefix_append _ _
  | failing e | done => exact List.prefix_refl _

theorem isPrefix_spanMessages {r : SpanStop} (h : out <+: r.1) : out.map .ok <+: spanMessages r :=
  (h.map _).trans (List.prefix_append _ _)

/-! ## Steps -/

/-- Spawning parts and turning to the oldest is one round of the loop. -/
theorem SpanTask.response_fill (hphase : s.phase = .filling) :
    (s.fill ask).response ask out = s.response ask out := by
  have hold : s.response ask out =
      ask.finish (ask.loop s.todo (s.parts.map Part.coming) ⟨s.chunk, s.sent, out⟩) := by
    unfold SpanTask.response
    rw [hphase]
  have hnew : s.parts.map Part.coming ++ (s.todo.take (partsInflight - s.parts.length)).map
      (fun p => (p, ask.spawn p)) = (s.parts ++ (s.todo.take (partsInflight - s.parts.length)).map
        (spawnPart ask.run)).map Part.coming := by
    rw [List.map_append, List.map_map]
    rfl
  rw [hold, SpanAsk.loop, spanLoop, List.length_map, hnew]
  unfold SpanTask.fill
  dsimp only
  cases hlist : s.parts ++ (s.todo.take (partsInflight - s.parts.length)).map
      (spawnPart ask.run) with
  | nil =>
      simp only [List.map_nil, SpanAsk.finish]
      split
      · rfl
      · split <;> rfl
  | cons part rest =>
      have hlen := congrArg List.length hlist
      simp only [List.length_append, List.length_map, List.length_take, List.length_cons] at hlen
      have hfuel : s.todo.length + s.parts.length =
          (s.todo.drop (partsInflight - s.parts.length)).length +
            (rest.map Part.coming).length + 1 := by
        rw [List.length_drop, List.length_map]
        omega
      simp only [List.map_cons, Part.coming, SpanTask.response, SpanAsk.drain, hfuel]
      cases recvRows chunkSize (fun _ => true) part.piece ask.start ask.stop
          (part.queue ++ part.todo) ⟨s.chunk, s.sent, out⟩ [] part.piece.lo with
      | error r => rfl
      | ok span => rfl

theorem SpanTask.response_row {p : Piece} {fetch : Fetch} {running : List (Piece × Fetch)}
    {early : List ChunkRow} {next : ℤ} {row : ChunkRow}
    (hparts : s.parts.map Part.coming = (p, fetch) :: running) :
    (s.row ask p early next row).response ask out =
      ask.drain s.todo ((p, .ok row :: fetch) :: running) ⟨s.chunk, s.sent, out⟩ early next := by
  unfold SpanTask.row
  rw [SpanAsk.drain, recvRows]
  dsimp only
  split
  · simp only [SpanTask.response, hparts, SpanAsk.drain]
  · split
    · simp only [SpanTask.response, hparts, SpanAsk.drain, if_true]
    · simp only [SpanTask.response, hparts, SpanAsk.drain]

theorem SpanTask.response_draining {early : List ChunkRow} {next : ℤ} {part : Part}
    {rest : List Part} (hphase : s.phase = .draining early next) (hparts : s.parts = part :: rest) :
    s.response ask out = ask.drain s.todo ((part.piece, part.queue ++ part.todo) ::
      rest.map Part.coming) ⟨s.chunk, s.sent, out⟩ early next := by
  unfold SpanTask.response
  rw [hphase, hparts]
  rfl

theorem SpanTask.response_done (h : s.Sound ask) {early : List ChunkRow} {next : ℤ} {part : Part}
    {rest : List Part} (hphase : s.phase = .draining early next) (hparts : s.parts = part :: rest)
    (hqueue : part.queue = []) (hdone : part.phase = .done) :
    s.response ask out = ask.drain s.todo ((part.piece, []) :: rest.map Part.coming)
      ⟨s.chunk, s.sent, out⟩ early next := by
  have htodo := (h.parts part (by rw [hparts]; exact List.mem_cons_self ..)).done hdone
  rw [SpanTask.response_draining hphase hparts, hqueue, htodo, List.append_nil]

theorem SpanTask.response_recv (h : s.Sound ask)
    (hstep : s.step ask slots .recv = some (slots', s')) :
    s'.response ask out = s.response ask out := by
  cases SpanTask.moves hstep with
  | row hphase hparts hqueue =>
      rw [SpanTask.response_draining hphase hparts, hqueue]
      exact SpanTask.response_row rfl
  | partFailed hphase hparts hqueue =>
      rw [SpanTask.response_draining hphase hparts, hqueue]
      rfl
  | partDone hphase hparts hqueue hdone hnext =>
      rw [SpanTask.response_done h hphase hparts hqueue hdone, SpanAsk.drain, recvRows,
        if_pos hnext]
      rfl
  | rowMissing hphase hparts hqueue hdone hnext =>
      rw [SpanTask.response_done h hphase hparts hqueue hdone, SpanAsk.drain, recvRows,
        if_neg hnext]
      rfl

/-- A part task changes nothing that is still to come. -/
theorem Part.Moves.coming {part part' : Part} (h : part.Moves slots slots' part')
    (hsound : part.Sound ask.run) (hwatched : part.watched = true) : part'.coming = part.coming := by
  cases h with
  | acquire | giveUp | finish | fail => rfl
  | row _ htodo _ => simp [Part.coming, htodo]
  | stop _ hw | ignore _ hw => exact absurd (hw.symm.trans hwatched) (by decide)
  | @report e rest hphase htodo _ =>
      have hlast : rest = [] := PartRun.error_last (htodo ▸ hsound.isSuffix)
      simp [Part.coming, htodo, hlast]

/-! ## The invariant -/

/-- What a span has sent, and what it is still going to send, make up the response. -/
structure SpanTask.Streams (ask : SpanAsk) (s : SpanTask) : Prop where
  going : s.reading = true → s.phase ≠ .done → ∃ out : List Bytes,
    s.received ++ s.queue = out.map .ok ∧ s.response ask out = ask.response
  returned : s.reading = true → s.phase = .done →
    s.received ++ s.queue = spanMessages ask.response
  isPrefix : s.received <+: spanMessages ask.response

theorem SpanTask.streams_start (ask : SpanAsk) : (SpanTask.start ask).Streams ask where
  going _ _ := ⟨[], rfl, ask.response_eq.symm⟩
  returned _ hphase := by cases hphase
  isPrefix := List.nil_prefix

theorem SpanTask.Streams.sent (h : s.Streams ask) (hreading : s.reading = true) :
    s.received ++ s.queue <+: spanMessages ask.response := by
  by_cases hphase : s.phase = .done
  · rw [h.returned hreading hphase]
  · obtain ⟨out, hout, hresponse⟩ := h.going hreading hphase
    rw [hout, ← hresponse]
    exact isPrefix_spanMessages SpanTask.isPrefix_response

theorem SpanTask.Streams.quiet (h : s.Streams ask) (hphase : s.phase ≠ .done)
    (hqueue : s'.queue = s.queue) (hreading : s'.reading = s.reading)
    (hreceived : s'.received = s.received)
    (hresponse : ∀ out, s'.response ask out = s.response ask out) : s'.Streams ask where
  going hr _ := by
    rw [hreading] at hr
    rw [hqueue, hreceived]
    obtain ⟨out, hout, hold⟩ := h.going hr hphase
    exact ⟨out, hout, (hresponse out).trans hold⟩
  returned hr hdone := by
    rw [hreading] at hr
    rw [hqueue, hreceived]
    obtain ⟨out, hout, hold⟩ := h.going hr hphase
    rw [hout, ← hold, ← hresponse out]
    simp [SpanTask.response, hdone, spanMessages]
  isPrefix := by
    rw [hreceived]
    exact h.isPrefix

theorem SpanTask.fill_frame : (s.fill ask).queue = s.queue ∧ (s.fill ask).reading = s.reading ∧
    (s.fill ask).received = s.received := by
  unfold SpanTask.fill
  dsimp only
  split
  · exact ⟨rfl, rfl, rfl⟩
  · split
    · exact ⟨rfl, rfl, rfl⟩
    · split <;> exact ⟨rfl, rfl, rfl⟩

theorem SpanTask.row_frame {p : Piece} {early : List ChunkRow} {next : ℤ} {row : ChunkRow} :
    (s.row ask p early next row).queue = s.queue ∧
      (s.row ask p early next row).reading = s.reading ∧
      (s.row ask p early next row).received = s.received := by
  unfold SpanTask.row
  dsimp only
  split
  · exact ⟨rfl, rfl, rfl⟩
  · split <;> exact ⟨rfl, rfl, rfl⟩

theorem SpanTask.recv_frame (hstep : s.step ask slots .recv = some (slots', s')) :
    s.phase ≠ .done ∧ s'.queue = s.queue ∧ s'.reading = s.reading ∧ s'.received = s.received := by
  cases SpanTask.moves hstep with
  | row hphase =>
      exact ⟨by rw [hphase]; exact SpanPhase.noConfusion, SpanTask.row_frame⟩
  | partFailed hphase | partDone hphase | rowMissing hphase =>
      exact ⟨by rw [hphase]; exact SpanPhase.noConfusion, rfl, rfl, rfl⟩

theorem SpanTask.Streams.send (h : s.Streams ask)
    (hstep : s.step ask slots .send = some (slots', s')) : s'.Streams ask := by
  cases SpanTask.moves hstep with
  | sendClosed hpending hreading =>
      have hclosed : (s.leave .done).reading ≠ true := by simp [SpanTask.leave, hreading]
      exact ⟨fun hr => absurd hr hclosed, fun hr => absurd hr hclosed, h.isPrefix⟩
  | send hpending hreading hroom =>
      have hdone : s.phase ≠ .done := by
        intro hdone
        rw [hdone] at hpending
        cases hpending
      obtain ⟨out, hout, hresponse⟩ := h.going hreading hdone
      refine ⟨fun _ hne => ?_, fun _ hphase => ?_, h.isPrefix⟩
      · -- a chunk from the middle of the response
        cases hphase : s.phase with
        | sending c early next =>
            rw [hphase] at hpending
            cases hpending
            refine ⟨out ++ [c], by simp [← List.append_assoc, hout], ?_⟩
            rw [← hresponse]
            simp only [SpanTask.response, hphase]
        | flushing c | failing e =>
            rw [hphase] at hpending
            cases hpending
            exact absurd rfl hne
        | filling | draining early next | done =>
            rw [hphase] at hpending
            cases hpending
      · -- the last message
        dsimp only at hphase ⊢
        subst hphase
        rw [← List.append_assoc, hout, ← hresponse]
        cases hphase : s.phase with
        | flushing c | failing e =>
            rw [hphase] at hpending
            cases hpending
            simp [SpanTask.response, hphase, spanMessages]
        | sending c early next | filling | draining early next | done =>
            rw [hphase] at hpending
            cases hpending

theorem SpanTask.Streams.take (h : s.Streams ask)
    (hstep : s.step ask slots .take = some (slots', s')) : s'.Streams ask := by
  cases SpanTask.moves hstep with
  | @take m queue hqueue hreading =>
      have hall : s.received ++ [m] ++ queue = s.received ++ s.queue := by simp [hqueue]
      have hsent := h.sent hreading
      refine ⟨fun hr hne => ?_, fun hr hdone => ?_, ?_⟩
      · obtain ⟨out, hout, hresponse⟩ := h.going hr hne
        exact ⟨out, hall.trans hout, hresponse⟩
      · exact hall.trans (h.returned hr hdone)
      · exact (List.prefix_append _ queue).trans (hall ▸ hsent)

theorem SpanTask.Streams.part (h : s.Streams ask) (hsound : s.Sound ask) {n : ℕ} {e : PartEvent}
    (hstep : s.step ask slots (.part n e) = some (slots', s')) : s'.Streams ask := by
  cases SpanTask.moves hstep with
  | @part _ _ part part' _ hpart hmove =>
      have hmem : part ∈ s.parts := List.mem_of_getElem? hpart
      by_cases hw : s.phase.working = true
      · have hsame : s.parts.set n part = s.parts := by
          obtain ⟨hn, rfl⟩ := List.getElem?_eq_some_iff.mp hpart
          exact List.set_getElem_self hn
        have hcoming : (s.parts.set n part').map Part.coming = s.parts.map Part.coming := by
          rw [List.map_set, hmove.coming (hsound.parts part hmem) (hsound.watched hw part hmem),
            ← List.map_set, hsame]
        refine h.quiet (fun hdone => by rw [hdone] at hw; cases hw) rfl rfl rfl fun out => ?_
        simp only [SpanTask.response, hcoming]
      · -- nothing of the parts is still to come
        refine ⟨fun hr hne => ?_, h.returned, h.isPrefix⟩
        obtain ⟨out, hout, hresponse⟩ := h.going hr hne
        refine ⟨out, hout, ?_⟩
        rw [← hresponse]
        cases hphase : s.phase with
        | filling | draining early next | sending c early next =>
            rw [hphase] at hw
            exact absurd rfl hw
        | flushing c | failing e | done => simp only [SpanTask.response, hphase]

theorem SpanTask.Streams.step (h : s.Streams ask) (hsound : s.Sound ask) {e : SpanEvent}
    (hstep : s.step ask slots e = some (slots', s')) : s'.Streams ask := by
  cases e with
  | fill =>
      cases SpanTask.moves hstep with
      | fill hphase =>
          obtain ⟨hqueue, hreading, hreceived⟩ := @SpanTask.fill_frame ask s
          exact h.quiet (by rw [hphase]; exact SpanPhase.noConfusion) hqueue hreading hreceived
            fun _ => SpanTask.response_fill hphase
  | recv =>
      obtain ⟨hphase, hqueue, hreading, hreceived⟩ := SpanTask.recv_frame hstep
      exact h.quiet hphase hqueue hreading hreceived fun _ => SpanTask.response_recv hsound hstep
  | send => exact h.send hstep
  | take => exact h.take hstep
  | hangUp =>
      cases SpanTask.moves hstep
      exact ⟨fun hr => (by cases hr), fun hr => (by cases hr), h.isPrefix⟩
  | part n e => exact h.part hsound hstep

end Pgvs3
