import Pgvs3.Model.Read
import Pgvs3.Library.Transition
import Mathlib.Data.Fintype.Basic

/-! # The tasks behind a response

A GET runs as one span task, up to eight part tasks that feed it, and the client that
reads from it. `stream_span`, `spawn_part` and `fetch_part` as state machines: every
await point is a step, and the steps of all GETs that share a pool interleave in any
order. -/

namespace Pgvs3

open Library

/-- What a part's query comes to: the rows in arrival order, and its failure if it fails.
A pool that hands out no connection is a failure before the first row. -/
structure PartRun where
  rows : List ChunkRow
  error : Option ReadError
  deriving DecidableEq, Repr

def PartRun.messages (r : PartRun) : Fetch := r.rows.map .ok ++ (r.error.map .error).toList

/-! ## Part tasks -/

inductive PartPhase where
  /-- In `pool.get`. -/
  | acquiring
  /-- Holding a connection, in the loop over its rows. -/
  | fetching
  /-- `fetch_part` returned an error, and the connection is back. -/
  | reporting
  | done
  deriving DecidableEq, Repr

/-- A part task with its channel. `todo` are the messages that it has still to send, and
`watched` says whether the span task still holds the receiver. -/
structure Part where
  piece : Piece
  phase : PartPhase
  todo : Fetch
  queue : Fetch
  watched : Bool
  deriving DecidableEq

/-- The capacity of a part's channel: all its rows and an error. -/
def Piece.capacity (p : Piece) : ℕ := (p.hi - p.lo + 2).toNat

def spawnPart (run : Piece → PartRun) (p : Piece) : Part :=
  ⟨p, .acquiring, (run p).messages, [], true⟩

inductive PartEvent where
  /-- `pool.get` returns a connection. -/
  | acquire
  /-- `pool.get` fails. -/
  | giveUp
  /-- The next await point after that: a row or an error is sent, or the query has ended. -/
  | advance
  deriving DecidableEq, Repr

/-- A step of a part task, with the free slots of the pool before and after it. -/
def Part.step (slots : ℕ) (part : Part) : PartEvent → Option (ℕ × Part)
  | .acquire =>
      if part.phase = .acquiring ∧ 0 < slots then
        some (slots - 1, { part with phase := .fetching })
      else none
  | .giveUp =>
      match part.phase, part.todo with
      | .acquiring, .error _ :: _ => some (slots, { part with phase := .reporting })
      | _, _ => none
  | .advance =>
      match part.phase, part.todo with
      | .fetching, [] => some (slots + 1, { part with phase := .done })
      | .fetching, .error _ :: _ => some (slots + 1, { part with phase := .reporting })
      | .fetching, .ok row :: rest =>
          if part.watched then
            if part.queue.length < part.piece.capacity then
              some (slots, { part with todo := rest, queue := part.queue ++ [.ok row] })
            else none
          -- the span was abandoned
          else some (slots + 1, { part with phase := .done, todo := [] })
      | .reporting, .error e :: _ =>
          if part.watched then
            if part.queue.length < part.piece.capacity then
              some (slots, { part with
                phase := .done
                todo := []
                queue := part.queue ++ [.error e] })
            else none
          else some (slots, { part with phase := .done, todo := [] })
      | _, _ => none

/-- The receiver of a part is dropped, and what is in its channel with it. -/
def Part.abandon (part : Part) : Part := { part with queue := [], watched := false }

/-! ## The span task and its client -/

/-- A request for object bytes `start ..= stop`, and what each of its queries comes to. -/
structure SpanAsk where
  m : Meta
  start : ℤ
  stop : ℤ
  run : Piece → PartRun

inductive SpanPhase where
  /-- At the top of the loop over the parts. -/
  | filling
  /-- Waiting for the next row of the oldest part. -/
  | draining (early : List ChunkRow) (next : ℤ)
  /-- Waiting for room in the response for a chunk. -/
  | sending (c : Bytes) (early : List ChunkRow) (next : ℤ)
  /-- Waiting for room for the last chunk. -/
  | flushing (c : Bytes)
  /-- Waiting for room for the error. -/
  | failing (e : ReadError)
  | done
  deriving DecidableEq, Repr

/-- The capacity of the response channel. -/
def responseQueue : ℕ := 32

/-- A span task. `parts` are its part tasks in order, less those that it has drained; the
oldest is the one that it drains. `reading` says whether the client is still there, and
`received` is what the client has taken. -/
structure SpanTask where
  todo : List Piece
  parts : List Part
  phase : SpanPhase
  chunk : Bytes
  sent : ℤ
  queue : List (Except ReadError Bytes)
  reading : Bool
  received : List (Except ReadError Bytes)
  deriving DecidableEq

def SpanTask.start (ask : SpanAsk) : SpanTask where
  todo := plan ask.m ask.start ask.stop partRows
  parts := []
  phase := .filling
  chunk := []
  sent := 0
  queue := []
  reading := true
  received := []

/-- `stream_span` returns: `rows` and `running` are dropped. -/
def SpanTask.leave (s : SpanTask) (phase : SpanPhase) : SpanTask :=
  { s with phase := phase, parts := s.parts.map Part.abandon }

/-- The loop over the parts starts again: parts are spawned, and the oldest comes next. -/
def SpanTask.fill (ask : SpanAsk) (s : SpanTask) : SpanTask :=
  let room := partsInflight - s.parts.length
  let s := { s with
    todo := s.todo.drop room
    parts := s.parts ++ (s.todo.take room).map (spawnPart ask.run) }
  match s.parts with
  | part :: _ => { s with phase := .draining [] part.piece.lo }
  | [] =>
      let got := s.sent + s.chunk.length
      if got ≠ ask.stop - ask.start + 1 then
        { s with phase := .failing (.shortRead got (ask.stop - ask.start + 1)) }
      else if s.chunk ≠ [] then { s with phase := .flushing s.chunk, chunk := [] }
      else { s with phase := .done }

/-- A row of the oldest part has arrived. -/
def SpanTask.row (ask : SpanAsk) (s : SpanTask) (p : Piece) (early : List ChunkRow) (next : ℤ)
    (row : ChunkRow) : SpanTask :=
  if row.no ≠ next then { s with phase := .draining (insertEarly early row) next }
  else
    let chunk := putRow s.chunk p next row ask.start ask.stop
    let (early, next, chunk) :=
      drainEarly p ask.start ask.stop early.length early (asI32 (next + 1)) chunk
    if chunkSize ≤ chunk.length then
      { s with phase := .sending chunk early next, chunk := [], sent := s.sent + chunk.length }
    else { s with phase := .draining early next, chunk := chunk }

/-- `rows.recv()` returns. -/
def SpanTask.recv (ask : SpanAsk) (s : SpanTask) : Option SpanTask :=
  match s.phase, s.parts with
  | .draining early next, part :: rest =>
      let p := part.piece
      match part.queue with
      | .ok row :: queue =>
          some (SpanTask.row ask { s with parts := { part with queue := queue } :: rest } p early
            next row)
      | .error e :: _ => some (s.leave (.failing e))
      | [] =>
          if part.phase = .done then
            if next > p.hi then some { s with phase := .filling, parts := rest }
            else some (s.leave (.failing (.rowMissing p.fileId p.lo p.hi next)))
          else none
  | _, _ => none

/-- What the task waits to send, and where it goes on after that. -/
def SpanPhase.pending : SpanPhase → Option (Except ReadError Bytes × SpanPhase)
  | .sending c early next => some (.ok c, .draining early next)
  | .flushing c => some (.ok c, .done)
  | .failing e => some (.error e, .done)
  | _ => none

/-- `tx.send` returns. -/
def SpanTask.send (s : SpanTask) : Option SpanTask :=
  match s.phase.pending with
  | some (message, phase) =>
      if s.reading then
        if s.queue.length < responseQueue then
          some { s with queue := s.queue ++ [message], phase := phase }
        else none
      -- the client went away
      else some (s.leave .done)
  | none => none

/-! ## All GETs of a pool -/

inductive SpanEvent where
  | fill
  | recv
  | send
  /-- The client takes the next message. -/
  | take
  /-- The client goes away. -/
  | hangUp
  /-- A step of the part task at a position in `parts`. -/
  | part (n : ℕ) (e : PartEvent)
  deriving DecidableEq, Repr

def SpanTask.step (ask : SpanAsk) (slots : ℕ) (s : SpanTask) : SpanEvent → Option (ℕ × SpanTask)
  | .fill => if s.phase = .filling then some (slots, s.fill ask) else none
  | .recv => (s.recv ask).map fun s => (slots, s)
  | .send => s.send.map fun s => (slots, s)
  | .take =>
      match s.queue with
      | message :: queue =>
          if s.reading then
            some (slots, { s with queue := queue, received := s.received ++ [message] })
          else none
      | [] => none
  | .hangUp => if s.reading then some (slots, { s with reading := false, queue := [] }) else none
  | .part n e =>
      match s.parts[n]? with
      | some part =>
          (part.step slots e).map fun (slots, part) =>
            (slots, { s with parts := s.parts.set n part })
      | none => none

/-- The span tasks of the GETs `ι`, and the free slots of the pool that they share. -/
structure ReadTasks (ι : Type*) where
  slots : ℕ
  spans : ι → SpanTask

variable {ι : Type*} [DecidableEq ι]

def ReadTasks.start (max : ℕ) (ask : ι → SpanAsk) : ReadTasks ι where
  slots := max
  spans i := SpanTask.start (ask i)

def ReadTasks.step (ask : ι → SpanAsk) (s : ReadTasks ι) : ι × SpanEvent → Option (ReadTasks ι)
  | (i, e) =>
      ((s.spans i).step (ask i) s.slots e).map fun (slots, span) =>
        ⟨slots, Function.update s.spans i span⟩

def ReadStep (ask : ι → SpanAsk) (s : ReadTasks ι) (e : ι × SpanEvent) (s' : ReadTasks ι) :
    Prop :=
  s.step ask e = some s'

end Pgvs3
