import Pgvs3.Model.Write
import Pgvs3.Library.Transition

/-! # Streaming a body into the writer task

`ChunkWriter`, `ingest_body` and the loop of `ingest_writer` in `db.rs`: a request handler
pushes chunks into a bounded channel, and a spawned task copies and publishes them. Their
steps interleave in any order. -/

namespace Pgvs3

open Library

inductive IngestMsg where
  | data (b : Bytes)
  | abort
  deriving DecidableEq, Repr

/-- The capacity of the channel. -/
def ingestQueue : ℕ := 8

/-- Where the handler stands. Each phase but `gone` is at an await point. -/
inductive ProducerPhase where
  /-- Waiting for the next item of the body. -/
  | streaming
  /-- Waiting for room in the channel for a chunk. -/
  | pushing (c : Bytes)
  /-- Waiting for room in the channel for `Abort`. -/
  | aborting
  /-- Waiting for the task, after `finish` or `abort`. -/
  | joining
  /-- Returned, or dropped. -/
  | gone
  deriving DecidableEq, Repr

/-- Where the writer task stands. -/
inductive WriterPhase where
  /-- Before the COPY is open. -/
  | starting
  /-- In the loop over the channel. -/
  | receiving
  /-- The channel has ended; the COPY is finished and published next. -/
  | ending
  /-- The transaction is committed, and the task has returned the size and the SHA-256. -/
  | committed (size : ℤ) (sha256 : Bytes)
  | failed
  deriving DecidableEq, Repr

/-- One ingest. `body` are the items that the body stream still yields, `none` for an error.
`pushed` and `finished` are history: the chunks that were enqueued, and whether `finish` was
called. -/
structure Ingest where
  body : List (Option Bytes)
  producer : ProducerPhase
  senderOpen : Bool
  queue : List IngestMsg
  writer : WriterPhase
  received : List Bytes
  db : Db
  pushed : List Bytes
  finished : Bool
  deriving DecidableEq

structure IngestJob where
  sha256 : Bytes → Bytes
  now : ℤ
  fileId : ℤ
  target : WriterTarget

def Ingest.start (db : Db) (body : List (Option Bytes)) : Ingest where
  body := body
  producer := .streaming
  senderOpen := true
  queue := []
  writer := .starting
  received := []
  db := db
  pushed := []
  finished := false

inductive IngestEvent where
  /-- The body stream yields its next item, or ends. -/
  | next
  /-- The send that the producer waits for goes through, or fails on a closed channel. -/
  | send
  /-- `ChunkWriter::abort` is called. -/
  | abort
  /-- The producer sees the task's result. -/
  | join
  /-- The handler's future is dropped, and the `ChunkWriter` with it. -/
  | dropFuture
  /-- The task has opened its COPY. -/
  | opened
  /-- `recv` returns. -/
  | recv
  /-- The transaction is committed, or fails at its end. -/
  | commit
  /-- The task fails at any of its statements. -/
  | fail
  deriving DecidableEq, Repr

/-- The receiver is dropped when the task returns. -/
def Ingest.receiverOpen (s : Ingest) : Bool :=
  match s.writer with
  | .committed .. | .failed => false
  | .starting | .receiving | .ending => true

def Ingest.step (job : IngestJob) (s : Ingest) : IngestEvent → Option Ingest
  | .next =>
      if s.producer = .streaming then
        match s.body with
        | some c :: rest => some { s with body := rest, producer := .pushing c }
        | none :: rest => some { s with body := rest, producer := .aborting }
        | [] => some { s with senderOpen := false, finished := true, producer := .joining }
      else none
  | .send =>
      match s.producer with
      | .pushing c =>
          if s.receiverOpen then
            if s.queue.length < ingestQueue then
              some { s with
                queue := s.queue ++ [.data c]
                pushed := s.pushed ++ [c]
                producer := .streaming }
            else none
          -- the writer failed: `finish` reports why
          else some { s with senderOpen := false, finished := true, producer := .joining }
      | .aborting =>
          if s.receiverOpen then
            if s.queue.length < ingestQueue then
              some { s with
                queue := s.queue ++ [.abort]
                senderOpen := false
                producer := .joining }
            else none
          else some { s with senderOpen := false, producer := .joining }
      | _ => none
  | .abort => if s.producer = .streaming then some { s with producer := .aborting } else none
  | .join =>
      if s.producer = .joining ∧ s.receiverOpen = false then some { s with producer := .gone }
      else none
  | .dropFuture =>
      if s.producer = .gone then none
      else some { s with senderOpen := false, producer := .gone }
  | .opened => if s.writer = .starting then some { s with writer := .receiving } else none
  | .recv =>
      if s.writer = .receiving then
        match s.queue with
        | .data b :: queue => some { s with queue := queue, received := s.received ++ [b] }
        | .abort :: queue => some { s with queue := queue, writer := .failed }
        | [] => if s.senderOpen then none else some { s with writer := .ending }
      else none
  | .commit =>
      if s.writer = .ending then
        match ingestWriter job.sha256 s.db job.now job.fileId job.target s.received with
        | .ok (db, size, sha256) => some { s with writer := .committed size sha256, db := db }
        | .error _ => some { s with writer := .failed }
      else none
  | .fail => if s.receiverOpen then some { s with writer := .failed } else none

def IngestStep (job : IngestJob) (s : Ingest) (e : IngestEvent) (s' : Ingest) : Prop :=
  s.step job e = some s'

end Pgvs3
