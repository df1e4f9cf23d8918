import Pgvs3.Model.Ingest
import Pgvs3.Model.Cache

/-! # Serving byte ranges

The read path of `db.rs`: a range becomes pieces of contiguous rows, the rows of
every piece arrive in any order, and the response is cut from them as they come. -/

namespace Pgvs3

open Library

def smallMax : ℕ := 8 * 1024 * 1024

/-- `PART_ROWS`: any span of up to `SMALL_MAX` bytes fits one piece. -/
def partRows : ℕ := smallMax / rowBytes + 2

def partsInflight : ℕ := 8

/-- `CHUNK`, the size at which output is sent. -/
def chunkSize : ℕ := 256 * 1024

inductive ReadError where
  | query
  | rowMissing (fileId lo hi next : ℤ)
  | shortRead (got want : ℤ)
  | endedBeforeData
  deriving DecidableEq, Repr

/-! ## The fetch plan -/

/-- Rows `lo` to `hi` of segment file `fileId`, which starts at object offset `base`. -/
structure Piece where
  fileId : ℤ
  base : ℤ
  lo : ℤ
  hi : ℤ
  deriving DecidableEq, Repr

def satAddI32 (a b : ℤ) : ℤ := max (-2 ^ 31) (min (a + b) (2 ^ 31 - 1))

/-- Contiguous ranges of at most `step` rows covering `firstRow ..= lastRow`. -/
def partRanges (firstRow lastRow : ℤ) (step : ℕ) : List (ℤ × ℤ) :=
  let step : ℕ := max 1 (min step (2 ^ 31 - 1))
  let count := if lastRow < firstRow then 0 else (lastRow - firstRow).toNat / step + 1
  (List.range count).map fun (i : ℕ) =>
    let lo := firstRow + i * step
    (lo, min (satAddI32 lo (step - 1)) lastRow)

/-- Pieces covering object bytes `start ..= stop`, in order. -/
def plan (m : Meta) (start stop : ℤ) (step : ℕ) : List Piece :=
  m.segments.flatMap fun (fileId, base, len) =>
    if len ≤ 0 ∨ base + len - 1 < start ∨ base > stop then []
    else
      let lo := asI32 ((max start base - base).tdiv rowBytes)
      let hi := asI32 ((min stop (base + len - 1) - base).tdiv rowBytes)
      (partRanges lo hi step).map fun (lo, hi) => ⟨fileId, base, lo, hi⟩

/-- The part of row `no` of a segment at `base` inside object bytes `start ..= stop`. -/
def rowSlice (base no : ℤ) (data : Bytes) (start stop : ℤ) : Option Bytes :=
  let rowStart := base + no * rowBytes
  let lo := max start rowStart - rowStart
  let hi := min stop (rowStart + data.length - 1) - rowStart
  if lo ≤ hi then some (sliceOf data lo.toNat (hi.toNat + 1)) else none

/-! ## Streaming a span -/

/-- `SELECT no, data FROM s3p.chunks WHERE file_id = $1 AND no BETWEEN $2 AND $3`, which
returns its rows in any order. -/
def selectRows (db : Db) (p : Piece) : List ChunkRow :=
  db.chunks.rows.filter fun c => c.fileId = p.fileId ∧ p.lo ≤ c.no ∧ c.no ≤ p.hi

/-- What a piece's channel delivers: rows in arrival order, and an error if its
query fails. -/
abbrev Fetch := List (Except ReadError ChunkRow)

/-- `put_row`: append row `no`'s part of the range to the chunk. -/
def putRow (chunk : Bytes) (p : Piece) (no : ℤ) (row : ChunkRow) (start stop : ℤ) : Bytes :=
  chunk ++ (rowSlice p.base no row.data start stop).getD []

/-- `early.insert(no, row)`. -/
def insertEarly (early : List ChunkRow) (row : ChunkRow) : List ChunkRow :=
  early.filter (fun r => r.no ≠ row.no) ++ [row]

/-- `while let Some(row) = early.remove(&next)`: every round takes a row out of
`early`, so its length bounds them. -/
def drainEarly (p : Piece) (start stop : ℤ) :
    ℕ → List ChunkRow → ℤ → Bytes → List ChunkRow × ℤ × Bytes
  | 0, early, next, chunk => (early, next, chunk)
  | fuel + 1, early, next, chunk =>
      match early.find? (fun r => r.no = next) with
      | none => (early, next, chunk)
      | some row =>
          drainEarly p start stop fuel (early.filter (fun r => r.no ≠ next)) (asI32 (next + 1))
            (putRow chunk p next row start stop)

/-- The output of a span so far: the open chunk, the byte count and the chunks sent. -/
structure Span where
  chunk : Bytes
  sent : ℤ
  out : List Bytes
  deriving DecidableEq

/-- An early return of `stream_span`: what was sent, and the error if it is one. -/
abbrev SpanStop := List Bytes × Option ReadError

/-- Drain the channel of one piece, cutting chunks of `cut` bytes. `open? n` says whether the
receiver of the response is still there for the `n`-th chunk. -/
def recvRows (cut : ℕ) (open? : ℕ → Bool) (p : Piece) (start stop : ℤ) :
    Fetch → Span → List ChunkRow → ℤ → Except SpanStop Span
  | [], span, _, next =>
      if next > p.hi then .ok span
      else .error (span.out, some (.rowMissing p.fileId p.lo p.hi next))
  | .error e :: _, span, _, _ => .error (span.out, some e)
  | .ok row :: rest, span, early, next =>
      if row.no ≠ next then recvRows cut open? p start stop rest span (insertEarly early row) next
      else
        let chunk := putRow span.chunk p next row start stop
        let (early, next, chunk) :=
          drainEarly p start stop early.length early (asI32 (next + 1)) chunk
        if cut ≤ chunk.length then
          -- the client went away: `stream_span` returns Ok without the rest
          if open? span.out.length then
            recvRows cut open? p start stop rest
              ⟨[], span.sent + chunk.length, span.out ++ [chunk]⟩ early next
          else .error (span.out, none)
        else recvRows cut open? p start stop rest { span with chunk := chunk } early next

/-- The outer loop: keep up to `inflight` pieces running, drain the oldest. Every
round drains one piece, so their number bounds the rounds. -/
def spanLoop (inflight cut : ℕ) (open? : ℕ → Bool) (spawn : Piece → Fetch) (start stop : ℤ) :
    ℕ → List Piece → List (Piece × Fetch) → Span → Except SpanStop Span
  | 0, _, _, span => .ok span
  | fuel + 1, todo, running, span =>
      let room := inflight - running.length
      let running := running ++ (todo.take room).map (fun p => (p, spawn p))
      match running with
      | [] => .ok span
      | (p, rows) :: running =>
          match recvRows cut open? p start stop rows span [] p.lo with
          | .error r => .error r
          | .ok span =>
              spanLoop inflight cut open? spawn start stop fuel (todo.drop room) running span

/-- The body of `stream_span`, for pieces of `step` rows, `inflight` of them at a time, and
chunks of `cut` bytes: the chunks sent, and the error it returns if it does. -/
def streamSpanOf (step inflight cut : ℕ) (open? : ℕ → Bool) (spawn : Piece → Fetch) (m : Meta)
    (start stop : ℤ) : SpanStop :=
  let pieces := plan m start stop step
  match spanLoop inflight cut open? spawn start stop (pieces.length + 1) pieces []
      ⟨[], 0, []⟩ with
  | .error r => r
  | .ok span =>
      let got := span.sent + span.chunk.length
      if got ≠ stop - start + 1 then (span.out, some (.shortRead got (stop - start + 1)))
      else if span.chunk ≠ [] ∧ open? span.out.length then (span.out ++ [span.chunk], none)
      else (span.out, none)

def streamSpan (open? : ℕ → Bool) (spawn : Piece → Fetch) (m : Meta) (start stop : ℤ) :
    SpanStop :=
  streamSpanOf partRows partsInflight chunkSize open? spawn m start stop

/-- The messages that reach the response: the chunks, then the error if any. -/
def spanMessages (r : SpanStop) : List (Except ReadError Bytes) :=
  r.1.map .ok ++ (r.2.map Except.error).toList

/-! ## get_body -/

/-- `eff_range`: the effective inclusive range of a request. -/
def effRange (size first last suffix : ℤ) : ℤ × ℤ :=
  if suffix ≥ 0 then (max (size - suffix) 0, size - 1)
  else (max first 0, if last ≥ 0 then min last (size - 1) else size - 1)

structure SliceMeta where
  size : ℤ
  etag : Bytes
  createdAt : ℤ
  fileId : ℤ
  start : ℤ
  stop : ℤ
  deriving DecidableEq, Repr

def SliceMeta.len (s : SliceMeta) : ℤ := max (s.stop - s.start + 1) 0

/-- `PieceBody`: one buffer, or a first chunk and the rest of the channel. -/
inductive PieceBody where
  | oneShot (bytes : Bytes)
  | streamed (first : Bytes) (rest : List (Except ReadError Bytes))
  deriving DecidableEq

inductive GetResult where
  | absent
  | served (smeta : SliceMeta) (body : PieceBody)
  | failed (e : ReadError)
  deriving DecidableEq

/-- What one attempt of `get_body` meets outside itself: what other tasks did to the
cache before it looks, what the metadata query would return, and the rows that each
piece's query delivers. -/
structure Attempt where
  touch : MetaCache → MetaCache
  lookup : Except ReadError (Option Meta)
  spawn : Piece → Fetch

/-- `meta_fresh`, given the result of its query. -/
def metaFresh (c : MetaCache) (bucket key : Text) (lookup : Except ReadError (Option Meta)) :
    Except ReadError (Option Meta) × MetaCache :=
  match lookup with
  | .error e => (.error e, c)
  | .ok none => (.ok none, c.invalidate bucket key)
  | .ok (some m) => (.ok (some m), c.put metaCap bucket key m)

/-- `meta`: the cached entry, else a fresh one. -/
def lookupMeta (c : MetaCache) (bucket key : Text) (lookup : Except ReadError (Option Meta)) :
    Except ReadError (Option Meta) × MetaCache :=
  match c.get bucket key with
  | some m => (.ok (some m), c)
  | none => metaFresh c bucket key lookup

/-- One pass of the loop of `get_body`; `retry` is its next pass. -/
def getAttempt (attempt : ℕ) (env : Attempt) (bucket key : Text) (first last suffix : ℤ)
    (retry : MetaCache → GetResult × MetaCache) (c : MetaCache) : GetResult × MetaCache :=
  match lookupMeta (env.touch c) bucket key env.lookup with
  | (.error e, c) => (.failed e, c)
  | (.ok none, c) => (.absent, c)
  | (.ok (some m), c) =>
      let (start, stop) := effRange m.size first last suffix
      if m.size > 0 ∧ (start > stop ∨ start ≥ m.size) ∧ attempt = 0 then
        retry (c.invalidate bucket key)
      else
        let smeta : SliceMeta := ⟨m.size, m.etag, m.createdAt, m.fileId, start, stop⟩
        if smeta.len = 0 then (.served smeta (.oneShot []), c)
        else
          match spanMessages (streamSpan (fun _ => true) env.spawn m start stop) with
          | [] => (.failed .endedBeforeData, c)
          | .error e :: _ =>
              if attempt = 1 then (.failed e, c.invalidate bucket key)
              else retry (c.invalidate bucket key)
          | .ok head :: rest =>
              if (head.length : ℤ) = smeta.len then (.served smeta (.oneShot head), c)
              else (.served smeta (.streamed head rest), c)

/-- `get_body`: two attempts at most. The second one always returns. -/
def getBody (env : Fin 2 → Attempt) (bucket key : Text) (first last suffix : ℤ)
    (c : MetaCache) : GetResult × MetaCache :=
  getAttempt 0 (env 0) bucket key first last suffix
    (getAttempt 1 (env 1) bucket key first last suffix fun c => (.absent, c)) c

/-- What a response body delivers. -/
def PieceBody.messages : PieceBody → List (Except ReadError Bytes)
  | .oneShot bytes => [.ok bytes]
  | .streamed first rest => .ok first :: rest

/-- `Slice`: a served byte range, fully buffered. -/
structure Slice where
  size : ℤ
  etag : Bytes
  createdAt : ℤ
  start : ℤ
  stop : ℤ
  bytes : Bytes
  deriving DecidableEq, Repr

/-- Collect the chunks of a body up to its first error. -/
def collect : List (Except ReadError Bytes) → Except ReadError Bytes
  | [] => .ok []
  | .error e :: _ => .error e
  | .ok piece :: rest =>
      match collect rest with
      | .ok bytes => .ok (piece ++ bytes)
      | .error e => .error e

/-- `get`, the buffered variant of `get_body`. -/
def get (env : Fin 2 → Attempt) (bucket key : Text) (first last suffix : ℤ) (c : MetaCache) :
    Except ReadError (Option Slice) :=
  match (getBody env bucket key first last suffix c).1 with
  | .absent => .ok none
  | .failed e => .error e
  | .served s body =>
      match collect body.messages with
      | .ok bytes => .ok (some ⟨s.size, s.etag, s.createdAt, s.start, s.stop, bytes⟩)
      | .error e => .error e

end Pgvs3
