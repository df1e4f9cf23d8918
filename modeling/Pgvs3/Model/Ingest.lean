import Pgvs3.Model.Store
import Pgvs3.Library.Blocks

/-! # Binary COPY framing

`ingest.rs`: request bytes are cut into fixed-size rows and framed for
`COPY s3p.chunks (file_id, no, data) FROM STDIN WITH (FORMAT binary)`. -/

namespace Pgvs3

open Library

/-- `ROW_BYTES`, the payload of one chunk row. -/
@[irreducible] def rowBytes : ℕ := 8120

/-- `SEND_BATCH`, the granularity at which the frame is flushed. -/
@[irreducible] def sendBatch : ℕ := 4 * 1024 * 1024

/-- A cast to `i32`, or 32-bit arithmetic in the release profile: the value wraps. -/
@[irreducible] def asI32 (x : ℤ) : ℤ := Int.bmod x (2 ^ 32)

/-- The `width` big-endian bytes of an integer in two's complement. -/
def beBytes : ℕ → ℤ → Bytes
  | 0, _ => []
  | width + 1, x => UInt8.ofNat (x / 256 ^ width % 256).toNat :: beBytes width x

def copyHeader : Bytes :=
  [0x50, 0x47, 0x43, 0x4F, 0x50, 0x59, 0x0A, 0xFF, 0x0D, 0x0A, 0x00,
    0x00, 0x00, 0x00, 0x00, 0x00, 0x00, 0x00, 0x00]

def copyTrailer : Bytes := [0xFF, 0xFF]

/-- One framed tuple: field count, then length and value of each field. -/
def frameRow (fileId no : ℤ) (data : Bytes) : Bytes :=
  beBytes 2 3 ++ beBytes 4 8 ++ beBytes 8 fileId ++ beBytes 4 4 ++ beBytes 4 no ++
    beBytes 4 data.length ++ data

def frameRows (fileId firstNo : ℤ) (data out : Bytes) : Bytes :=
  let nrows := (data.length + rowBytes - 1) / rowBytes
  out ++ (List.range nrows).flatMap fun (i : ℕ) =>
    frameRow fileId (asI32 (firstNo + asI32 i))
      (sliceOf data (i * rowBytes) (min ((i + 1) * rowBytes) data.length))

/-- The framer's state; `hashed` is everything its hasher was fed. -/
structure RowFramer where
  fileId : ℤ
  hashed : Bytes
  pending : Bytes
  frame : Bytes
  nextNo : ℤ
  total : ℤ

namespace RowFramer

def new (fileId : ℤ) : RowFramer where
  fileId := fileId
  hashed := []
  pending := []
  frame := []
  nextNo := 0
  total := 0

/-- Frame one incoming chunk; the first component is the buffer to flush. -/
def push (f : RowFramer) (chunk : Bytes) : Option Bytes × RowFramer :=
  let pending := f.pending ++ chunk
  let f := { f with
    hashed := f.hashed ++ chunk, total := f.total + chunk.length, pending := pending }
  let whole := pending.length - pending.length % rowBytes
  if whole = 0 then (none, f)
  else
    let frame := frameRows f.fileId f.nextNo (pending.take whole) f.frame
    let f := { f with
      nextNo := asI32 (f.nextNo + asI32 ↑(whole / rowBytes)), pending := pending.drop whole }
    if sendBatch ≤ frame.length then (some frame, { f with frame := [] })
    else (none, { f with frame := frame })

/-- Flush the partial row and the trailer; returns the last buffer, the size and
the hash of everything streamed. -/
def finish (sha256 : Bytes → Bytes) (f : RowFramer) : Bytes × ℤ × Bytes :=
  let frame :=
    if f.pending = [] then f.frame else frameRows f.fileId f.nextNo f.pending f.frame
  (frame ++ copyTrailer, f.total, sha256 f.hashed)

/-- The receive loop of `ingest_writer`: every pushed chunk in order. The first
component is everything sent to the COPY stream on the way. -/
def pushAll : RowFramer → List Bytes → Bytes × RowFramer
  | f, [] => ([], f)
  | f, chunk :: rest =>
      let (buf, f) := f.push chunk
      let (sent, f) := f.pushAll rest
      (buf.getD [] ++ sent, f)

end RowFramer

/-- The whole COPY stream of one ingest, with the size and hash it reports. -/
def copyStream (sha256 : Bytes → Bytes) (fileId : ℤ) (pushes : List Bytes) :
    Bytes × ℤ × Bytes :=
  let (sent, framer) := (RowFramer.new fileId).pushAll pushes
  let (last, total, sum) := framer.finish sha256
  (copyHeader ++ sent ++ last, total, sum)

/-! ## What PostgreSQL reads

The binary COPY format of the PostgreSQL documentation: an 11-byte signature, flags
and an empty header extension, then tuples of counted fields up to a field count of
`-1`. -/

def takeBytes (n : ℕ) (bs : Bytes) : Option (Bytes × Bytes) :=
  if n ≤ bs.length then some (bs.take n, bs.drop n) else none

def beNat (bs : Bytes) : ℕ := bs.foldl (fun acc b => acc * 256 + b.toNat) 0

def beInt (bs : Bytes) : ℤ := Int.bmod (beNat bs) (256 ^ bs.length)

def readInt (width : ℕ) (bs : Bytes) : Option (ℤ × Bytes) :=
  (takeBytes width bs).map fun (field, rest) => (beInt field, rest)

/-- A field of a fixed-width integer type: its length word must be that width. -/
def readIntField (width : ℕ) (bs : Bytes) : Option (ℤ × Bytes) :=
  match readInt 4 bs with
  | some (len, rest) => if len = width then readInt width rest else none
  | none => none

/-- A `bytea` field; a negative length is a NULL, which the column refuses. -/
def readByteaField (bs : Bytes) : Option (Bytes × Bytes) :=
  match readInt 4 bs with
  | some (len, rest) => if 0 ≤ len then takeBytes len.toNat rest else none
  | none => none

def readRow (bs : Bytes) : Option (ChunkRow × Bytes) :=
  match readIntField 8 bs with
  | none => none
  | some (fileId, bs) =>
      match readIntField 4 bs with
      | none => none
      | some (no, bs) =>
          match readByteaField bs with
          | none => none
          | some (data, bs) => some (⟨fileId, no, data⟩, bs)

/-- Tuples up to the trailer. Each one takes at least two bytes, so the length of
the stream bounds their number. -/
def readTuples : ℕ → Bytes → Option (List ChunkRow)
  | 0, _ => none
  | fuel + 1, bs =>
      match readInt 2 bs with
      | none => none
      | some (count, bs) =>
          if count = -1 then (if bs = [] then some [] else none)
          else if count = 3 then
            match readRow bs with
            | none => none
            | some (row, bs) => (readTuples fuel bs).map (row :: ·)
          else none

def copyDecode (bs : Bytes) : Option (List ChunkRow) :=
  if bs.take copyHeader.length = copyHeader then
    readTuples bs.length (bs.drop copyHeader.length)
  else none

end Pgvs3
