import Pgvs3.Library.Table

/-! # Storage layout

The tables of `schema.sql`. A table's primary key is part of its type; the other
constraints are checked by the statements that could break them. File ids, sizes and
row numbers are integers, and clocks count microseconds. -/

namespace Pgvs3

open Library

abbrev Bytes := List UInt8

/-- Unicode text, one scalar value at a time. -/
abbrev Text := List Char

structure BucketRow where
  name : Text
  createdAt : ℤ
  deriving DecidableEq, Repr

structure ObjectRow where
  bucket : Text
  key : Text
  fileId : ℤ
  size : ℤ
  etag : Bytes
  createdAt : ℤ
  parts : Option (List ℤ)
  partEnds : Option (List ℤ)
  deriving DecidableEq, Repr

def ObjectRow.primaryKey (r : ObjectRow) : Text × Text := (r.bucket, r.key)

structure ChunkRow where
  fileId : ℤ
  no : ℤ
  data : Bytes
  deriving DecidableEq, Repr

def ChunkRow.primaryKey (r : ChunkRow) : ℤ × ℤ := (r.fileId, r.no)

structure UploadRow where
  uploadId : Text
  bucket : Text
  key : Text
  createdAt : ℤ
  deriving DecidableEq, Repr

structure UploadPartRow where
  uploadId : Text
  partNo : ℤ
  fileId : ℤ
  size : ℤ
  sha256 : Bytes
  deriving DecidableEq, Repr

def UploadPartRow.primaryKey (r : UploadPartRow) : Text × ℤ := (r.uploadId, r.partNo)

/-- The database: five tables and the last value drawn from the sequence behind
`objects.file_id`. -/
structure Db where
  buckets : Table BucketRow.name
  objects : Table ObjectRow.primaryKey
  chunks : Table ChunkRow.primaryKey
  uploads : Table UploadRow.uploadId
  uploadParts : Table UploadPartRow.primaryKey
  fileSeq : ℤ
  deriving DecidableEq

def Db.empty : Db where
  buckets := Table.empty
  objects := Table.empty
  chunks := Table.empty
  uploads := Table.empty
  uploadParts := Table.empty
  fileSeq := 0

/-- Why a transaction was rolled back. -/
inductive DbError where
  | bucketDoesNotExist
  | preconditionFailed
  | ingestAborted
  | invalidExpiryBudget
  | foreignKeyViolation
  | uniqueViolation
  | badCopyFormat
  | sequenceExhausted
  deriving DecidableEq, Repr

/-- A transaction either commits a result or rolls everything back. -/
abbrev Tx (α : Type) := Except DbError α

/-! ## Rows and owners -/

/-- The files an object row names: its single file, or its parts in order. -/
def ObjectRow.files (r : ObjectRow) : List ℤ :=
  match r.parts with
  | none => [r.fileId]
  | some ids => ids

end Pgvs3
