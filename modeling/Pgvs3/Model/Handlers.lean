import Pgvs3.Model.Operation
import Pgvs3.Model.Read

/-! # Request handlers

The handlers of `server.rs` around the transactions of the store. -/

namespace Pgvs3

inductive S3Error where
  | noSuchBucket
  | noSuchKey
  | invalidRange
  | invalidPart
  | noSuchUpload
  | internalError
  deriving DecidableEq, Repr

/-! ## get_object -/

/-- The `Range` header as `s3s` parses it. -/
inductive Range where
  | int (first : UInt64) (last : Option UInt64)
  | suffix (length : UInt64)
  deriving DecidableEq, Repr

@[irreducible] def asI64 (x : ℤ) : ℤ := Int.bmod x (2 ^ 64)

/-- `range_params`: first, last and suffix, with `-1` for what is not given. -/
def rangeParams : Option Range → ℤ × ℤ × ℤ
  | none => (0, -1, -1)
  | some (.int first last) =>
      (asI64 first.toNat, (last.map fun v => asI64 v.toNat).getD (-1), -1)
  | some (.suffix length) => (0, -1, asI64 length.toNat)

/-- The numbers in `Content-Range: bytes {start}-{stop}/{size}`. -/
structure ContentRange where
  start : ℤ
  stop : ℤ
  size : ℤ
  deriving DecidableEq, Repr

structure GetOutput where
  acceptRanges : Text
  body : PieceBody
  contentLength : ℤ
  contentRange : Option ContentRange
  contentType : Text
  eTag : Text
  lastModified : ℤ
  deriving DecidableEq

/-- `bucket_exists`, as it answers when the object is not there, says which error that is. -/
def absentError (bucketThere : Except ReadError Bool) : S3Error :=
  match bucketThere with
  | .error _ => .internalError
  | .ok true => .noSuchKey
  | .ok false => .noSuchBucket

def getObject (env : Fin 2 → Attempt) (bucketThere : Except ReadError Bool) (bucket key : Text)
    (range : Option Range) (c : MetaCache) : Except S3Error GetOutput :=
  let (first, last, suffix) := rangeParams range
  match (getBody env bucket key first last suffix c).1 with
  | .failed _ => .error .internalError
  | .absent => .error (absentError bucketThere)
  | .served s body =>
      if s.size > 0 ∧ (s.start > s.stop ∨ s.start ≥ s.size) then .error .invalidRange
      else
        .ok
          { acceptRanges := "bytes".toList
            body := body
            contentLength := s.len
            contentRange := range.map fun _ => ⟨s.start, s.stop, s.size⟩
            contentType := "application/octet-stream".toList
            eTag := hex s.etag
            lastModified := s.createdAt }

/-! ## complete_multipart_upload -/

/-- One entry of the request's part list; both fields are optional in S3. -/
structure CompletedPart where
  partNumber : Option ℤ
  eTag : Option Text
  deriving DecidableEq, Repr

structure CompleteInput where
  uploadId : Text
  bucket : Text
  key : Text
  parts : Option (List CompletedPart)
  deriving DecidableEq, Repr

structure CompleteOutput where
  location : Option Text
  bucket : Text
  key : Text
  eTag : Text
  deriving DecidableEq, Repr

/-- The part list of a request; an entry without a number is an invalid part. -/
def listedParts : List CompletedPart → Except S3Error (List (ℤ × Text))
  | [] => .ok []
  | cp :: rest =>
      match cp.partNumber with
      | none => .error .invalidPart
      | some no =>
          match listedParts rest with
          | .error e => .error e
          | .ok parts => .ok ((no, cp.eTag.getD []) :: parts)

def CompleteInput.listed (input : CompleteInput) : Except S3Error (List (ℤ × Text)) :=
  listedParts (input.parts.getD [])

/-- The query of `meta_fresh`, which may fail. -/
def metaQuery (db : Db) (bucket key : Text) (fault : Option ReadError) :
    Except ReadError (Option Meta) :=
  match fault with
  | some e => .error e
  | none => .ok ((db.objects.find? (bucket, key)).map ObjectRow.meta)

/-- The answer when the upload is not there: that of a retry after a lost response. -/
def answerRetried (input : CompleteInput) (found : Except ReadError (Option Meta)) :
    Except S3Error CompleteOutput :=
  match found with
  | .error _ => .error .internalError
  | .ok (some m) => .ok ⟨none, input.bucket, input.key, hex m.etag⟩
  | .ok none => .error .noSuchUpload

/-- The answer of the handler: its transaction runs on `db`, and by the time it looks the
object up the store has become `later`. -/
def completeMultipartUpload (sha256 : Bytes → Bytes) (db later : Db) (now : ℤ)
    (input : CompleteInput) (fault : Option ReadError) : Except S3Error CompleteOutput :=
  match input.listed with
  | .error e => .error e
  | .ok parts =>
      match completeUpload sha256 db now input.uploadId input.bucket input.key parts with
      | .error _ => .error .internalError
      | .ok (_, .done bucket key sum _) =>
          .ok ⟨some ('/' :: bucket ++ '/' :: key), bucket, key, hex sum⟩
      | .ok (_, .invalidPart) => .error .invalidPart
      | .ok (_, .noSuchUpload) =>
          answerRetried input (metaQuery later input.bucket input.key fault)

end Pgvs3
