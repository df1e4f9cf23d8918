import Pgvs3.Model.Handlers
import Pgvs3.Model.Transactions
import Pgvs3.Library.Utf8

/-! # Handlers of writes

The handlers of `server.rs` that change objects: what they refuse before a transaction, which
transactions they begin, and what they answer to the reply of one. -/

namespace Pgvs3

open Library

/-- `ETag` of `s3s`. -/
inductive ETag where
  | strong (value : Text)
  | weak (value : Text)
  deriving DecidableEq, Repr

def ETag.value : ETag → Text
  | .strong value => value
  | .weak value => value

/-- `ETagCondition` of `s3s`. -/
inductive ETagCondition where
  | etag (e : ETag)
  | any
  deriving DecidableEq, Repr

/-- The errors of `S3Error`, and those that only writes have. -/
inductive WriteError where
  | shared (e : S3Error)
  | invalidRequest
  | notImplemented
  | preconditionFailed
  deriving DecidableEq, Repr

/-- The error after a query of `bucket_exists`, if any. -/
def bucketError (there : Except ReadError Bool) : Option WriteError :=
  match there with
  | .error _ => some (.shared .internalError)
  | .ok true => none
  | .ok false => some (.shared .noSuchBucket)

def isAsciiHexdigit (b : ℕ) : Bool :=
  (48 ≤ b && b ≤ 57) || (65 ≤ b && b ≤ 70) || (97 ≤ b && b ≤ 102)

def validEtag (value : Text) : Bool :=
  (utf8 value).length = 64 && (utf8 value).all isAsciiHexdigit

/-! ## put_object -/

structure PutObjectInput where
  bucket : Text
  key : Text
  ifMatch : Option ETagCondition
  ifNoneMatch : Option ETagCondition
  body : Option (List Bytes)
  deriving DecidableEq

/-- The condition that the headers ask for, where it is one of those supported. -/
def PutObjectInput.condition (input : PutObjectInput) : Option PutCondition :=
  match input.ifMatch, input.ifNoneMatch with
  | none, none => some .unconditional
  | none, some .any => some .ifAbsent
  | some (.etag (.strong value)), none => if validEtag value then some (.ifMatch value) else none
  | _, _ => none

def putObject (there : Except ReadError Bool) (now fileId : ℤ) (input : PutObjectInput) :
    Except WriteError Job :=
  match input.condition with
  | none => .error .invalidRequest
  | some condition =>
      match bucketError there with
      | some e => .error e
      | none => .ok (.put now input.bucket input.key condition fileId (input.body.getD []))

/-- The answer with the `ETag`; after a failure the handler looks for the bucket again. -/
def putObjectAnswer (there : Except ReadError Bool) : Outcome → Except WriteError Text
  | .stored _ sum => .ok (hex sum)
  | .failed .preconditionFailed => .error .preconditionFailed
  | _ => .error ((bucketError there).getD (.shared .internalError))

/-! ## delete_object and delete_objects -/

structure DeleteObjectInput where
  bucket : Text
  key : Text
  ifMatch : Option ETagCondition
  ifMatchSize : Option ℤ
  ifMatchLastModifiedTime : Option ℤ
  versionId : Option Text
  deriving DecidableEq, Repr

def deleteObject (there : Except ReadError Bool) (input : DeleteObjectInput) :
    Except WriteError Job :=
  if input.ifMatch.isSome || input.ifMatchSize.isSome || input.ifMatchLastModifiedTime.isSome ||
      input.versionId.isSome then .error .notImplemented
  else
    match bucketError there with
    | some e => .error e
    | none => .ok (.delete input.bucket input.key)

structure ObjectIdentifier where
  key : Text
  versionId : Option Text
  eTag : Option ETag
  lastModifiedTime : Option ℤ
  size : Option ℤ
  deriving DecidableEq, Repr

structure DeleteObjectsInput where
  bucket : Text
  objects : List ObjectIdentifier
  deriving DecidableEq, Repr

def ObjectIdentifier.unsupported (obj : ObjectIdentifier) : Bool :=
  obj.versionId.isSome || obj.eTag.isSome || obj.lastModifiedTime.isSome || obj.size.isSome

/-- The deletions, one after another; the whole batch is validated before the first. -/
def deleteObjects (there : Except ReadError Bool) (input : DeleteObjectsInput) :
    Except WriteError (List Job) :=
  match bucketError there with
  | some e => .error e
  | none =>
      if input.objects.length > 1000 then .error .invalidRequest
      else if input.objects.any ObjectIdentifier.unsupported then .error .notImplemented
      else .ok (input.objects.map fun obj => .delete input.bucket obj.key)

/-- What a handler makes of the reply of one deletion. -/
def deleteAnswer : Outcome → Except WriteError Unit
  | .found _ => .ok ()
  | _ => .error (.shared .internalError)

/-! ## complete_multipart_upload -/

/-- The input with the conditions that the request carries. -/
structure CompleteRequest extends CompleteInput where
  ifMatch : Option ETagCondition
  ifNoneMatch : Option ETagCondition
  deriving DecidableEq, Repr

def completeRequest (now : ℤ) (input : CompleteRequest) : Except WriteError Job :=
  match input.listed with
  | .error e => .error (.shared e)
  | .ok parts => .ok (.completeUpload now input.uploadId input.bucket input.key parts)

/-- The answer; `found` is what `meta_fresh` finds when the upload is not there. -/
def completeAnswer (input : CompleteRequest) (found : Except ReadError (Option Meta)) :
    Outcome → Except WriteError CompleteOutput
  | .completed (.done bucket key sum _) =>
      .ok ⟨some ('/' :: bucket ++ '/' :: key), bucket, key, hex sum⟩
  | .completed .invalidPart => .error (.shared .invalidPart)
  | .completed .noSuchUpload => (answerRetried input.toCompleteInput found).mapError .shared
  | _ => .error (.shared .internalError)

/-! ## Every write -/

inductive WriteRequest where
  | putObject (input : PutObjectInput)
  | deleteObject (input : DeleteObjectInput)
  | deleteObjects (input : DeleteObjectsInput)
  | completeMultipartUpload (input : CompleteRequest)
  deriving DecidableEq

/-- The queries that a handler makes outside of its transaction: those of `bucket_exists`, and
that of `meta_fresh` on the store as it is by then. -/
structure Lookups where
  bucketBefore : Except ReadError Bool
  bucketAfter : Except ReadError Bool
  later : Db
  fault : Option ReadError

/-- The transactions that the handler begins, unless it refuses the request. -/
def WriteRequest.begins (req : WriteRequest) (lookups : Lookups) (now fileId : ℤ) :
    Except WriteError (List Job) :=
  match req with
  | .putObject input =>
      (Pgvs3.putObject lookups.bucketBefore now fileId input).map fun job => [job]
  | .deleteObject input => (Pgvs3.deleteObject lookups.bucketBefore input).map fun job => [job]
  | .deleteObjects input => Pgvs3.deleteObjects lookups.bucketBefore input
  | .completeMultipartUpload input => (completeRequest now input).map fun job => [job]

/-- Whether the handler answers the reply of a transaction with an error. -/
def WriteRequest.refuses (req : WriteRequest) (lookups : Lookups) (a : Outcome) : Bool :=
  match req with
  | .putObject _ => (putObjectAnswer lookups.bucketAfter a).toBool = false
  | .deleteObject _ => (deleteAnswer a).toBool = false
  | .deleteObjects _ => (deleteAnswer a).toBool = false
  | .completeMultipartUpload input =>
      (completeAnswer input (metaQuery lookups.later input.bucket input.key lookups.fault) a).toBool =
        false

end Pgvs3
