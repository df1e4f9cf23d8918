import Pgvs3.Model.Handlers
import Pgvs3.Library.Utf8

/-! # Listing objects

`list` of `db.rs` and `list_objects_v2` of `server.rs`. Keys are compared by their UTF-8
bytes, as `COLLATE "C"` does. -/

namespace Pgvs3

open Library

def charFromU32 (n : ℕ) : Option Char := if n.isValidChar then some (Char.ofNat n) else none

/-- The loop of `prefix_end` over the characters from the last to the first. -/
def incrementLast : Text → Text
  | [] => [Char.ofNat 0x10FFFF]
  | last :: rest =>
      match charFromU32 (last.toNat + 1) with
      | some next => (next :: rest).reverse
      | none => incrementLast rest

def prefixEnd (start : Text) : Text := incrementLast start.reverse

structure Listed where
  key : Text
  size : ℤ
  etag : Bytes
  createdAt : ℤ
  deriving DecidableEq, Repr

def ObjectRow.listed (r : ObjectRow) : Listed := ⟨r.key, r.size, r.etag, r.createdAt⟩

/-- The rows of a bucket with `start ≤ key`, `key < stop` and `after < key`, in key order. -/
def selectKeys (db : Db) (bucket start stop after : Text) : List Listed :=
  sortByKey (fun r => utf8 r.key) ((db.objects.rows.filter fun r =>
    r.bucket = bucket ∧ utf8 start ≤ utf8 r.key ∧ utf8 r.key < utf8 stop ∧
      utf8 after < utf8 r.key).map ObjectRow.listed)

def list (db : Db) (bucket start stop after : Text) (limit : ℕ) : List Listed :=
  (selectKeys db bucket start stop after).take limit

/-- `str::find`, in characters. -/
def findText (pattern : Text) : Text → Option ℕ
  | [] => if pattern = [] then some 0 else none
  | c :: rest =>
      if pattern <+: c :: rest then some 0
      else (findText pattern rest).map (· + 1)

/-- What one page has collected; `seen` is the set of its common prefixes. -/
structure ListPage where
  contents : List Listed
  common : List Text
  seen : List Text
  deriving DecidableEq, Repr

def ListPage.count (page : ListPage) : ℕ := page.contents.length + page.common.length

/-- The rest of a key up to and including the first delimiter, after the prefix. -/
def commonPrefix (start delimiter rest : Text) : Option Text :=
  if delimiter = [] then none
  else (findText delimiter rest).map fun idx => start ++ rest.take (idx + delimiter.length)

/-- `listing_step`: the new page, the new cursor and whether the listing is full; `none`
when slicing the key panics. -/
def listingStep (r : Listed) (start delimiter : Text) (max : ℕ) (page : ListPage) :
    Option (ListPage × Text × Bool) :=
  match dropBytes (utf8 start).length r.key with
  | none => none
  | some rest =>
      match commonPrefix start delimiter rest with
      | some cp =>
          if cp ∈ page.seen then some (page, r.key, false)
          else
            let page := { page with seen := page.seen ++ [cp] }
            if page.count ≥ max then some (page, r.key, true)
            else some ({ page with common := page.common ++ [cp] }, r.key, false)
      | none =>
          if page.count ≥ max then some (page, r.key, true)
          else some ({ page with contents := page.contents ++ [r] }, r.key, false)

/-- The inner loop, over the rows of one query. -/
def listRows (start delimiter : Text) (max : ℕ) :
    List Listed → ListPage → Text → Option (ListPage × Text × Bool)
  | [], page, after => some (page, after, false)
  | r :: rest, page, _ =>
      match listingStep r start delimiter max page with
      | none => none
      | some (page, after, true) => some (page, after, true)
      | some (page, after, false) => listRows start delimiter max rest page after

/-- The limit of one query. -/
def listBatch : ℕ := 1024

/-- The outer loop. Its queries see the store one after the other in the states of the list;
`none` when it panics, or when it runs beyond them. -/
def listLoop (bucket start delimiter : Text) (max : ℕ) :
    List Db → ListPage → Text → Option (ListPage × Text × Bool)
  | [], _, _ => none
  | db :: dbs, page, after =>
      let rows := list db bucket start (prefixEnd start) after listBatch
      if rows = [] then some (page, after, false)
      else
        match listRows start delimiter max rows page after with
        | none => none
        | some (page, after, true) => some (page, after, true)
        | some (page, after, false) =>
            if rows.length < listBatch then some (page, after, false)
            else listLoop bucket start delimiter max dbs page after

structure ListInput where
  bucket : Text
  start : Option Text
  delimiter : Option Text
  maxKeys : Option ℤ
  continuationToken : Option Text
  startAfter : Option Text
  deriving DecidableEq, Repr

structure ListOutput where
  name : Text
  start : Text
  maxKeys : ℤ
  keyCount : ℤ
  continuationToken : Option Text
  isTruncated : Bool
  nextContinuationToken : Option Text
  contents : List Listed
  commonPrefixes : Option (List Text)
  delimiter : Option Text
  deriving DecidableEq, Repr

/-- `input.max_keys.unwrap_or(1000).clamp(0, 1000)`. -/
def ListInput.pageMax (input : ListInput) : ℕ := (min (max (input.maxKeys.getD 1000) 0) 1000).toNat

def listOutput (input : ListInput) (page : ListPage) (after : Text) (truncated : Bool) :
    ListOutput where
  name := input.bucket
  start := input.start.getD []
  maxKeys := input.pageMax
  keyCount := page.count
  continuationToken := input.continuationToken
  isTruncated := truncated
  nextContinuationToken := if truncated then some after else none
  contents := page.contents
  commonPrefixes := if page.common = [] then none else some page.common
  delimiter := if input.delimiter.getD [] = [] then none else some (input.delimiter.getD [])

/-- `list_objects_v2`, with the state of the store that the bucket check sees and those that
the queries see. -/
def listObjectsV2Through (checked : Db) (dbs : List Db) (input : ListInput) :
    Option (Except S3Error ListOutput) :=
  if bucketExists checked input.bucket then
    let after := (input.continuationToken.or input.startAfter).getD []
    match listLoop input.bucket (input.start.getD []) (input.delimiter.getD []) input.pageMax
        dbs ⟨[], [], []⟩ after with
    | none => none
    | some (page, after, truncated) => some (.ok (listOutput input page after truncated))
  else some (.error .noSuchBucket)

/-- `list_objects_v2` on a store that does not change. Every query but the last consumes a full
batch, so the number of rows bounds the queries. -/
def listObjectsV2 (db : Db) (input : ListInput) : Option (Except S3Error ListOutput) :=
  listObjectsV2Through db (List.replicate (db.objects.rows.length + 1) db) input

end Pgvs3
