import Pgvs3.Model.Store

/-! # Metadata cache

`cache.rs`: a map from bucket and key to metadata, bounded by a queue of its keys. -/

namespace Pgvs3

open Library

/-- `Meta`: enough to serve a range without reading `s3p.objects` again. -/
structure Meta where
  size : ℤ
  etag : Bytes
  createdAt : ℤ
  fileId : ℤ
  parts : Option (List ℤ)
  partEnds : Option (List ℤ)
  deriving DecidableEq, Repr

/-- The metadata that `meta_fresh` makes of an object row. -/
def ObjectRow.meta (r : ObjectRow) : Meta where
  size := r.size
  etag := r.etag
  createdAt := r.createdAt
  fileId := r.fileId
  parts := r.parts
  partEnds := r.partEnds

/-- The metadata that `publish_cache` makes of the row it has committed: its `created_at` is
the clock of the gateway, not the column. -/
def ObjectRow.metaAt (r : ObjectRow) (now : ℤ) : Meta := { r.meta with createdAt := now }

/-- File id, object offset and length of each part, from its cumulative end. -/
def segmentsFrom : ℤ → List (ℤ × ℤ) → List (ℤ × ℤ × ℤ)
  | _, [] => []
  | prev, (id, stop) :: rest => (id, prev, stop - prev) :: segmentsFrom stop rest

/-- File id, object offset and length of each stored segment. -/
def Meta.segments (m : Meta) : List (ℤ × ℤ × ℤ) :=
  match m.parts, m.partEnds with
  | some ids, some ends =>
      if ids.length = ends.length then segmentsFrom 0 (ids.zip ends)
      else [(m.fileId, 0, m.size)]
  | _, _ => [(m.fileId, 0, m.size)]

def metaCap : ℕ := 2 ^ 18

/-- `MetaCache`: the map and the queue of its keys, oldest first. -/
structure MetaCache where
  map : Table (Prod.fst : (Text × Text) × Meta → Text × Text)
  order : List (Text × Text)

namespace MetaCache

def empty : MetaCache := ⟨Table.empty, []⟩

def get (c : MetaCache) (bucket key : Text) : Option Meta :=
  (c.map.find? (bucket, key)).map Prod.snd

/-- `meta_put`: an overwrite keeps its place in the queue; a new key may evict. -/
def put (cap : ℕ) (c : MetaCache) (bucket key : Text) (m : Meta) : MetaCache :=
  let k := (bucket, key)
  let map := c.map.upsert (k, m)
  if c.map.find? k = none then
    let order := c.order ++ [k]
    if map.rows.length > cap then
      match order with
      | old :: order => ⟨map.deleteWhere (fun e => e.1 = old), order⟩
      | [] => ⟨map, order⟩
    else ⟨map, order⟩
  else ⟨map, c.order⟩

def invalidate (c : MetaCache) (bucket key : Text) : MetaCache :=
  let k := (bucket, key)
  if c.map.find? k = none then c
  else ⟨c.map.deleteWhere (fun e => e.1 = k), c.order.filter (fun e => e ≠ k)⟩

@[simp] theorem get_empty (bucket key : Text) : empty.get bucket key = none := rfl

@[simp] theorem get_invalidate (c : MetaCache) (bucket key : Text) :
    (c.invalidate bucket key).get bucket key = none := by
  unfold invalidate
  dsimp only
  split
  · rename_i h
    simp [get, h]
  · rw [get, Option.map_eq_none_iff, Table.find?_eq_none_iff]
    intro e he
    simpa using (Table.mem_deleteWhere.mp he).2

end MetaCache

end Pgvs3
