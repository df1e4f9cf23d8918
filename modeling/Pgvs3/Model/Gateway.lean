import Pgvs3.Model.Read
import Pgvs3.Library.Transition

/-! # One gateway's cache

What the operations of one process do to the cache entry of a key. Each does its database
step first, a commit or a lookup, and its cache step later; steps of different operations
interleave in any order. -/

namespace Pgvs3

open Library

/-- A cache step that an operation still has to make. `version` is the number of the version
that its database step committed or saw. -/
inductive CacheUpdate where
  /-- `publish_cache`, of a PUT or a Complete. -/
  | publish (version : ℕ) (m : Meta)
  /-- `meta_invalidate`, of a DELETE. -/
  | forget (version : ℕ)
  /-- What `meta_fresh` does with the row that its query found, or with none. -/
  | refresh (version : ℕ) (found : Option Meta)
  deriving DecidableEq

def CacheUpdate.version : CacheUpdate → ℕ
  | .publish version _ => version
  | .forget version => version
  | .refresh version _ => version

/-- A key as one process sees it. `history` lists its versions in commit order, `none` for a
deletion; those in `foreign` are of other processes. `settled` are the process's own writes
that have made their cache step, and `acked` those that were acknowledged. -/
structure Gateway where
  history : List (Option Meta)
  foreign : List ℕ
  cache : MetaCache
  pending : List CacheUpdate
  settled : List ℕ
  acked : List ℕ

def Gateway.start : Gateway := ⟨[], [], MetaCache.empty, [], [], []⟩

inductive GatewayEvent where
  /-- A PUT or Complete commits; `now` is the clock that `publish_cache` reads. -/
  | write (m : Meta) (now : ℤ)
  /-- A DELETE commits. -/
  | delete
  /-- Another process commits a write or, with `none`, a deletion. -/
  | foreign (v : Option Meta)
  /-- The query of `meta_fresh`. -/
  | lookup
  /-- The `i`-th pending operation makes its cache step. -/
  | update (i : ℕ)
  /-- The `i`-th pending operation is dropped. -/
  | abandon (i : ℕ)
  /-- The `i`-th settled write is acknowledged. -/
  | acknowledge (i : ℕ)
  /-- `get_body` finds the entry stale. -/
  | invalidate
  /-- An operation on another key makes its cache step. -/
  | elsewhere (bucket key : Text) (m : Option Meta)
  deriving DecidableEq

/-- The metadata of a new version names a file that no version had. -/
def Gateway.fresh (s : Gateway) (m : Meta) : Bool :=
  s.history.all fun v => v.all fun r => r.fileId ≠ m.fileId

/-- The effect of a cache step on the entry of the key. -/
def CacheUpdate.run (bucket key : Text) (c : MetaCache) : CacheUpdate → MetaCache
  | .publish _ m => c.put metaCap bucket key m
  | .forget _ => c.invalidate bucket key
  | .refresh _ found => (metaFresh c bucket key (.ok found)).2

def CacheUpdate.settles : CacheUpdate → List ℕ
  | .publish version _ => [version]
  | .forget version => [version]
  | .refresh _ _ => []

def Gateway.step (bucket key : Text) (s : Gateway) : GatewayEvent → Option Gateway
  | .write m now =>
      if s.fresh m then
        some { s with
          history := s.history ++ [some m]
          pending := s.pending ++ [.publish s.history.length { m with createdAt := now }] }
      else none
  | .delete =>
      some { s with
        history := s.history ++ [none]
        pending := s.pending ++ [.forget s.history.length] }
  | .foreign v =>
      if v.all s.fresh then
        some { s with
          history := s.history ++ [v]
          foreign := s.foreign ++ [s.history.length] }
      else none
  | .lookup =>
      some { s with
        pending := s.pending ++ [.refresh (s.history.length - 1) (s.history.getLast?.getD none)] }
  | .update i =>
      match s.pending[i]? with
      | none => none
      | some u =>
          some { s with
            cache := u.run bucket key s.cache
            pending := s.pending.eraseIdx i
            settled := s.settled ++ u.settles }
  | .abandon i => some { s with pending := s.pending.eraseIdx i }
  | .acknowledge i =>
      match s.settled[i]? with
      | none => none
      | some version =>
          some { s with settled := s.settled.eraseIdx i, acked := s.acked ++ [version] }
  | .invalidate => some { s with cache := s.cache.invalidate bucket key }
  | .elsewhere bucket' key' m =>
      if (bucket', key') = (bucket, key) then none
      else
        some { s with
          cache :=
            match m with
            | some m => s.cache.put metaCap bucket' key' m
            | none => s.cache.invalidate bucket' key' }

def GatewayStep (bucket key : Text) (s : Gateway) (e : GatewayEvent) (s' : Gateway) : Prop :=
  s.step bucket key e = some s'

end Pgvs3
