import Pgvs3.Library.Transition
import Mathlib.Logic.Function.Basic
import Mathlib.Tactic

/-! # Starting a gateway

`init` and `init_locked` of `db.rs`: every gateway checks or creates the storage layout under
an advisory lock. The statements of gateways that start at the same time interleave, and a
connection can be lost at each of them or later. -/

namespace Pgvs3

open Library

def layoutVersion : ℤ := 3

/-- What `init` sees and changes of a database: whether `s3p.chunks` is there, and the rows
of `s3p.layout` if that is there. -/
structure Catalog where
  chunks : Bool
  layout : Option (List ℤ)
  deriving DecidableEq, Repr

/-- `SCHEMA` creates what is missing. -/
def Catalog.schema (c : Catalog) : Catalog where
  chunks := true
  layout := some (c.layout.getD [])

/-- `INSERT INTO s3p.layout (version) SELECT $1 WHERE NOT EXISTS (SELECT 1 FROM s3p.layout)`. -/
def Catalog.record (c : Catalog) (version : ℤ) : Catalog :=
  match c.layout with
  | some [] => { c with layout := some [version] }
  | _ => c

inductive InitError where
  | query
  | otherLayout (found : ℤ)
  | emptyLayout
  deriving DecidableEq, Repr

/-- Which answer `init` waits for. -/
inductive InitPhase where
  /-- `pg_advisory_lock`. -/
  | locking
  /-- `to_regclass('s3p.chunks')`. -/
  | looking
  /-- `to_regclass('s3p.layout')`. -/
  | marking
  /-- `SELECT max(version) FROM s3p.layout`. -/
  | reading
  /-- `SCHEMA`. -/
  | creating
  /-- The insert into `s3p.layout`. -/
  | recording
  /-- `pg_advisory_unlock`. -/
  | unlocking (result : Except InitError Unit)
  /-- `init` has returned. -/
  | returned (result : Except InitError Unit)
  deriving DecidableEq

def checkLayout (version : ℤ) : Option ℤ → InitPhase
  | some v => if v = version then .creating else .unlocking (.error (.otherLayout v))
  | none => .unlocking (.error .emptyLayout)

/-- The gateways `ι` that start on one database. -/
structure Starting (ι : Type*) where
  catalog : Catalog
  /-- The session that has the advisory lock. -/
  holder : Option ι
  phase : ι → InitPhase

inductive InitEvent where
  /-- The statement is answered. -/
  | answer
  /-- The statement fails. -/
  | refuse
  /-- The connection is lost, and the session ends; the statement may have run before. -/
  | lose (ran : Bool)
  deriving DecidableEq, Repr

/-- What the statement that a gateway waits for does to the database. -/
def InitPhase.effect (version : ℤ) : InitPhase → Catalog → Catalog
  | .creating, c => c.schema
  | .recording, c => c.record version
  | _, c => c

/-- The answer to the statement, and the next phase. -/
def InitPhase.next (version : ℤ) (c : Catalog) : InitPhase → InitPhase
  | .locking => .looking
  | .looking => if c.chunks then .marking else .creating
  | .marking => if c.layout.isSome then .reading else checkLayout version (some 1)
  | .reading => checkLayout version (c.layout.getD []).max?
  | .creating => .recording
  | .recording => .unlocking (.ok ())
  | .unlocking result => .returned result
  | .returned result => .returned result

variable {ι : Type*} [DecidableEq ι]

def Starting.start (c : Catalog) : Starting ι := ⟨c, none, fun _ => .locking⟩

/-- A step of the gateway `i`, which is built for the layout `version i`. -/
def Starting.step (version : ι → ℤ) (s : Starting ι) : ι × InitEvent → Option (Starting ι)
  | (i, .answer) =>
      match s.phase i with
      | .returned _ => none
      | .locking =>
          if s.holder = none then
            some { s with holder := some i, phase := Function.update s.phase i .looking }
          else none
      | .unlocking result =>
          some { s with
            holder := if s.holder = some i then none else s.holder
            phase := Function.update s.phase i (.returned result) }
      | phase =>
          some { s with
            catalog := phase.effect (version i) s.catalog
            phase := Function.update s.phase i (phase.next (version i) s.catalog) }
  | (i, .refuse) =>
      match s.phase i with
      | .returned _ => none
      | .locking => some { s with phase := Function.update s.phase i (.returned (.error .query)) }
      -- the answer to `pg_advisory_unlock` is ignored
      | .unlocking result => some { s with phase := Function.update s.phase i (.returned result) }
      | _ => some { s with phase := Function.update s.phase i (.unlocking (.error .query)) }
  | (i, .lose ran) =>
      match s.phase i with
      -- a session that is still locked ends
      | .returned _ => if s.holder = some i then some { s with holder := none } else none
      | .unlocking result =>
          some { s with
            holder := if s.holder = some i then none else s.holder
            phase := Function.update s.phase i (.returned result) }
      | phase =>
          some { s with
            catalog := if ran then phase.effect (version i) s.catalog else s.catalog
            holder := if s.holder = some i then none else s.holder
            phase := Function.update s.phase i (.returned (.error .query)) }

def InitStep (version : ι → ℤ) (s : Starting ι) (e : ι × InitEvent) (s' : Starting ι) : Prop :=
  s.step version e = some s'

end Pgvs3
