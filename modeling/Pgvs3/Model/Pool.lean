import Pgvs3.Library.Transition
import Mathlib.Tactic

/-! # The connection pool

`Pool::get`, `Inner::open` and `Pooled::drop` of `pg.rs`. Every access to the semaphore and
every visit to the locked idle stack is one step; calls and handles take their steps in any
order. -/

namespace Pgvs3

open Library

/-- A connection. `returned` numbers the returns to the idle stack; it is history only. -/
structure Conn where
  id : ℕ
  idleSince : ℤ
  returned : ℕ
  deriving DecidableEq, Repr

/-- The part of `Options` that `get` and `drop` read. -/
structure PoolOptions where
  min : ℕ
  max : ℕ
  deriving DecidableEq, Repr

/-- `IDLE_MAX`, in microseconds. -/
def idleMax : ℤ := 600 * 1000000

/-- The pool with its calls in progress. `permits` are free; a call that got one is
`searching` between two looks at the idle stack, then `opening` a connection or a `live`
handle; `returning` counts those that are done and still have to give their permit back. -/
structure Pool where
  permits : ℕ
  idle : List Conn
  searching : ℕ
  opening : List ℕ
  live : List Conn
  returning : ℕ
  closed : List ℕ
  opened : ℕ
  returns : ℕ
  deriving DecidableEq, Repr

inductive PoolEvent where
  /-- A call of `get` acquires its permit. -/
  | acquire
  /-- A searching call pops the idle stack. -/
  | look
  /-- `open` returns a connection. -/
  | openDone (id : ℕ) (now : ℤ)
  /-- `open` fails, or its call is dropped. -/
  | openFail (id : ℕ)
  /-- A connection closes, in use or idle. -/
  | close (id : ℕ)
  /-- A handle is dropped; `since` and `now` are its two readings of the clock. -/
  | drop (id : ℕ) (since now : ℤ)
  /-- A permit goes back. -/
  | release
  deriving DecidableEq, Repr

/-- The stack after a return: its bottom goes when it is too old and more than `min` are left. -/
def trimIdle (opts : PoolOptions) (now : ℤ) (idle : List Conn) : List Conn :=
  match idle with
  | [] => []
  | bottom :: rest =>
      if idle.length > opts.min ∧ now - bottom.idleSince > idleMax then rest else idle

def Pool.step (opts : PoolOptions) (s : Pool) : PoolEvent → Option Pool
  | .acquire =>
      if s.permits = 0 then none
      else some { s with permits := s.permits - 1, searching := s.searching + 1 }
  | .look =>
      if s.searching = 0 then none
      else
        match s.idle.getLast? with
        | none =>
            some { s with
              searching := s.searching - 1
              opening := s.opening ++ [s.opened]
              opened := s.opened + 1 }
        | some top =>
            if top.id ∈ s.closed then some { s with idle := s.idle.dropLast }
            else
              some { s with
                idle := s.idle.dropLast
                searching := s.searching - 1
                live := s.live ++ [top] }
  | .openDone id now =>
      if id ∈ s.opening then
        some { s with opening := s.opening.erase id, live := s.live ++ [⟨id, now, 0⟩] }
      else none
  | .openFail id =>
      if id ∈ s.opening then
        some { s with opening := s.opening.erase id, returning := s.returning + 1 }
      else none
  | .close id => some { s with closed := id :: s.closed }
  | .drop id since now =>
      match s.live.find? (fun c => c.id = id) with
      | none => none
      | some conn =>
          let live := s.live.erase conn
          if conn.id ∈ s.closed then some { s with live := live, returning := s.returning + 1 }
          else
            some { s with
              idle := trimIdle opts now (s.idle ++ [⟨conn.id, since, s.returns⟩])
              live := live
              returning := s.returning + 1
              returns := s.returns + 1 }
  | .release =>
      if s.returning = 0 then none
      else some { s with permits := s.permits + 1, returning := s.returning - 1 }

def PoolStep (opts : PoolOptions) (s : Pool) (e : PoolEvent) (s' : Pool) : Prop :=
  s.step opts e = some s'

/-- The pool that `connect` returns: `min` connections are warm. -/
def Pool.start (opts : PoolOptions) : Pool where
  permits := opts.max
  idle := (List.range opts.min).map fun i => ⟨i, 0, i⟩
  searching := 0
  opening := []
  live := []
  returning := 0
  closed := []
  opened := opts.min
  returns := opts.min

end Pgvs3
