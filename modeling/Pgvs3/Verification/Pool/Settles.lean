import Pgvs3.Verification.Pool.Budget
import Pgvs3.Library.Progress

/-! # The pool settles

A call of `get` may have to throw away connections that have died on the idle stack, and it
may fail to open one. It ends all the same, and its permit comes back. -/

namespace Pgvs3

open Library

variable {opts : PoolOptions} {s s' : Pool} {e : PoolEvent} {events : List PoolEvent}

/-- The events of calls that have a permit, and of handles. -/
def PoolEvent.ofCall : PoolEvent → Bool
  | .look | .openDone _ _ | .openFail _ | .drop _ _ _ | .release => true
  | .acquire | .close _ => false

def PoolEvent.isAcquire : PoolEvent → Bool
  | .acquire => true
  | .look | .openDone _ _ | .openFail _ | .drop _ _ _ | .release | .close _ => false

/-- The steps that calls and handles have still to take, at most: a handle can leave an idle
connection behind that a later look throws away. -/
def Pool.work (s : Pool) : ℕ :=
  5 * s.searching + 4 * s.opening.length + 3 * s.live.length + s.idle.length + s.returning

theorem Pool.work_le (hstep : PoolStep opts s e s') :
    (if e.ofCall then 1 else 0) + s'.work ≤ s.work + if e.isAcquire then 5 else 0 := by
  unfold Pool.work
  cases hstep.moves with
  | acquire =>
      simp only [PoolEvent.ofCall, PoolEvent.isAcquire, Bool.false_eq_true, if_false, if_true]
      omega
  | close => simp [PoolEvent.ofCall, PoolEvent.isAcquire]
  | openNew | release =>
      simp only [PoolEvent.ofCall, PoolEvent.isAcquire, Bool.false_eq_true, if_false, if_true,
        List.length_append, List.length_singleton]
      omega
  | skip hidle | reuse hsearching hidle =>
      have hlen := congrArg List.length hidle
      rw [List.length_append, List.length_singleton] at hlen
      simp only [PoolEvent.ofCall, PoolEvent.isAcquire, Bool.false_eq_true, if_false, if_true,
        List.length_append, List.length_singleton]
      omega
  | openDone hid | openFail hid | discard hid =>
      have hlen := List.length_erase_add_one hid
      simp only [PoolEvent.ofCall, PoolEvent.isAcquire, Bool.false_eq_true, if_false, if_true,
        List.length_append, List.length_singleton]
      omega
  | @giveBack conn since now hlive =>
      have hlen := List.length_erase_add_one hlive
      have htrim := (trimIdle_sublist opts now (s.idle ++ [⟨conn.id, since, s.returns⟩])).length_le
      rw [List.length_append, List.length_singleton] at htrim
      simp only [PoolEvent.ofCall, PoolEvent.isAcquire, Bool.false_eq_true, if_false, if_true]
      omega

/-- When calls and handles can do no more, there are none. -/
theorem Pool.settled (hstuck : Stuck (Only (·.ofCall = true) (PoolStep opts)) s) :
    s.searching = 0 ∧ s.opening = [] ∧ s.live = [] ∧ s.returning = 0 := by
  refine ⟨?_, ?_, ?_, ?_⟩
  · by_contra hsearching
    have hlook : ∃ s', s.step opts .look = some s' := by
      simp only [Pool.step, if_neg hsearching]
      split
      · exact ⟨_, rfl⟩
      · split <;> exact ⟨_, rfl⟩
    obtain ⟨s', hstep⟩ := hlook
    exact hstuck .look s' ⟨rfl, hstep⟩
  · cases hopening : s.opening with
    | nil => rfl
    | cons id rest =>
        have hid : id ∈ s.opening := by simp [hopening]
        exact (hstuck (.openFail id) _ ⟨rfl, by rw [PoolStep, Pool.step, if_pos hid]⟩).elim
  · cases hlive : s.live with
    | nil => rfl
    | cons conn rest =>
        have hdrop : ∃ s', s.step opts (.drop conn.id 0 0) = some s' := by
          simp only [Pool.step, hlive, List.find?_cons, decide_true]
          split <;> exact ⟨_, rfl⟩
        obtain ⟨s', hstep⟩ := hdrop
        exact (hstuck (.drop conn.id 0 0) s' ⟨rfl, hstep⟩).elim
  · by_contra hback
    exact hstuck .release _ ⟨rfl, by rw [PoolStep, Pool.step, if_neg hback]⟩

/-- The calls and handles of a pool, after any events in any order. -/
structure Pool.Settles (opts : PoolOptions) (events : List PoolEvent) (s : Pool) : Prop where
  /-- A call costs at most five steps, and one for each connection that was warm. -/
  bounded : events.countP PoolEvent.ofCall ≤ opts.min + 5 * events.countP PoolEvent.isAcquire
  /-- When they can do no more, every permit is free and all connections are idle. -/
  settled : Stuck (Only (·.ofCall = true) (PoolStep opts)) s →
    s.permits = opts.max ∧ s.conns = s.idle.map (·.id)

/-- However openings fail and connections die, every call ends and gives its permit back. -/
theorem pool_settles (hmin : opts.min ≤ opts.max)
    (hrun : Trace (PoolStep opts) (Pool.start opts) events s) : s.Settles opts events := by
  have h : s.Sound opts :=
    hrun.invariant (fun _ _ _ hs hstep => hs.step hstep) (pool_sound_start hmin)
  refine ⟨?_, fun hstuck => ?_⟩
  · have hcount : events.countP PoolEvent.ofCall + s.work ≤
        (Pool.start opts).work + 5 * events.countP PoolEvent.isAcquire :=
      hrun.amortized fun _ _ _ hstep => Pool.work_le hstep
    have hwork : (Pool.start opts).work = opts.min := by simp [Pool.work, Pool.start]
    omega
  · obtain ⟨hsearching, hopening, hlive, hreturning⟩ := Pool.settled hstuck
    have hpermits := h.permits_eq
    rw [hsearching, hopening, hlive, hreturning] at hpermits
    exact ⟨by simpa using hpermits, by simp [Pool.conns, hopening, hlive]⟩

/-- A call throws away a dead connection, and the one that it opens instead fails. -/
theorem pool_settles_deadConnection :
    (⟨2, [], 0, [], [], 0, [0], 2, 1⟩ : Pool).Settles ⟨1, 2⟩
      [.close 0, .acquire, .look, .look, .openFail 1, .release] :=
  pool_settles (by decide) (trace_iff_runAll.mpr (by decide))

end Pgvs3
