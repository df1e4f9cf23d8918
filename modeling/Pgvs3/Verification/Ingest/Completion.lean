import Pgvs3.Verification.Ingest.Cancellation
import Pgvs3.Library.Progress

/-! # Every upload comes to an end

The handler and its task share a bounded channel, and each waits for the other: for room, for
a message, for the result. In no schedule do they wait for ever. -/

namespace Pgvs3

open Library

variable {job : IngestJob} {db : Db} {body : List (Option Bytes)} {s s' : Ingest} {e : IngestEvent}

/-- Events other than a failure of the task and the end of the handler. -/
def IngestEvent.undisturbed : IngestEvent → Bool
  | .abort | .dropFuture | .fail => false
  | .next | .send | .join | .opened | .recv | .commit => true

def IngestEvent.ofTask : IngestEvent → Bool
  | .opened | .recv | .commit => true
  | .next | .send | .abort | .join | .dropFuture | .fail => false

/-! ## The work that is left -/

/-- What the producer still does with what it holds; a message takes one more step to be
received. -/
def ProducerPhase.work : ProducerPhase → ℕ
  | .gone => 0
  | .joining => 1
  | .aborting => 3
  | .streaming => 4
  | .pushing _ => 6

def WriterPhase.work : WriterPhase → ℕ
  | .committed .. | .failed => 0
  | .ending => 1
  | .receiving => 2
  | .starting => 3

def Ingest.work (s : Ingest) : ℕ :=
  3 * s.body.length + s.producer.work + s.queue.length + s.writer.work

theorem Ingest.work_lt (hstep : IngestStep job s e s') : s'.work < s.work := by
  unfold Ingest.work
  cases hstep.moves with
  | item hphase hbody | broken hphase hbody =>
      simp only [hphase, hbody, ProducerPhase.work, List.length_cons]
      omega
  | push hphase hopen hroom | sendAbort hphase hopen hroom =>
      simp only [hphase, ProducerPhase.work, List.length_append, List.length_singleton]
      omega
  | finish hphase | pushClosed hphase | abortClosed hphase | abort hphase | join hphase =>
      simp only [hphase, ProducerPhase.work]
      omega
  | dropFuture hphase =>
      have hpos : 0 < s.producer.work := by
        cases hp : s.producer with
        | gone => exact absurd hp hphase
        | joining | aborting | streaming | pushing c => simp [ProducerPhase.work]
      have hgone : ProducerPhase.gone.work = 0 := rfl
      dsimp only
      omega
  | recvData hphase hqueue | recvAbort hphase hqueue =>
      simp only [hphase, hqueue, WriterPhase.work, List.length_cons]
      omega
  | opened hphase | recvEnd hphase | publish hphase | refuse hphase =>
      simp only [hphase, WriterPhase.work]
      omega
  | fail hopen =>
      have hpos : 0 < s.writer.work := by
        cases hw : s.writer with
        | committed _ _ | failed => simp [Ingest.receiverOpen, hw] at hopen
        | starting | receiving | ending => simp [WriterPhase.work]
      have hfailed : WriterPhase.failed.work = 0 := rfl
      dsimp only
      omega

/-! ## The channel -/

/-- The channel is bounded, and a handler that sends no more has closed it. -/
structure Ingest.Orderly (s : Ingest) : Prop where
  queue_le : s.queue.length ≤ ingestQueue
  closed : s.producer = .joining ∨ s.producer = .gone → s.senderOpen = false

theorem ingest_orderly_start : (Ingest.start db body).Orderly where
  queue_le := Nat.zero_le _
  closed := by simp [Ingest.start]

theorem Ingest.Orderly.step (h : s.Orderly) (hstep : IngestStep job s e s') : s'.Orderly := by
  cases hstep.moves with
  | item | broken | abort => exact ⟨h.queue_le, by simp⟩
  | finish | pushClosed | abortClosed | dropFuture => exact ⟨h.queue_le, fun _ => rfl⟩
  | push hphase hopen hroom => exact ⟨by simpa using hroom, by simp⟩
  | sendAbort hphase hopen hroom => exact ⟨by simpa using hroom, fun _ => rfl⟩
  | join hphase => exact ⟨h.queue_le, fun _ => h.closed (.inl hphase)⟩
  | opened | recvEnd | publish | refuse | fail => exact ⟨h.queue_le, h.closed⟩
  | recvData hphase hqueue | recvAbort hphase hqueue =>
      have hle := h.queue_le
      rw [hqueue, List.length_cons] at hle
      exact ⟨Nat.le_of_succ_le hle, h.closed⟩

theorem ingestStep_variant (job : IngestJob) :
    Variant (IngestStep job) Ingest.Orderly Ingest.work where
  keeps _ _ _ hs hstep := hs.step hstep
  decreases _ _ _ _ hstep := Ingest.work_lt hstep

/-- A task that cannot go on has returned, or waits for a handler that has not closed the
channel. -/
theorem Ingest.task_waits (hstuck : Stuck (Only (·.ofTask = true) (IngestStep job)) s) :
    s.receiverOpen = false ∨ s.queue = [] ∧ s.senderOpen = true := by
  cases hw : s.writer with
  | committed _ _ | failed => exact .inl (by simp [Ingest.receiverOpen, hw])
  | starting => exact (hstuck .opened _ ⟨rfl, by rw [IngestStep, Ingest.step, if_pos hw]⟩).elim
  | ending =>
      have hcommit : ∃ s', s.step job .commit = some s' := by
        simp only [Ingest.step, if_pos hw]
        split <;> exact ⟨_, rfl⟩
      obtain ⟨s', hstep⟩ := hcommit
      exact (hstuck .commit s' ⟨rfl, hstep⟩).elim
  | receiving =>
      right
      have hrecv := fun s' hstep => hstuck .recv s' ⟨rfl, hstep⟩
      simp only [IngestStep, Ingest.step, if_pos hw] at hrecv
      split at hrecv
      · exact (hrecv _ rfl).elim
      · exact (hrecv _ rfl).elim
      · rename_i hqueue
        refine ⟨hqueue, ?_⟩
        by_contra hclosed
        rw [if_neg hclosed] at hrecv
        exact hrecv _ rfl

/-- When nothing but a fault can happen any more, both have returned. -/
theorem Ingest.Orderly.ended (h : s.Orderly)
    (hstuck : Stuck (Only (·.undisturbed = true) (IngestStep job)) s) :
    s.producer = .gone ∧ s.receiverOpen = false := by
  have htask : s.receiverOpen = false ∨ s.queue = [] ∧ s.senderOpen = true := by
    refine @Ingest.task_waits job s fun e s' hstep => hstuck e s' ⟨?_, hstep.2⟩
    have hof : e.ofTask = true := hstep.1
    cases e with
    | opened | recv | commit => rfl
    | next | send | abort | join | dropFuture | fail => cases hof
  have hnext : ∀ s', ¬ s.step job .next = some s' := fun s' hstep => hstuck .next s' ⟨rfl, hstep⟩
  have hsend : ∀ s', ¬ s.step job .send = some s' := fun s' hstep => hstuck .send s' ⟨rfl, hstep⟩
  have hjoin : ∀ s', ¬ s.step job .join = some s' := fun s' hstep => hstuck .join s' ⟨rfl, hstep⟩
  cases hp : s.producer with
  | streaming =>
      simp only [Ingest.step, if_pos hp] at hnext
      split at hnext
      · exact (hnext _ rfl).elim
      · exact (hnext _ rfl).elim
      · exact (hnext _ rfl).elim
  | pushing c =>
      simp only [Ingest.step, hp] at hsend
      split at hsend
      · rename_i hopen
        rcases htask with hclosed | ⟨hqueue, -⟩
        · rw [hclosed] at hopen
          cases hopen
        · rw [hqueue, if_pos (by decide)] at hsend
          exact (hsend _ rfl).elim
      · exact (hsend _ rfl).elim
  | aborting =>
      simp only [Ingest.step, hp] at hsend
      split at hsend
      · rename_i hopen
        rcases htask with hclosed | ⟨hqueue, -⟩
        · rw [hclosed] at hopen
          cases hopen
        · rw [hqueue, if_pos (by decide)] at hsend
          exact (hsend _ rfl).elim
      · exact (hsend _ rfl).elim
  | joining =>
      rcases htask with hclosed | ⟨-, hopen⟩
      · rw [Ingest.step, if_pos ⟨hp, hclosed⟩] at hjoin
        exact (hjoin _ rfl).elim
      · rw [h.closed (.inl hp)] at hopen
        cases hopen
  | gone =>
      rcases htask with hclosed | ⟨-, hopen⟩
      · exact ⟨rfl, hclosed⟩
      · rw [h.closed (.inr hp)] at hopen
        cases hopen

/-! ## The result of an undisturbed upload -/

/-- What holds while nothing interferes with the upload of a body. -/
structure Ingest.Smooth (job : IngestJob) (db : Db) (body : List (Option Bytes)) (s : Ingest) :
    Prop where
  suffix : s.body <:+ body
  unbroken : none ∉ body → s.producer ≠ .aborting ∧ .abort ∉ s.queue
  /-- A task that has failed was refused. -/
  refused : s.writer = .failed → none ∉ body → ∃ chunks e, body = chunks.map some ∧
    ingestWriter job.sha256 db job.now job.fileId job.target chunks = .error e

theorem ingest_smooth_start : (Ingest.start db body).Smooth job db body where
  suffix := List.suffix_rfl
  unbroken := by simp [Ingest.start]
  refused := by simp [Ingest.start]

theorem Ingest.Smooth.step (h : s.Smooth job db body) (hs : s.Sound job db body)
    (he : e.undisturbed = true) (hstep : IngestStep job s e s') : s'.Smooth job db body := by
  have hsuffix := h.suffix
  cases hstep.moves with
  | abort | dropFuture | fail => cases he
  | item hphase hbody =>
      rw [hbody] at hsuffix
      exact ⟨(List.suffix_cons _ _).trans hsuffix,
        fun hnone => ⟨by simp, (h.unbroken hnone).2⟩, h.refused⟩
  | broken hphase hbody =>
      rw [hbody] at hsuffix
      exact ⟨(List.suffix_cons _ _).trans hsuffix,
        fun hnone => absurd (hsuffix.subset List.mem_cons_self) hnone, h.refused⟩
  | finish | pushClosed | join =>
      exact ⟨hsuffix, fun hnone => ⟨by simp, (h.unbroken hnone).2⟩, h.refused⟩
  | push =>
      refine ⟨hsuffix, fun hnone => ⟨by simp, ?_⟩, h.refused⟩
      simpa using (h.unbroken hnone).2
  | sendAbort hphase | abortClosed hphase =>
      exact ⟨hsuffix, fun hnone => absurd hphase (h.unbroken hnone).1, h.refused⟩
  | opened | recvEnd => exact ⟨hsuffix, h.unbroken, by simp⟩
  | recvData hphase hqueue =>
      refine ⟨hsuffix, fun hnone => ⟨(h.unbroken hnone).1, fun hmem => ?_⟩, h.refused⟩
      exact (h.unbroken hnone).2 (hqueue ▸ List.mem_cons_of_mem _ hmem)
  | recvAbort hphase hqueue =>
      have hbroken : none ∈ body := by
        by_contra hnone
        exact (h.unbroken hnone).2 (hqueue ▸ List.mem_cons_self)
      exact ⟨hsuffix, fun hnone => absurd hbroken hnone, fun _ hnone => absurd hbroken hnone⟩
  | publish => exact ⟨hsuffix, h.unbroken, by simp⟩
  | refuse hphase hrefuse =>
      have hl := hs.live (by simp [Ingest.receiverOpen, hphase])
      have hdb := hs.unchanged (by simp [hphase])
      exact ⟨hsuffix, h.unbroken, fun _ _ => ⟨s.received, _, hl.received_eq hphase, hdb ▸ hrefuse⟩⟩

/-- What an upload has come to when nothing has interfered with it: what `ingest_writer` makes
of the whole body in one go. -/
structure Ingest.Completed (job : IngestJob) (db : Db) (body : List (Option Bytes)) (s : Ingest) :
    Prop where
  stored : ∀ chunks db' total sum, body = chunks.map some →
    ingestWriter job.sha256 db job.now job.fileId job.target chunks = .ok (db', total, sum) →
      s.writer = .committed total sum ∧ s.db = db'
  refused : ∀ chunks e, body = chunks.map some →
    ingestWriter job.sha256 db job.now job.fileId job.target chunks = .error e →
      s.writer = .failed ∧ s.db = db
  broken : none ∈ body → s.writer = .failed ∧ s.db = db

theorem map_some_injective {xs ys : List Bytes} (h : xs.map some = ys.map some) : xs = ys :=
  List.map_injective_iff.mpr (Option.some_injective _) h

theorem Ingest.Smooth.completed (h : s.Smooth job db body) (hs : s.Sound job db body)
    (hclosed : s.receiverOpen = false) : s.Completed job db body := by
  cases hw : s.writer with
  | starting | receiving | ending => simp [Ingest.receiverOpen, hw] at hclosed
  | committed size sum =>
      obtain ⟨-, chunks, hbody, hok⟩ := hs.committed _ _ hw
      refine ⟨fun chunks' db' total' sum' hbody' hok' => ?_, fun chunks' e hbody' herror => ?_,
        fun hnone => by simp [hbody] at hnone⟩
      · obtain rfl := map_some_injective (hbody.symm.trans hbody')
        rw [hok, Except.ok.injEq, Prod.mk.injEq, Prod.mk.injEq] at hok'
        obtain ⟨hdb, rfl, rfl⟩ := hok'
        exact ⟨hw, hdb⟩
      · obtain rfl := map_some_injective (hbody.symm.trans hbody')
        rw [hok] at herror
        cases herror
  | failed =>
      have hdb := hs.unchanged (by simp [hw])
      refine ⟨fun chunks db' total sum hbody hok => ?_, fun _ _ _ _ => ⟨hw, hdb⟩,
        fun _ => ⟨hw, hdb⟩⟩
      obtain ⟨chunks', e, hbody', herror⟩ := h.refused hw (by simp [hbody])
      obtain rfl := map_some_injective (hbody.symm.trans hbody')
      rw [hok] at herror
      cases herror

/-! ## Every schedule -/

/-- An upload after any events, in any order. -/
structure Ingest.Spec (job : IngestJob) (db : Db) (body : List (Option Bytes))
    (events : List IngestEvent) (s : Ingest) : Prop where
  /-- There is an end to what can happen. -/
  bounded : events.length ≤ 3 * body.length + 7
  queue_le : s.queue.length ≤ ingestQueue
  /-- The task by itself returns, unless it waits for a handler that is still there. -/
  waits : Stuck (Only (·.ofTask = true) (IngestStep job)) s →
    s.receiverOpen = false ∨ s.queue = [] ∧ s.senderOpen = true
  /-- When only faults can happen any more, handler and task have returned. -/
  ended : Stuck (Only (·.undisturbed = true) (IngestStep job)) s →
    s.producer = .gone ∧ s.receiverOpen = false
  /-- When none has happened, the body is stored as a whole, or refused as a whole. -/
  completed : (∀ e ∈ events, e.undisturbed = true) →
    Stuck (Only (·.undisturbed = true) (IngestStep job)) s → s.Completed job db body

/-- Whatever the order of events, an upload comes to an end, and without faults it ends in
what `ingest_writer` makes of the whole body. -/
theorem ingest_completes {events : List IngestEvent}
    (hrun : Trace (IngestStep job) (Ingest.start db body) events s) :
    s.Spec job db body events := by
  have h : s.Orderly := hrun.invariant (fun _ _ _ hs hstep => hs.step hstep) ingest_orderly_start
  refine ⟨?_, h.queue_le, Ingest.task_waits, h.ended, fun hall hstuck => ?_⟩
  · have hlen := (ingestStep_variant job).length_add_le ingest_orderly_start hrun
    have hwork : (Ingest.start db body).work = 3 * body.length + 7 := rfl
    omega
  · have hboth : s.Sound job db body ∧ s.Smooth job db body := (hrun.only hall).invariant
      (I := fun t => t.Sound job db body ∧ t.Smooth job db body)
      (fun t e u ht hstep => by
        obtain ⟨hs, hsmooth⟩ := ht
        obtain ⟨he, hstep⟩ := hstep
        have hearly : NoEarlyDrop t e := by
          cases e with
          | dropFuture => cases he
          | next | send | abort | join | opened | recv | commit | fail => trivial
        exact ⟨hs.step hearly hstep, hsmooth.step hs he hstep⟩)
      ⟨ingest_sound_start job db body, ingest_smooth_start⟩
    exact hboth.2.completed hboth.1 (h.ended hstuck).2

def aheadSchedule : List IngestEvent :=
  [.next, .send, .next, .send, .next, .opened, .recv, .recv, .recv, .commit, .join]

theorem ingest_completes_ahead :
    ∃ s, Trace (IngestStep putJob) (Ingest.start oneBucket twoChunks) aheadSchedule s ∧
      s.Spec putJob oneBucket twoChunks aheadSchedule ∧ s.writer = .committed 2 [1, 2] := by
  obtain ⟨s, hs⟩ := Option.isSome_iff_exists.mp (show (runAll (Ingest.step putJob)
    (Ingest.start oneBucket twoChunks) aheadSchedule).isSome by decide +kernel)
  have hwriter : (runAll (Ingest.step putJob) (Ingest.start oneBucket twoChunks)
      aheadSchedule).map Ingest.writer = some (.committed 2 [1, 2]) := by
    decide +kernel
  rw [hs, Option.map_some, Option.some.injEq] at hwriter
  have hrun := trace_iff_runAll.mpr hs
  exact ⟨s, hrun, ingest_completes hrun, hwriter⟩

end Pgvs3
