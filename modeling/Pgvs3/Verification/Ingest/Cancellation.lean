import Pgvs3.Model.ChunkWriter

/-! # Interrupted uploads

The writer task takes the end of the channel for the end of the body. That is right as long as
the channel is closed by `finish`, or behind an `Abort`. -/

namespace Pgvs3

open Library

variable {job : IngestJob} {db : Db} {body : List (Option Bytes)} {s s' : Ingest} {e : IngestEvent}

/-! ## Steps -/

inductive Ingest.Moves (job : IngestJob) (s : Ingest) : IngestEvent → Ingest → Prop where
  | item {c rest} (hphase : s.producer = .streaming) (hbody : s.body = some c :: rest) :
      Moves job s .next { s with body := rest, producer := .pushing c }
  | broken {rest} (hphase : s.producer = .streaming) (hbody : s.body = none :: rest) :
      Moves job s .next { s with body := rest, producer := .aborting }
  | finish (hphase : s.producer = .streaming) (hbody : s.body = []) :
      Moves job s .next { s with senderOpen := false, finished := true, producer := .joining }
  | push {c} (hphase : s.producer = .pushing c) (hopen : s.receiverOpen = true)
      (hroom : s.queue.length < ingestQueue) :
      Moves job s .send { s with
        queue := s.queue ++ [.data c]
        pushed := s.pushed ++ [c]
        producer := .streaming }
  | pushClosed {c} (hphase : s.producer = .pushing c) (hclosed : s.receiverOpen = false) :
      Moves job s .send { s with senderOpen := false, finished := true, producer := .joining }
  | sendAbort (hphase : s.producer = .aborting) (hopen : s.receiverOpen = true)
      (hroom : s.queue.length < ingestQueue) :
      Moves job s .send { s with
        queue := s.queue ++ [.abort]
        senderOpen := false
        producer := .joining }
  | abortClosed (hphase : s.producer = .aborting) (hclosed : s.receiverOpen = false) :
      Moves job s .send { s with senderOpen := false, producer := .joining }
  | abort (hphase : s.producer = .streaming) :
      Moves job s .abort { s with producer := .aborting }
  | join (hphase : s.producer = .joining) (hclosed : s.receiverOpen = false) :
      Moves job s .join { s with producer := .gone }
  | dropFuture (hphase : s.producer ≠ .gone) :
      Moves job s .dropFuture { s with senderOpen := false, producer := .gone }
  | opened (hphase : s.writer = .starting) : Moves job s .opened { s with writer := .receiving }
  | recvData {b queue} (hphase : s.writer = .receiving) (hqueue : s.queue = .data b :: queue) :
      Moves job s .recv { s with queue := queue, received := s.received ++ [b] }
  | recvAbort {queue} (hphase : s.writer = .receiving) (hqueue : s.queue = .abort :: queue) :
      Moves job s .recv { s with queue := queue, writer := .failed }
  | recvEnd (hphase : s.writer = .receiving) (hqueue : s.queue = [])
      (hclosed : s.senderOpen = false) : Moves job s .recv { s with writer := .ending }
  | publish {db total sum} (hphase : s.writer = .ending)
      (hpublish : ingestWriter job.sha256 s.db job.now job.fileId job.target s.received =
        .ok (db, total, sum)) :
      Moves job s .commit { s with writer := .committed total sum, db := db }
  | refuse {error} (hphase : s.writer = .ending)
      (hrefuse : ingestWriter job.sha256 s.db job.now job.fileId job.target s.received =
        .error error) :
      Moves job s .commit { s with writer := .failed }
  | fail (hopen : s.receiverOpen = true) : Moves job s .fail { s with writer := .failed }

theorem IngestStep.moves (h : IngestStep job s e s') : s.Moves job e s' := by
  cases e with
  | next =>
      simp only [IngestStep, Ingest.step] at h
      split at h
      · rename_i hphase
        split at h
        · rename_i hbody
          cases h
          exact .item hphase hbody
        · rename_i hbody
          cases h
          exact .broken hphase hbody
        · rename_i hbody
          cases h
          exact .finish hphase hbody
      · cases h
  | send =>
      simp only [IngestStep, Ingest.step] at h
      split at h
      · rename_i hphase
        split at h
        · rename_i hopen
          split at h
          · rename_i hroom
            cases h
            exact .push hphase hopen hroom
          · cases h
        · rename_i hclosed
          cases h
          exact .pushClosed hphase (by simpa using hclosed)
      · rename_i hphase
        split at h
        · rename_i hopen
          split at h
          · rename_i hroom
            cases h
            exact .sendAbort hphase hopen hroom
          · cases h
        · rename_i hclosed
          cases h
          exact .abortClosed hphase (by simpa using hclosed)
      · cases h
  | abort =>
      simp only [IngestStep, Ingest.step, Option.ite_none_right_eq_some, Option.some.injEq] at h
      obtain ⟨hphase, rfl⟩ := h
      exact .abort hphase
  | join =>
      simp only [IngestStep, Ingest.step, Option.ite_none_right_eq_some, Option.some.injEq] at h
      obtain ⟨⟨hphase, hclosed⟩, rfl⟩ := h
      exact .join hphase hclosed
  | dropFuture =>
      simp only [IngestStep, Ingest.step, Option.ite_none_left_eq_some, Option.some.injEq] at h
      obtain ⟨hphase, rfl⟩ := h
      exact .dropFuture hphase
  | opened =>
      simp only [IngestStep, Ingest.step, Option.ite_none_right_eq_some, Option.some.injEq] at h
      obtain ⟨hphase, rfl⟩ := h
      exact .opened hphase
  | recv =>
      simp only [IngestStep, Ingest.step] at h
      split at h
      · rename_i hphase
        split at h
        · rename_i hqueue
          cases h
          exact .recvData hphase hqueue
        · rename_i hqueue
          cases h
          exact .recvAbort hphase hqueue
        · rename_i hqueue
          split at h
          · cases h
          · rename_i hclosed
            cases h
            exact .recvEnd hphase hqueue (by simpa using hclosed)
      · cases h
  | commit =>
      simp only [IngestStep, Ingest.step] at h
      split at h
      · rename_i hphase
        split at h
        · rename_i hpublish
          cases h
          exact .publish hphase hpublish
        · rename_i hrefuse
          cases h
          exact .refuse hphase hrefuse
      · cases h
  | fail =>
      simp only [IngestStep, Ingest.step, Option.ite_none_right_eq_some, Option.some.injEq] at h
      obtain ⟨hopen, rfl⟩ := h
      exact .fail hopen

/-! ## The invariant -/

/-- The writer is not dropped before `finish` was called, `Abort` was queued or the task has
ended. -/
def NoEarlyDrop (s : Ingest) : IngestEvent → Prop
  | .dropFuture => s.finished = true ∨ .abort ∈ s.queue ∨ s.receiverOpen = false
  | _ => True

instance (s : Ingest) : DecidablePred (NoEarlyDrop s)
  | .dropFuture => inferInstanceAs (Decidable
      (s.finished = true ∨ .abort ∈ s.queue ∨ s.receiverOpen = false))
  | .next | .send | .abort | .join | .opened | .recv | .commit | .fail => isTrue trivial

def ProducerPhase.held : ProducerPhase → List (Option Bytes)
  | .pushing c => [some c]
  | _ => []

def IngestMsg.chunk? : IngestMsg → Option Bytes
  | .data b => some b
  | .abort => none

/-- What holds while the task may still publish. -/
structure Ingest.Live (body : List (Option Bytes)) (s : Ingest) : Prop where
  /-- The chunks in the channel follow those that the task has received. -/
  pushed_eq : s.pushed = s.received ++ s.queue.filterMap IngestMsg.chunk?
  /-- Nothing of the body is lost before the stream fails or `abort` is called. -/
  body_eq : s.producer = .streaming ∨ (∃ c, s.producer = .pushing c) →
    body = s.pushed.map some ++ (s.producer.held ++ s.body)
  /-- `finish` was called on the whole body. -/
  finished_eq : s.finished = true → body = s.pushed.map some
  /-- After `finish` nothing is pushed. -/
  joined : s.finished = true → s.producer = .joining ∨ s.producer = .gone
  /-- A closed channel is finished or ends in `Abort`. -/
  closed : s.senderOpen = false → s.finished = true ∨ .abort ∈ s.queue
  /-- The channel has ended only after `finish`. -/
  ending : s.writer = .ending → s.finished = true ∧ s.queue = []

theorem Ingest.Live.received_eq (h : s.Live body) (hphase : s.writer = .ending) :
    body = s.received.map some := by
  obtain ⟨hfinished, hqueue⟩ := h.ending hphase
  have hpushed := h.pushed_eq
  rw [hqueue] at hpushed
  rw [h.finished_eq hfinished, hpushed]
  simp

/-- What holds in every state of a run. -/
structure Ingest.Sound (job : IngestJob) (db : Db) (body : List (Option Bytes)) (s : Ingest) :
    Prop where
  live : s.receiverOpen = true → s.Live body
  unchanged : (∀ size sum, s.writer ≠ .committed size sum) → s.db = db
  committed : ∀ size sum, s.writer = .committed size sum → s.finished = true ∧ ∃ chunks,
    body = chunks.map some ∧
      ingestWriter job.sha256 db job.now job.fileId job.target chunks = .ok (s.db, size, sum)

theorem ingest_sound_start (job : IngestJob) (db : Db) (body : List (Option Bytes)) :
    (Ingest.start db body).Sound job db body where
  live _ :=
    { pushed_eq := rfl
      body_eq := fun _ => rfl
      finished_eq := by simp [Ingest.start]
      joined := by simp [Ingest.start]
      closed := by simp [Ingest.start]
      ending := by simp [Ingest.start] }
  unchanged _ := rfl
  committed := by simp [Ingest.start]

/-! ## Steps of the producer -/

theorem Ingest.Sound.producer (h : s.Sound job db body) (hwriter : s'.writer = s.writer)
    (hdb : s'.db = s.db) (hfinished : s.finished = true → s'.finished = true)
    (hlive : s.receiverOpen = true → s.Live body → s'.Live body) : s'.Sound job db body where
  live hopen := by
    have hopen : s.receiverOpen = true := by simpa [Ingest.receiverOpen, hwriter] using hopen
    exact hlive hopen (h.live hopen)
  unchanged := by
    rw [hwriter, hdb]
    exact h.unchanged
  committed := by
    rw [hwriter, hdb]
    intro size sum hc
    exact ⟨hfinished (h.committed _ _ hc).1, (h.committed _ _ hc).2⟩

theorem Ingest.Sound.next (h : s.Sound job db body) (hstep : IngestStep job s .next s') :
    s'.Sound job db body := by
  cases hstep.moves with
  | item hphase hbody =>
      refine h.producer rfl rfl id fun _ hl => { hl with body_eq := ?_, joined := ?_ }
      · intro _
        rw [hl.body_eq (.inl hphase), hphase, hbody]
        rfl
      · intro hf
        rcases hl.joined hf with hp | hp <;> rw [hphase] at hp <;> cases hp
  | broken hphase hbody =>
      refine h.producer rfl rfl id fun _ hl => { hl with body_eq := ?_, joined := ?_ }
      · rintro (hp | ⟨c, hp⟩) <;> cases hp
      · intro hf
        rcases hl.joined hf with hp | hp <;> rw [hphase] at hp <;> cases hp
  | finish hphase hbody =>
      have hall : s.receiverOpen = true → s.Live body → body = s.pushed.map some := by
        intro _ hl
        rw [hl.body_eq (.inl hphase), hphase, hbody]
        simp [ProducerPhase.held]
      refine h.producer rfl rfl (fun _ => rfl) fun hopen hl =>
        { hl with
          body_eq := ?_
          finished_eq := fun _ => hall hopen hl
          joined := fun _ => .inl rfl
          closed := fun _ => .inl rfl
          ending := fun hw => ⟨rfl, (hl.ending hw).2⟩ }
      rintro (hp | ⟨c, hp⟩) <;> cases hp

theorem Ingest.Sound.send (h : s.Sound job db body) (hstep : IngestStep job s .send s') :
    s'.Sound job db body := by
  cases hstep.moves with
  | @push c hphase =>
      refine h.producer rfl rfl id fun _ hl => ?_
      -- the chunk moves from the producer into the channel
      have hnot : s.finished ≠ true := by
        intro hf
        rcases hl.joined hf with hp | hp <;> rw [hphase] at hp <;> cases hp
      refine
        { pushed_eq := ?_
          body_eq := fun _ => ?_
          finished_eq := fun hf => absurd hf hnot
          joined := fun hf => absurd hf hnot
          closed := fun hc => .inr ?_
          ending := fun hw => absurd (hl.ending hw).1 hnot }
      · simp [hl.pushed_eq, IngestMsg.chunk?]
      · rw [hl.body_eq (.inr ⟨c, hphase⟩), hphase]
        simp [ProducerPhase.held]
      · exact List.mem_append_left _ ((hl.closed hc).resolve_left hnot)
  | pushClosed hphase hclosed =>
      exact h.producer rfl rfl (fun _ => rfl) fun hopen _ => by simp [hclosed] at hopen
  | sendAbort hphase =>
      refine h.producer rfl rfl id fun _ hl => ?_
      have hnot : s.finished ≠ true := by
        intro hf
        rcases hl.joined hf with hp | hp <;> rw [hphase] at hp <;> cases hp
      refine
        { pushed_eq := ?_
          body_eq := ?_
          finished_eq := fun hf => absurd hf hnot
          joined := fun hf => absurd hf hnot
          closed := fun _ => .inr (List.mem_append_right _ (List.mem_singleton_self _))
          ending := fun hw => absurd (hl.ending hw).1 hnot }
      · simp [hl.pushed_eq, IngestMsg.chunk?]
      · rintro (hp | ⟨c, hp⟩) <;> cases hp
  | abortClosed hphase hclosed =>
      exact h.producer rfl rfl id fun hopen _ => by simp [hclosed] at hopen

theorem Ingest.Sound.dropFuture (h : s.Sound job db body) (hearly : NoEarlyDrop s .dropFuture)
    (hstep : IngestStep job s .dropFuture s') : s'.Sound job db body := by
  cases hstep.moves
  refine h.producer rfl rfl id fun hopen hl =>
    { hl with body_eq := ?_, joined := fun _ => .inr rfl, closed := fun _ => ?_ }
  · rintro (hp | ⟨c, hp⟩) <;> cases hp
  · rcases hearly with hf | habort | hclosed
    · exact .inl hf
    · exact .inr habort
    · rw [hopen] at hclosed
      cases hclosed

/-! ## Steps of the task -/

theorem Ingest.Sound.recv (h : s.Sound job db body) (hstep : IngestStep job s .recv s') :
    s'.Sound job db body := by
  cases hstep.moves with
  | recvData hphase hqueue =>
      have hl := h.live (by simp [Ingest.receiverOpen, hphase])
      have hdb := h.unchanged (by simp [hphase])
      refine ⟨fun _ => { hl with pushed_eq := ?_, closed := ?_, ending := ?_ }, fun _ => hdb, ?_⟩
      · rw [hl.pushed_eq, hqueue]
        simp [IngestMsg.chunk?]
      · intro hc
        simpa [hqueue] using hl.closed hc
      · intro hw
        rw [hphase] at hw
        cases hw
      · intro _ _ hw
        rw [hphase] at hw
        cases hw
  | recvAbort hphase =>
      have hdb := h.unchanged (by simp [hphase])
      exact ⟨fun ho => by simp [Ingest.receiverOpen] at ho, fun _ => hdb, by simp⟩
  | recvEnd hphase hqueue hclosed =>
      have hl := h.live (by simp [Ingest.receiverOpen, hphase])
      have hdb := h.unchanged (by simp [hphase])
      -- the channel is empty and closed, so `finish` was called
      have hfinished : s.finished = true := by
        rcases hl.closed hclosed with hf | habort
        · exact hf
        · rw [hqueue] at habort
          cases habort
      exact ⟨fun _ => { hl with ending := fun _ => ⟨hfinished, hqueue⟩ }, fun _ => hdb, by simp⟩

theorem Ingest.Sound.commit (h : s.Sound job db body) (hstep : IngestStep job s .commit s') :
    s'.Sound job db body := by
  cases hstep.moves with
  | publish hphase hpublish =>
      have hl := h.live (by simp [Ingest.receiverOpen, hphase])
      have hdb := h.unchanged (by simp [hphase])
      obtain ⟨hfinished, -⟩ := hl.ending hphase
      refine ⟨fun ho => by simp [Ingest.receiverOpen] at ho, fun hw => absurd rfl (hw _ _), ?_⟩
      rintro _ _ ⟨⟩
      exact ⟨hfinished, s.received, hl.received_eq hphase, hdb ▸ hpublish⟩
  | refuse hphase =>
      have hdb := h.unchanged (by simp [hphase])
      exact ⟨fun ho => by simp [Ingest.receiverOpen] at ho, fun _ => hdb, by simp⟩

theorem Ingest.Sound.step (h : s.Sound job db body) (hearly : NoEarlyDrop s e)
    (hstep : IngestStep job s e s') : s'.Sound job db body := by
  cases e with
  | next => exact h.next hstep
  | send => exact h.send hstep
  | abort =>
      cases hstep.moves with
      | abort hphase =>
          refine h.producer rfl rfl id fun _ hl => { hl with body_eq := ?_, joined := ?_ }
          · rintro (hp | ⟨c, hp⟩) <;> cases hp
          · intro hf
            rcases hl.joined hf with hp | hp <;> rw [hphase] at hp <;> cases hp
  | join =>
      cases hstep.moves
      refine h.producer rfl rfl id fun _ hl => { hl with body_eq := ?_, joined := fun _ => .inr rfl }
      rintro (hp | ⟨c, hp⟩) <;> cases hp
  | dropFuture => exact h.dropFuture hearly hstep
  | opened =>
      cases hstep.moves with
      | opened hphase =>
          have hl := h.live (by simp [Ingest.receiverOpen, hphase])
          exact ⟨fun _ => { hl with ending := fun hw => by cases hw },
            fun _ => h.unchanged (by simp [hphase]), by simp⟩
  | recv => exact h.recv hstep
  | commit => exact h.commit hstep
  | fail =>
      cases hstep.moves with
      | fail hopen =>
          have hdb := h.unchanged fun _ _ hw => by simp [Ingest.receiverOpen, hw] at hopen
          exact ⟨fun ho => by simp [Ingest.receiverOpen] at ho, fun _ => hdb, by simp⟩

/-! ## Every schedule -/

/-- An ingest publishes the whole body after `finish`, or leaves the database as it was. -/
def AllOrNothing (job : IngestJob) (db : Db) (body : List (Option Bytes)) (s : Ingest) : Prop :=
  match s.writer with
  | .committed size sum => s.finished = true ∧ ∃ chunks, body = chunks.map some ∧
      ingestWriter job.sha256 db job.now job.fileId job.target chunks = .ok (s.db, size, sum)
  | .starting | .receiving | .ending | .failed => s.db = db

/-- When no writer is dropped early, every ingest publishes all or nothing. -/
theorem ingest_all_or_nothing {events : List IngestEvent}
    (hrun : Trace (Guarded NoEarlyDrop (IngestStep job)) (Ingest.start db body) events s) :
    AllOrNothing job db body s := by
  have h : s.Sound job db body := hrun.invariant
    (fun _ _ _ hs hstep => hs.step hstep.1 hstep.2) (ingest_sound_start job db body)
  unfold AllOrNothing
  cases hw : s.writer with
  | committed size sum => exact h.committed size sum hw
  | starting | receiving | ending | failed => exact h.unchanged (by simp [hw])

/-! ## A body of two chunks -/

def oneBucket : Db := (createBucket Db.empty 0 ['b'])

def putJob : IngestJob := ⟨id, 1, 1, .object ['b'] ['k'] .unconditional⟩

def twoChunks : List (Option Bytes) := [some [1], some [2]]

/-- The handler is dropped while it waits for the task that publishes both chunks. -/
def finishedSchedule : List IngestEvent :=
  [.next, .opened, .send, .next, .send, .recv, .next, .dropFuture, .recv, .recv, .commit]

theorem ingest_all_or_nothing_finished :
    ∃ s, Trace (IngestStep putJob) (Ingest.start oneBucket twoChunks) finishedSchedule s ∧
      AllOrNothing putJob oneBucket twoChunks s := by
  obtain ⟨s, hs⟩ := Option.isSome_iff_exists.mp (show (runAll (fun s e => if NoEarlyDrop s e then
    s.step putJob e else none) (Ingest.start oneBucket twoChunks) finishedSchedule).isSome by
      decide +kernel)
  have hrun := trace_guarded_iff_runAll.mpr hs
  exact ⟨s, hrun.of_guarded, ingest_all_or_nothing hrun⟩

def nineChunks : List (Option Bytes) := List.replicate 9 (some [1])

/-- The handler is dropped while it waits for room in the full channel for the ninth chunk. -/
def droppedSchedule : List IngestEvent :=
  (List.replicate 8 [.next, .send]).flatten ++ [.next, .dropFuture, .opened] ++
    List.replicate 9 .recv ++ [.commit]

/-- The task publishes the first eight chunks as the whole object. -/
theorem dropped_upload_published :
    ¬ ∀ (job : IngestJob) (db : Db) (body : List (Option Bytes)) (events : List IngestEvent)
      (s : Ingest), Trace (IngestStep job) (Ingest.start db body) events s →
        AllOrNothing job db body s := by
  intro hall
  obtain ⟨s, hs⟩ := Option.isSome_iff_exists.mp (show (runAll (Ingest.step putJob)
    (Ingest.start oneBucket nineChunks) droppedSchedule).isSome by decide +kernel)
  have hfacts : (runAll (Ingest.step putJob) (Ingest.start oneBucket nineChunks)
      droppedSchedule).map (fun s => (s.writer, s.finished, s.db.objects.rows.map (·.size))) =
        some (.committed 8 (List.replicate 8 1), false, [8]) := by
    decide +kernel
  rw [hs, Option.map_some, Option.some.injEq, Prod.mk.injEq, Prod.mk.injEq] at hfacts
  have h := hall putJob oneBucket nineChunks droppedSchedule s (trace_iff_runAll.mpr hs)
  rw [AllOrNothing, hfacts.1] at h
  dsimp only at h
  rw [hfacts.2.1] at h
  exact Bool.false_ne_true h.1

end Pgvs3
