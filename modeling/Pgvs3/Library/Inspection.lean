import Pgvs3.Library.RelyGuarantee
import Pgvs3.Library.LockOrder

/-! # What the code of a transaction shows

Some facts about a transaction need no knowledge of the others: what any of its statements
may take and write, and how it may end. They are read off its code once. An audit adds what
an open transaction knows for as long as the others keep their terms. -/

namespace Library

variable {σ ω Λ ρ α : Type*}

/-- What to look for in the code of a job: what a statement takes and writes, the replies of
commits and those of early ends. -/
structure Pattern (σ ω Λ α : Type*) where
  statement : Sight σ Λ → List Λ → List ω → Prop
  commits : α → Prop
  refuses : α → Prop

def Code.Fits (p : Pattern σ ω Λ α) : Code σ ω Λ α → Prop
  | .step _ takes writes next => ∀ s, p.statement s (takes s) (writes s) ∧ (next s).Fits p
  | .commit a => p.commits a
  | .rollback a => p.refuses a

theorem Code.Fits.refusal {p : Pattern σ ω Λ α} {rest : Code σ ω Λ α} (h : rest.Fits p) {a : α}
    (ha : rest.refusal? = some a) : p.refuses a := by
  cases rest with
  | rollback b =>
      obtain rfl := Option.some.inj ha
      exact h
  | _ => simp [Code.refusal?] at ha

/-- The pattern of each job, and what holds of its locks, its writes and the committed rows
while it is open. -/
structure Audit (σ ω Λ ρ α : Type*) where
  pattern : ρ → Pattern σ ω Λ α
  knows : ρ → List Λ → List ω → σ → Prop

structure Audit.Lawful (e : Engine σ ω Λ ρ α) (c : Contract σ Λ ρ α) (a : Audit σ ω Λ ρ α) :
    Prop where
  code : ∀ job, (e.code job).Fits (a.pattern job)
  start : ∀ job db db' held, c.inv db → e.start job db = some (db', held) →
    a.knows job held [] db'
  rely : ∀ job held ws db db', c.rely held db db' → a.knows job held ws db →
    a.knows job held ws db'
  statement : ∀ job held ws db (s : Sight σ Λ) takes writes, s.db = e.view db ws →
    (a.pattern job).statement s takes writes → a.knows job held ws db →
    a.knows job (held ++ takes) (ws ++ writes) db

/-- Every open transaction fits its pattern and knows what it should. -/
def World.Audited (a : Audit σ ω Λ ρ α) (w : World σ ω Λ ρ α) : Prop :=
  ∀ s ∈ w.sessions, s.rest.Fits (a.pattern s.job) ∧ a.knows s.job s.held s.writes w.db

variable {e : Engine σ ω Λ ρ α} {c : Contract σ Λ ρ α} {a : Audit σ ω Λ ρ α}

theorem World.audited_idle (db : σ) : (World.idle db : World σ ω Λ ρ α).Audited a :=
  fun s hs => (Table.not_mem_empty s hs).elim

theorem World.audited_step (hc : c.Lawful e) (ha : a.Lawful e c) {w w' : World σ ω Λ ρ α}
    {l : Label ρ} (hsound : w.Sound e c) (h : w.Audited a) (hstep : w.Stepped e l w') :
    w'.Audited a := by
  cases hstep with
  | begin hstart _ =>
      intro s hs
      rcases World.mem_opened.mp hs with ⟨hs, _⟩ | rfl
      · obtain ⟨hfits, hknows⟩ := h s hs
        exact ⟨hfits, ha.rely _ _ _ _ _ (hc.start_rely _ _ _ _ _ hsound.inv hstart) hknows⟩
      · exact ⟨ha.code _, ha.start _ _ _ _ hsound.inv hstart⟩
  | advance hself sight hsight _ =>
      intro s hs
      rcases World.mem_advanced.mp hs with ⟨hs, _⟩ | rfl
      · exact h s hs
      · obtain ⟨hfits, hknows⟩ := h _ hself
        obtain ⟨hstatement, hnext⟩ := hfits sight
        exact ⟨hnext, ha.statement _ _ _ _ sight _ _ (congrArg Sight.db hsight) hstatement hknows⟩
  | commit hself =>
      intro s hs
      obtain ⟨hs, hne⟩ := World.mem_committed.mp hs
      obtain ⟨hfits, hknows⟩ := h s hs
      have hapart := hsound.exclusive _ hself s hs hne.symm
      exact ⟨hfits, ha.rely _ _ _ _ _
        (hc.guarantee _ _ _ _ _ _ hsound.inv (hsound.commit hc hself) hapart) hknows⟩
  | rollback _ _ => exact fun s hs => h s (World.mem_closed.mp hs).1
  | drop _ => exact fun s hs => h s (World.mem_closed.mp hs).1

theorem World.admitted_step {Admitted : ρ → Prop} {w w' : World σ ω Λ ρ α} {l : Label ρ}
    (h : ∀ s ∈ w.sessions, Admitted s.job) (hl : ∀ job, l = .begin job → Admitted job)
    (hstep : w.Stepped e l w') : ∀ s ∈ w'.sessions, Admitted s.job := by
  intro s hs
  cases hstep with
  | begin _ _ =>
      rcases World.mem_opened.mp hs with ⟨hs, _⟩ | rfl
      · exact h s hs
      · exact hl _ rfl
  | advance hself _ _ _ =>
      rcases World.mem_advanced.mp hs with ⟨hs, _⟩ | rfl
      · exact h s hs
      · have hjob := h _ hself
        exact hjob
  | commit _ => exact h s (World.mem_committed.mp hs).1
  | rollback _ _ => exact h s (World.mem_closed.mp hs).1
  | drop _ => exact h s (World.mem_closed.mp hs).1

theorem World.audited_run (hc : c.Lawful e) (ha : a.Lawful e c) {w w' : World σ ω Λ ρ α}
    {ls : List (Label ρ)} (hsound : w.Sound e c) (h : w.Audited a) (ht : Trace e.Step w ls w') :
    w'.Audited a :=
  ht.invariant₂ (fun _ _ _ hi hs => World.sound_step hc hi (World.stepped hs))
    (fun _ _ _ hi hj hs => World.audited_step hc ha hi hj (World.stepped hs)) hsound h

/-- A property of the committed rows and the log that begins, refusals and commits of admitted
transactions keep, every run of them keeps; an audit may be used at each of them. -/
theorem World.audited_trace (hc : c.Lawful e) (ha : a.Lawful e c) (Admitted : ρ → Prop)
    {P : σ → List (Reply σ ρ α) → Prop}
    (hbegin : ∀ db log job db' held, c.inv db → e.start job db = some (db', held) →
      P db log → P db' log)
    (hrefuse : ∀ db log i job held ws b, Admitted job → c.inv db → c.refuses job db b →
      (a.pattern job).refuses b → a.knows job held ws db → P db log →
      P db (log ++ [⟨i, job, b, db⟩]))
    (hcommit : ∀ db log i job held ws b, Admitted job → c.inv db →
      c.commits job held db (e.view db ws) b → (a.pattern job).commits b → a.knows job held ws db →
      P db log → P (e.view db ws) (log ++ [⟨i, job, b, db⟩]))
    {w w' : World σ ω Λ ρ α} {ls : List (Label ρ)} (h : w.Sound e c) (haudit : w.Audited a)
    (hjobs : ∀ s ∈ w.sessions, Admitted s.job) (hls : ∀ job, .begin job ∈ ls → Admitted job)
    (hP : P w.db w.log) (ht : Trace e.Step w ls w') : P w'.db w'.log := by
  induction ht with
  | nil => exact hP
  | @cons w w₁ _ l ls hstep _ ih =>
      have hstep := World.stepped hstep
      have hsound := World.sound_step hc h hstep
      have haudit' := World.audited_step hc ha h haudit hstep
      have hjobs' : ∀ s ∈ w₁.sessions, Admitted s.job :=
        World.admitted_step hjobs (fun job hjob => hls job (hjob ▸ List.mem_cons_self ..)) hstep
      refine ih hsound haudit' hjobs' (fun job hj => hls job (List.mem_cons_of_mem _ hj)) ?_
      cases hstep with
      | begin hstart _ => exact hbegin _ _ _ _ _ h.inv hstart hP
      | @advance i pick job held ws needs takes writes next hself sight hsight _ =>
          obtain ⟨hfits, hknows⟩ := haudit _ hself
          obtain ⟨_, hrefuses, _⟩ := h.statement hc hself (s := sight) (by rw [hsight])
          cases hnext : (next sight).refusal? with
          | none => simpa [World.advanced, hnext] using hP
          | some b =>
              have hrefused := hrefuse _ _ i _ _ _ b (hjobs _ hself) h.inv (hrefuses b hnext)
                ((hfits sight).2.refusal hnext) hknows hP
              simpa [World.advanced, hnext] using hrefused
      | commit hself =>
          obtain ⟨hfits, hknows⟩ := haudit _ hself
          exact hcommit _ _ _ _ _ _ _ (hjobs _ hself) h.inv (h.commit hc hself) hfits hknows hP
      | rollback _ _ => exact hP
      | drop _ => exact hP

/-! ## Replies -/

theorem World.replies_once [DecidableEq Λ] {l : Λ} (hl : e.conflict l l = true) {db : σ}
    {w : World σ ω Λ ρ α} {ls : List (Label ρ)} (h : Trace e.Step (World.idle db) ls w) :
    (w.log.map Reply.id).Nodup := by
  have hsnoc : ∀ (w : World σ ω Λ ρ α) (r : Reply σ ρ α), (∀ q ∈ w.log, q.id ≠ r.id) →
      (w.log.map Reply.id).Nodup → ((w.log ++ [r]).map Reply.id).Nodup := by
    intro w r hnew hnodup
    rw [List.map_append, List.map_singleton]
    refine hnodup.append (List.nodup_singleton _) fun i hi hr => ?_
    obtain ⟨q, hq, rfl⟩ := List.mem_map.mp hi
    exact hnew q hq (List.mem_singleton.mp hr)
  refine h.invariant₂ (I := fun w => w.InOrder e l) (J := fun w => (w.log.map Reply.id).Nodup)
    (fun _ _ _ hi hs => World.inOrder_step hl hi (World.stepped hs)) ?_ (World.inOrder_idle db)
    (by simp [World.idle])
  intro w _ w' horder hnodup hstep
  cases World.stepped hstep with
  | begin _ _ => exact hnodup
  | @advance i pick job held ws needs takes writes next hself sight _ _ =>
      cases hnext : (next sight).refusal? with
      | none => simpa [World.advanced, hnext] using hnodup
      | some b =>
          have hadd := hsnoc w ⟨i, job, b, w.db⟩ (horder.silent _ hself rfl) hnodup
          simpa [World.advanced, hnext] using hadd
  | commit hself => exact hsnoc w _ (horder.silent _ hself rfl) hnodup
  | rollback _ _ => exact hnodup
  | drop _ => exact hnodup

end Library
