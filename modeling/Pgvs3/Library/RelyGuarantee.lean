import Pgvs3.Library.Locking

/-! # What concurrent transactions rely on

A transaction may rely on the others to respect the locks it holds, and in return
guarantees the same when it commits. Each kind of transaction is checked alone, from its
first statement to its last; the rule of composition then covers every interleaving. -/

namespace Library

variable {σ ω Λ ρ α : Type*}

/-- The terms between transactions. `inv` holds of the committed rows. `rely held` relates
them to what the others may make of them while a transaction holds `held`. The rest says
what a statement may ask for, what an early reply says of the rows it met, and what a
commit does to them. -/
structure Contract (σ Λ ρ α : Type*) where
  inv : σ → Prop
  rely : List Λ → σ → σ → Prop
  asks : ρ → List Λ → σ → Sight σ Λ → List Λ → List Λ → Prop
  refuses : ρ → σ → α → Prop
  commits : ρ → List Λ → σ → σ → α → Prop

/-- The rest of a transaction keeps the contract, whatever the others do in between. -/
def Safe (e : Engine σ ω Λ ρ α) (c : Contract σ Λ ρ α) (job : ρ) :
    Code σ ω Λ α → List Λ → List ω → σ → Prop
  | .step needs takes writes next, held, ws, db =>
      ∀ db', c.rely held db db' → c.inv db' → ∀ s : Sight σ Λ, s.db = e.view db' ws →
        c.asks job held db' s (needs s) (takes s) ∧
          (∀ a, (next s).refusal? = some a → c.refuses job db' a) ∧
          Safe e c job (next s) (held ++ takes s) (ws ++ writes s) db'
  | .commit a, held, ws, db =>
      ∀ db', c.rely held db db' → c.inv db' → c.commits job held db' (e.view db' ws) a
  | .rollback _, _, _, _ => True

/-- A transaction may go on with `rest`: safe, and truthful if it gives up here. -/
def Ready (e : Engine σ ω Λ ρ α) (c : Contract σ Λ ρ α) (job : ρ) (rest : Code σ ω Λ α)
    (held : List Λ) (ws : List ω) (db : σ) : Prop :=
  (∀ a, rest.refusal? = some a → c.refuses job db a) ∧ Safe e c job rest held ws db

theorem ready_step {e : Engine σ ω Λ ρ α} {c : Contract σ Λ ρ α} {job : ρ}
    {needs takes : Sight σ Λ → List Λ} {writes : Sight σ Λ → List ω}
    {next : Sight σ Λ → Code σ ω Λ α} {held : List Λ} {ws : List ω} {db : σ}
    (h : ∀ db', c.rely held db db' → c.inv db' → ∀ s : Sight σ Λ, s.db = e.view db' ws →
      c.asks job held db' s (needs s) (takes s) ∧
        Ready e c job (next s) (held ++ takes s) (ws ++ writes s) db') :
    Ready e c job (.step needs takes writes next) held ws db :=
  ⟨by simp [Code.refusal?], h⟩

theorem ready_commit {e : Engine σ ω Λ ρ α} {c : Contract σ Λ ρ α} {job : ρ} {a : α}
    {held : List Λ} {ws : List ω} {db : σ}
    (h : ∀ db', c.rely held db db' → c.inv db' → c.commits job held db' (e.view db' ws) a) :
    Ready e c job (.commit a) held ws db :=
  ⟨by simp [Code.refusal?], h⟩

theorem ready_rollback {e : Engine σ ω Λ ρ α} {c : Contract σ Λ ρ α} {job : ρ} {a : α}
    {held : List Λ} {ws : List ω} {db : σ} (h : c.refuses job db a) :
    Ready e c job (.rollback a) held ws db :=
  ⟨by simpa [Code.refusal?] using h, trivial⟩

/-- The terms are fair: what a commit guarantees is what the others rely on. -/
structure Contract.Lawful (e : Engine σ ω Λ ρ α) (c : Contract σ Λ ρ α) : Prop where
  rely_refl : ∀ held db, c.rely held db db
  rely_trans : ∀ held db db' db'', c.rely held db db' → c.rely held db' db'' → c.rely held db db''
  guarantee : ∀ job held held' db db' a, c.inv db → c.commits job held db db' a →
    Apart e held held' → c.rely held' db db'
  commits_inv : ∀ job held db db' a, c.inv db → c.commits job held db db' a → c.inv db'
  start_rely : ∀ job held held' db db', c.inv db → e.start job db = some (db', held) →
    c.rely held' db db'
  start_inv : ∀ job held db db', c.inv db → e.start job db = some (db', held) → c.inv db'
  start_safe : ∀ job held db db', c.inv db → e.start job db = some (db', held) →
    Safe e c job (e.code job) held [] db'

variable {e : Engine σ ω Λ ρ α} {c : Contract σ Λ ρ α}

theorem Safe.mono (hc : c.Lawful e) {job : ρ} {rest : Code σ ω Λ α} {held : List Λ}
    {ws : List ω} {db db' : σ} (h : Safe e c job rest held ws db) (hrely : c.rely held db db') :
    Safe e c job rest held ws db' := by
  cases rest with
  | step needs takes writes next =>
      intro db'' h''
      exact h db'' (hc.rely_trans _ _ _ _ hrely h'')
  | commit a =>
      intro db'' h''
      exact h db'' (hc.rely_trans _ _ _ _ hrely h'')
  | rollback a => trivial

/-- A reply is what the contract says of the rows it met, and a commit was made under
locks that were taken. -/
def Answered (c : Contract σ Λ ρ α) (granted : List (ℕ × Λ)) (r : Reply σ ρ α) : Prop :=
  c.inv r.before ∧ (c.refuses r.job r.before r.reply ∨
    ∃ held db', (∀ l ∈ held, (r.id, l) ∈ granted) ∧ c.commits r.job held r.before db' r.reply)

theorem Answered.mono {granted granted' : List (ℕ × Λ)} {r : Reply σ ρ α}
    (h : Answered c granted r) (hsub : granted ⊆ granted') : Answered c granted' r := by
  obtain ⟨hinv, hrefuses | ⟨held, db', hheld, hcommit⟩⟩ := h
  · exact ⟨hinv, .inl hrefuses⟩
  · exact ⟨hinv, .inr ⟨held, db', fun l hl => hsub (hheld l hl), hcommit⟩⟩

/-- The invariant of every interleaving. -/
structure World.Sound (e : Engine σ ω Λ ρ α) (c : Contract σ Λ ρ α) (w : World σ ω Λ ρ α) :
    Prop where
  inv : c.inv w.db
  exclusive : w.Exclusive e
  safe : ∀ s ∈ w.sessions, Safe e c s.job s.rest s.held s.writes w.db
  granted : ∀ s ∈ w.sessions, ∀ l ∈ s.held, (s.id, l) ∈ w.granted
  answered : ∀ r ∈ w.log, Answered c w.granted r

theorem World.sound_idle {db : σ} (h : c.inv db) : (World.idle db : World σ ω Λ ρ α).Sound e c where
  inv := h
  exclusive := World.exclusive_idle e db
  safe := fun s hs => (Table.not_mem_empty s hs).elim
  granted := fun s hs => (Table.not_mem_empty s hs).elim
  answered := by simp [World.idle]

theorem World.Sound.statement (hc : c.Lawful e) {w : World σ ω Λ ρ α} (h : w.Sound e c) {i : ℕ}
    {job : ρ} {held : List Λ} {ws : List ω} {needs takes : Sight σ Λ → List Λ}
    {writes : Sight σ Λ → List ω} {next : Sight σ Λ → Code σ ω Λ α}
    (hs : ⟨i, job, .step needs takes writes next, held, ws⟩ ∈ w.sessions) {s : Sight σ Λ}
    (hsight : s.db = e.view w.db ws) :
    c.asks job held w.db s (needs s) (takes s) ∧
      Ready e c job (next s) (held ++ takes s) (ws ++ writes s) w.db :=
  h.safe _ hs w.db (hc.rely_refl _ _) h.inv s hsight

theorem World.Sound.commit (hc : c.Lawful e) {w : World σ ω Λ ρ α} (h : w.Sound e c) {i : ℕ}
    {job : ρ} {held : List Λ} {ws : List ω} {a : α}
    (hs : ⟨i, job, .commit a, held, ws⟩ ∈ w.sessions) :
    c.commits job held w.db (e.view w.db ws) a :=
  h.safe _ hs w.db (hc.rely_refl _ _) h.inv

/-- A step that gives a reply either refuses, and leaves the committed rows, or commits. -/
theorem World.Sound.replied (hc : c.Lawful e) {w w' : World σ ω Λ ρ α} {l : Label ρ}
    {r : Reply σ ρ α} (h : w.Sound e c) (hstep : w.Stepped e l w') (hr : w'.log = w.log ++ [r]) :
    r.before = w.db ∧ ((w'.db = w.db ∧ c.refuses r.job w.db r.reply) ∨
      ∃ held, c.commits r.job held w.db w'.db r.reply) := by
  cases hstep with
  | begin _ _ => simp [World.opened] at hr
  | advance hself sight hsight _ =>
      obtain ⟨_, hrefuses, _⟩ := h.statement hc hself (s := sight) (by rw [hsight])
      simp only [World.advanced, List.append_cancel_left_eq, Option.toList_eq_singleton_iff,
        Option.map_eq_some_iff] at hr
      obtain ⟨b, hb, rfl⟩ := hr
      exact ⟨rfl, .inl ⟨rfl, hrefuses b hb⟩⟩
  | commit hself =>
      simp only [World.committed, List.append_cancel_left_eq, List.cons.injEq, and_true] at hr
      subst hr
      exact ⟨rfl, .inr ⟨_, h.commit hc hself⟩⟩
  | rollback _ _ => simp [World.closed] at hr
  | drop _ => simp [World.closed] at hr

theorem World.sound_closed {w : World σ ω Λ ρ α} (h : w.Sound e c) {s : Session σ ω Λ ρ α}
    (hstep : w.Stepped e (.drop s.id) (w.closed s)) : (w.closed s).Sound e c where
  inv := h.inv
  exclusive := World.exclusive_step h.exclusive hstep
  safe := fun t ht => h.safe t (World.mem_closed.mp ht).1
  granted := fun t ht => h.granted t (World.mem_closed.mp ht).1
  answered := h.answered

theorem World.sound_step (hc : c.Lawful e) {w w' : World σ ω Λ ρ α} {a : Label ρ}
    (h : w.Sound e c) (hstep : w.Stepped e a w') : w'.Sound e c := by
  have hexclusive := World.exclusive_step h.exclusive hstep
  cases hstep with
  | begin hstart hfree =>
      refine ⟨hc.start_inv _ _ _ _ h.inv hstart, hexclusive, ?_, ?_, ?_⟩
      · intro s hs
        rcases World.mem_opened.mp hs with ⟨hs, _⟩ | rfl
        · exact (h.safe s hs).mono hc (hc.start_rely _ _ _ _ _ h.inv hstart)
        · exact hc.start_safe _ _ _ _ h.inv hstart
      · intro s hs l hl
        rcases World.mem_opened.mp hs with ⟨hs, _⟩ | rfl
        · exact List.mem_append_left _ (h.granted s hs l hl)
        · exact List.mem_append_right _ (List.mem_map.mpr ⟨l, hl, rfl⟩)
      · exact fun r hr => (h.answered r hr).mono (List.subset_append_left _ _)
  | advance hself sight hsight hfree =>
      obtain ⟨_, hrefuses, hnext⟩ := h.statement hc hself (s := sight) (by rw [hsight])
      refine ⟨h.inv, hexclusive, ?_, ?_, ?_⟩
      · intro s hs
        rcases World.mem_advanced.mp hs with ⟨hs, _⟩ | rfl
        · exact h.safe s hs
        · exact hnext
      · intro s hs l hl
        rcases World.mem_advanced.mp hs with ⟨hs, _⟩ | rfl
        · exact List.mem_append_left _ (h.granted s hs l hl)
        · rcases List.mem_append.mp hl with hl | hl
          · exact List.mem_append_left _ (h.granted _ hself l hl)
          · exact List.mem_append_right _ (List.mem_map.mpr ⟨l, hl, rfl⟩)
      · intro r hr
        rcases List.mem_append.mp hr with hr | hr
        · exact (h.answered r hr).mono (List.subset_append_left _ _)
        · rw [Option.mem_toList, Option.map_eq_some_iff] at hr
          obtain ⟨b, hb, rfl⟩ := hr
          exact ⟨h.inv, .inl (hrefuses b hb)⟩
  | commit hself =>
      have hcommit := h.commit hc hself
      refine ⟨hc.commits_inv _ _ _ _ _ h.inv hcommit, hexclusive, ?_, ?_, ?_⟩
      · intro s hs
        obtain ⟨hs, hne⟩ := World.mem_committed.mp hs
        exact (h.safe s hs).mono hc
          (hc.guarantee _ _ _ _ _ _ h.inv hcommit (h.exclusive _ hself s hs hne.symm))
      · exact fun s hs => h.granted s (World.mem_committed.mp hs).1
      · intro r hr
        rcases List.mem_append.mp hr with hr | hr
        · exact h.answered r hr
        · rw [List.mem_singleton] at hr
          subst hr
          exact ⟨h.inv, .inr ⟨_, _, h.granted _ hself, hcommit⟩⟩
  | rollback hself _ => exact World.sound_closed h (.drop hself)
  | drop hself => exact World.sound_closed h (.drop hself)

/-- The rule of composition: transactions that are safe alone are sound together. -/
theorem World.sound_trace (hc : c.Lawful e) {w w' : World σ ω Λ ρ α} {as : List (Label ρ)}
    (h : w.Sound e c) (ht : Trace e.Step w as w') : w'.Sound e c :=
  ht.invariant (fun _ _ _ hi hs => World.sound_step hc hi (World.stepped hs)) h

/-- A property of the committed rows and the log that begins, refusals and commits of
admitted transactions keep, every run of them keeps. -/
theorem World.committed_trace (hc : c.Lawful e) (Admitted : ρ → Prop)
    {P : σ → List (Reply σ ρ α) → Prop}
    (hbegin : ∀ db log job db' held, c.inv db → e.start job db = some (db', held) →
      P db log → P db' log)
    (hrefuse : ∀ db log i job a, Admitted job → c.inv db → c.refuses job db a →
      P db log → P db (log ++ [⟨i, job, a, db⟩]))
    (hcommit : ∀ db log i job a held db', Admitted job → c.inv db →
      c.commits job held db db' a → P db log → P db' (log ++ [⟨i, job, a, db⟩]))
    {w w' : World σ ω Λ ρ α} {as : List (Label ρ)} (h : w.Sound e c)
    (hjobs : ∀ s ∈ w.sessions, Admitted s.job) (has : ∀ job, .begin job ∈ as → Admitted job)
    (hP : P w.db w.log) (ht : Trace e.Step w as w') : P w'.db w'.log := by
  induction ht with
  | nil => exact hP
  | @cons w _ _ _ as hstep _ ih =>
      have hstep := World.stepped hstep
      have hsound := World.sound_step hc h hstep
      have hrest : ∀ job, Label.begin job ∈ as → Admitted job := fun job hj =>
        has job (List.mem_cons_of_mem _ hj)
      cases hstep with
      | begin hstart hfree =>
          refine ih hsound ?_ hrest (hbegin _ _ _ _ _ h.inv hstart hP)
          intro s hs
          rcases World.mem_opened.mp hs with ⟨hs, _⟩ | rfl
          · exact hjobs s hs
          · exact has _ (List.mem_cons_self ..)
      | @advance i pick job held ws needs takes writes next hself sight hsight hfree =>
          have hself' := hjobs _ hself
          obtain ⟨_, hrefuses, _⟩ := h.statement hc hself (s := sight) (by rw [hsight])
          refine ih hsound ?_ hrest ?_
          · intro s hs
            rcases World.mem_advanced.mp hs with ⟨hs, _⟩ | rfl
            · exact hjobs s hs
            · exact hself'
          · cases hnext : (next sight).refusal? with
            | none => simpa [World.advanced, hnext] using hP
            | some a =>
                simpa [World.advanced, hnext] using
                  hrefuse _ _ i _ a hself' h.inv (hrefuses a hnext) hP
      | commit hself =>
          refine ih hsound (fun s hs => hjobs s (World.mem_committed.mp hs).1) hrest ?_
          exact hcommit _ _ _ _ _ _ _ (hjobs _ hself) h.inv (h.commit hc hself) hP
      | rollback hself _ =>
          exact ih hsound (fun s hs => hjobs s (World.mem_closed.mp hs).1) hrest hP
      | drop hself => exact ih hsound (fun s hs => hjobs s (World.mem_closed.mp hs).1) hrest hP

end Library
