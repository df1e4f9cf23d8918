import Pgvs3.Library.Table
import Pgvs3.Library.Transition

/-! # Transactions that keep their locks to the end

Transactions run one statement at a time over committed rows. A statement waits until
the locks it asks for are free, takes some of them, and adds writes that only its own
transaction sees. A commit makes the writes visible; a commit and a rollback both give
the locks back. -/

namespace Library

/-- What a statement goes by: the committed rows under the writes of its own transaction,
the locks that it could have at once, and a choice left to the scheduler. -/
structure Sight (σ Λ : Type*) where
  db : σ
  free : Λ → Bool
  pick : ℕ

/-- A transaction, one statement after another. A statement waits for the locks in `needs`
and `takes`, and keeps those in `takes`. -/
inductive Code (σ ω Λ α : Type*) where
  | step (needs takes : Sight σ Λ → List Λ) (writes : Sight σ Λ → List ω)
      (next : Sight σ Λ → Code σ ω Λ α)
  | commit (reply : α)
  | rollback (reply : α)

def Code.refusal? {σ ω Λ α : Type*} : Code σ ω Λ α → Option α
  | .rollback a => some a
  | _ => none

/-- How a store runs its transactions. `start` is what happens outside the transaction,
before its first statement. -/
structure Engine (σ ω Λ ρ α : Type*) where
  write : σ → ω → σ
  conflict : Λ → Λ → Bool
  conflict_symm : ∀ l l', conflict l l' = conflict l' l
  start : ρ → σ → Option (σ × List Λ)
  code : ρ → Code σ ω Λ α

structure Session (σ ω Λ ρ α : Type*) where
  id : ℕ
  job : ρ
  rest : Code σ ω Λ α
  held : List Λ
  writes : List ω

/-- A reply, with the committed rows that the deciding statement met. -/
structure Reply (σ ρ α : Type*) where
  id : ℕ
  job : ρ
  reply : α
  before : σ

/-- The committed rows and the open transactions. `granted` and `log` remember the locks
taken and the replies given, in order. -/
structure World (σ ω Λ ρ α : Type*) where
  db : σ
  sessions : Table (Session.id : Session σ ω Λ ρ α → ℕ)
  next : ℕ
  granted : List (ℕ × Λ)
  log : List (Reply σ ρ α)

inductive Label (ρ : Type*) where
  | begin (job : ρ)
  | run (id pick : ℕ)
  /-- The server ends the transaction: an error, a deadlock victim, a lost connection. -/
  | drop (id : ℕ)
  deriving DecidableEq

variable {σ ω Λ ρ α : Type*}

def World.idle (db : σ) : World σ ω Λ ρ α := ⟨db, Table.empty, 0, [], []⟩

/-- Rows as a transaction sees them that has made the listed writes. -/
def Engine.view (e : Engine σ ω Λ ρ α) (db : σ) (ws : List ω) : σ := ws.foldl e.write db

@[simp] theorem Engine.view_nil (e : Engine σ ω Λ ρ α) (db : σ) : e.view db [] = db := rfl

/-- No transaction but `i` holds a lock that conflicts with `l`. -/
def World.free (e : Engine σ ω Λ ρ α) (w : World σ ω Λ ρ α) (i : ℕ) (l : Λ) : Bool :=
  w.sessions.rows.all fun s => s.id = i || s.held.all fun l' => !e.conflict l l'

def World.sight (e : Engine σ ω Λ ρ α) (w : World σ ω Λ ρ α) (s : Session σ ω Λ ρ α)
    (pick : ℕ) : Sight σ Λ :=
  ⟨e.view w.db s.writes, w.free e s.id, pick⟩

def World.opened (w : World σ ω Λ ρ α) (s : Session σ ω Λ ρ α) (db : σ) : World σ ω Λ ρ α where
  db := db
  sessions := w.sessions.upsert s
  next := w.next + 1
  granted := w.granted ++ s.held.map (Prod.mk s.id)
  log := w.log

def World.advanced (w : World σ ω Λ ρ α) (s : Session σ ω Λ ρ α) (rest : Code σ ω Λ α)
    (takes : List Λ) (ws : List ω) : World σ ω Λ ρ α where
  db := w.db
  sessions := w.sessions.upsert ⟨s.id, s.job, rest, s.held ++ takes, s.writes ++ ws⟩
  next := w.next
  granted := w.granted ++ takes.map (Prod.mk s.id)
  log := w.log ++ (rest.refusal?.map fun a => ⟨s.id, s.job, a, w.db⟩).toList

def World.closed (w : World σ ω Λ ρ α) (s : Session σ ω Λ ρ α) : World σ ω Λ ρ α :=
  { w with sessions := w.sessions.deleteWhere fun t => t.id = s.id }

def World.committed (e : Engine σ ω Λ ρ α) (w : World σ ω Λ ρ α) (s : Session σ ω Λ ρ α)
    (a : α) : World σ ω Λ ρ α :=
  { w.closed s with
    db := e.view w.db s.writes
    log := w.log ++ [⟨s.id, s.job, a, w.db⟩] }

def World.step (e : Engine σ ω Λ ρ α) (w : World σ ω Λ ρ α) : Label ρ → Option (World σ ω Λ ρ α)
  | .begin job =>
      match e.start job w.db with
      | none => none
      | some (db, held) =>
          if held.all (w.free e w.next) then
            some (w.opened ⟨w.next, job, e.code job, held, []⟩ db)
          else none
  | .run i pick =>
      match w.sessions.find? i with
      | none => none
      | some s =>
          match s.rest with
          | .step needs takes writes next =>
              let sight := w.sight e s pick
              if (needs sight ++ takes sight).all sight.free then
                some (w.advanced s (next sight) (takes sight) (writes sight))
              else none
          | .commit a => some (w.committed e s a)
          | .rollback _ => some (w.closed s)
  | .drop i =>
      match w.sessions.find? i with
      | none => none
      | some s => some (w.closed s)

def Engine.Step (e : Engine σ ω Λ ρ α) (w : World σ ω Λ ρ α) (a : Label ρ)
    (w' : World σ ω Λ ρ α) : Prop :=
  w.step e a = some w'

def World.runs (e : Engine σ ω Λ ρ α) (w : World σ ω Λ ρ α) (as : List (Label ρ)) :
    Option (World σ ω Λ ρ α) :=
  runAll (World.step e) w as

theorem World.trace_of_runs {e : Engine σ ω Λ ρ α} {w w' : World σ ω Λ ρ α} {as : List (Label ρ)}
    (h : w.runs e as = some w') : Trace e.Step w as w' :=
  trace_iff_runAll.mpr h

/-- All that a step can do. -/
inductive World.Stepped (e : Engine σ ω Λ ρ α) (w : World σ ω Λ ρ α) :
    Label ρ → World σ ω Λ ρ α → Prop where
  | begin {job : ρ} {db : σ} {held : List Λ} (hstart : e.start job w.db = some (db, held))
      (hfree : ∀ l ∈ held, w.free e w.next l = true) :
      w.Stepped e (.begin job) (w.opened ⟨w.next, job, e.code job, held, []⟩ db)
  | advance {i : ℕ} {pick : ℕ} {job : ρ} {held : List Λ} {ws : List ω}
      {needs takes : Sight σ Λ → List Λ} {writes : Sight σ Λ → List ω}
      {next : Sight σ Λ → Code σ ω Λ α}
      (hs : ⟨i, job, .step needs takes writes next, held, ws⟩ ∈ w.sessions)
      (s : Sight σ Λ) (hsight : s = ⟨e.view w.db ws, w.free e i, pick⟩)
      (hfree : ∀ l ∈ needs s ++ takes s, w.free e i l = true) :
      w.Stepped e (.run i pick)
        (w.advanced ⟨i, job, .step needs takes writes next, held, ws⟩ (next s) (takes s) (writes s))
  | commit {i pick : ℕ} {job : ρ} {held : List Λ} {ws : List ω} {a : α}
      (hs : ⟨i, job, .commit a, held, ws⟩ ∈ w.sessions) :
      w.Stepped e (.run i pick) (w.committed e ⟨i, job, .commit a, held, ws⟩ a)
  | rollback {s : Session σ ω Λ ρ α} {pick : ℕ} {a : α} (hs : s ∈ w.sessions)
      (hrest : s.rest = .rollback a) : w.Stepped e (.run s.id pick) (w.closed s)
  | drop {s : Session σ ω Λ ρ α} (hs : s ∈ w.sessions) : w.Stepped e (.drop s.id) (w.closed s)

theorem World.stepped {e : Engine σ ω Λ ρ α} {w w' : World σ ω Λ ρ α} {a : Label ρ}
    (h : e.Step w a w') : w.Stepped e a w' := by
  unfold Engine.Step at h
  cases a with
  | begin job =>
      simp only [World.step] at h
      split at h
      · cases h
      · rename_i db held hstart
        split at h
        · rename_i hfree
          cases h
          exact .begin hstart (List.all_eq_true.mp hfree)
        · cases h
  | run i pick =>
      simp only [World.step] at h
      cases hfind : w.sessions.find? i with
      | none => simp [hfind] at h
      | some s =>
          obtain ⟨hs, rfl⟩ := Table.find?_eq_some_iff.mp hfind
          obtain ⟨i, job, rest, held, ws⟩ := s
          simp only [hfind] at h
          cases rest with
          | step needs takes writes next =>
              simp only at h
              split at h
              · rename_i hfree
                cases h
                exact .advance hs _ rfl (List.all_eq_true.mp hfree)
              · cases h
          | commit a =>
              cases h
              exact .commit hs
          | rollback a =>
              cases h
              exact .rollback hs rfl
  | drop i =>
      simp only [World.step] at h
      cases hfind : w.sessions.find? i with
      | none => simp [hfind] at h
      | some s =>
          obtain ⟨hs, rfl⟩ := Table.find?_eq_some_iff.mp hfind
          simp only [hfind, Option.some.injEq] at h
          subst h
          exact .drop hs

theorem World.Stepped.log {e : Engine σ ω Λ ρ α} {w w' : World σ ω Λ ρ α} {a : Label ρ}
    (h : w.Stepped e a w') : ∃ r : Option (Reply σ ρ α), w'.log = w.log ++ r.toList := by
  cases h with
  | begin _ _ => exact ⟨none, (List.append_nil _).symm⟩
  | advance _ _ _ _ => exact ⟨_, rfl⟩
  | commit _ => exact ⟨some _, rfl⟩
  | rollback _ _ => exact ⟨none, (List.append_nil _).symm⟩
  | drop _ => exact ⟨none, (List.append_nil _).symm⟩

/-! ## The open transactions after a step -/

@[simp] theorem World.mem_opened {w : World σ ω Λ ρ α} {s t : Session σ ω Λ ρ α} {db : σ} :
    t ∈ (w.opened s db).sessions ↔ (t ∈ w.sessions ∧ t.id ≠ s.id) ∨ t = s :=
  Table.mem_upsert

@[simp] theorem World.mem_advanced {w : World σ ω Λ ρ α} {s t : Session σ ω Λ ρ α}
    {rest : Code σ ω Λ α} {takes : List Λ} {ws : List ω} :
    t ∈ (w.advanced s rest takes ws).sessions ↔
      (t ∈ w.sessions ∧ t.id ≠ s.id) ∨
        t = ⟨s.id, s.job, rest, s.held ++ takes, s.writes ++ ws⟩ :=
  Table.mem_upsert

@[simp] theorem World.mem_closed {w : World σ ω Λ ρ α} {s t : Session σ ω Λ ρ α} :
    t ∈ (w.closed s).sessions ↔ t ∈ w.sessions ∧ t.id ≠ s.id := by
  simp [World.closed]

@[simp] theorem World.mem_committed {e : Engine σ ω Λ ρ α} {w : World σ ω Λ ρ α}
    {s t : Session σ ω Λ ρ α} {a : α} :
    t ∈ (w.committed e s a).sessions ↔ t ∈ w.sessions ∧ t.id ≠ s.id :=
  World.mem_closed

/-! ## Locks -/

/-- No lock of one list conflicts with a lock of the other. -/
def Apart (e : Engine σ ω Λ ρ α) (held held' : List Λ) : Prop :=
  ∀ l ∈ held, ∀ l' ∈ held', e.conflict l l' = false

theorem Apart.symm {e : Engine σ ω Λ ρ α} {held held' : List Λ} (h : Apart e held held') :
    Apart e held' held := by
  intro l hl l' hl'
  rw [e.conflict_symm]
  exact h l' hl' l hl

theorem Apart.append {e : Engine σ ω Λ ρ α} {held takes held' : List Λ} (h : Apart e held held')
    (h' : Apart e takes held') : Apart e (held ++ takes) held' := by
  intro l hl
  rcases List.mem_append.mp hl with hl | hl
  · exact h l hl
  · exact h' l hl

theorem World.free_iff {e : Engine σ ω Λ ρ α} {w : World σ ω Λ ρ α} {i : ℕ} {l : Λ} :
    w.free e i l = true ↔
      ∀ s ∈ w.sessions, s.id ≠ i → ∀ l' ∈ s.held, e.conflict l l' = false := by
  simp only [World.free, List.all_eq_true, Bool.or_eq_true, decide_eq_true_eq, Bool.not_eq_true',
    Table.mem_def]
  constructor
  · intro h s hs hne
    exact (h s hs).resolve_left hne
  · intro h s hs
    by_cases hid : s.id = i
    · exact .inl hid
    · exact .inr (h s hs hid)

/-- Transactions that are open together hold no conflicting locks. -/
def World.Exclusive (e : Engine σ ω Λ ρ α) (w : World σ ω Λ ρ α) : Prop :=
  ∀ s ∈ w.sessions, ∀ t ∈ w.sessions, s.id ≠ t.id → Apart e s.held t.held

theorem World.exclusive_step {e : Engine σ ω Λ ρ α} {w w' : World σ ω Λ ρ α} {a : Label ρ}
    (h : w.Exclusive e) (hstep : w.Stepped e a w') : w'.Exclusive e := by
  cases hstep with
  | begin hstart hfree =>
      intro s hs t ht hne
      rw [World.mem_opened] at hs ht
      rcases hs with ⟨hs, hsi⟩ | rfl <;> rcases ht with ⟨ht, hti⟩ | rfl
      · exact h s hs t ht hne
      · exact Apart.symm fun l hl => World.free_iff.mp (hfree l hl) s hs hsi
      · exact fun l hl => World.free_iff.mp (hfree l hl) t ht hti
      · exact (hne rfl).elim
  | advance hself sight _ hfree =>
      intro s hs t ht hne
      rw [World.mem_advanced] at hs ht
      have hnew : ∀ u ∈ w.sessions, u.id ≠ _ → Apart e _ u.held := fun u hu hui =>
        Apart.append (h _ hself u hu hui.symm) fun l hl =>
          World.free_iff.mp (hfree l (List.mem_append_right _ hl)) u hu hui
      rcases hs with ⟨hs, hsi⟩ | rfl <;> rcases ht with ⟨ht, hti⟩ | rfl
      · exact h s hs t ht hne
      · exact (hnew s hs hsi).symm
      · exact hnew t ht hti
      · exact (hne rfl).elim
  | commit hself =>
      intro s hs t ht
      exact h s (World.mem_committed.mp hs).1 t (World.mem_committed.mp ht).1
  | rollback hself _ =>
      intro s hs t ht
      exact h s (World.mem_closed.mp hs).1 t (World.mem_closed.mp ht).1
  | drop hself =>
      intro s hs t ht
      exact h s (World.mem_closed.mp hs).1 t (World.mem_closed.mp ht).1

theorem World.exclusive_idle (e : Engine σ ω Λ ρ α) (db : σ) : (World.idle db).Exclusive e :=
  fun s hs => (Table.not_mem_empty s hs).elim

end Library
