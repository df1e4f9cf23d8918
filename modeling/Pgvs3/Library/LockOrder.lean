import Pgvs3.Library.Locking
import Mathlib.Logic.Relation

/-! # The order in which locks are taken

A lock that conflicts with itself is held by one open transaction at a time, and only given
back with the reply: so those who take it reply in the order in which they took it. Where
locks are only asked for above those already held, no transactions wait for each other in a
circle. -/

namespace Library

variable {σ ω Λ ρ α : Type*}

/-! ## Replies follow the grants -/

/-- The transactions that took `l`, in the order in which they did. -/
def World.takers [DecidableEq Λ] (w : World σ ω Λ ρ α) (l : Λ) : List ℕ :=
  (w.granted.filter fun g => g.2 = l).map Prod.fst

/-- The replies of transactions that took `l`, in the order in which they were given. -/
def World.repliesUnder [DecidableEq Λ] (w : World σ ω Λ ρ α) (l : Λ) : List (Reply σ ρ α) :=
  w.log.filter fun r => (r.id, l) ∈ w.granted

section

variable [DecidableEq Λ] {e : Engine σ ω Λ ρ α} {l : Λ}

omit [DecidableEq Λ] in
theorem mem_grants {granted : List (ℕ × Λ)} {i j : ℕ} {ls : List Λ} {l' : Λ} :
    (j, l') ∈ granted ++ ls.map (Prod.mk i) ↔ (j, l') ∈ granted ∨ j = i ∧ l' ∈ ls := by
  rw [List.mem_append, List.mem_map]
  refine or_congr_right ⟨?_, ?_⟩
  · rintro ⟨_, hmem, heq⟩
    obtain ⟨rfl, rfl⟩ := Prod.mk.inj heq
    exact ⟨rfl, hmem⟩
  · rintro ⟨rfl, hmem⟩
    exact ⟨l', hmem, rfl⟩

omit [DecidableEq Λ] in
theorem mem_grants_of_ne {granted : List (ℕ × Λ)} {i j : ℕ} {ls : List Λ} {l' : Λ} (h : j ≠ i) :
    (j, l') ∈ granted ++ ls.map (Prod.mk i) ↔ (j, l') ∈ granted :=
  mem_grants.trans (or_iff_left fun hmem => h hmem.1)

theorem takers_same {granted : List (ℕ × Λ)} {i : ℕ} {ls : List Λ} (h : l ∉ ls) :
    (((granted ++ ls.map (Prod.mk i)).filter fun g => g.2 = l).map Prod.fst) =
      (granted.filter fun g => g.2 = l).map Prod.fst := by
  have hnone : (ls.map (Prod.mk i)).filter (fun g => g.2 = l) = [] := by
    rw [List.filter_eq_nil_iff]
    intro g hg
    obtain ⟨l', hl', rfl⟩ := List.mem_map.mp hg
    simpa using fun heq : l' = l => h (heq ▸ hl')
  rw [List.filter_append, hnone, List.append_nil]

theorem takers_last {granted : List (ℕ × Λ)} {i : ℕ} {ls : List Λ} (h : l ∈ ls) :
    (((granted ++ ls.map (Prod.mk i)).filter fun g => g.2 = l).map Prod.fst).getLast? = some i := by
  set mine := ((ls.map (Prod.mk i)).filter fun g => g.2 = l).map Prod.fst with hmine
  have hall : ∀ j ∈ mine, j = i := by
    intro j hj
    obtain ⟨g, hg, rfl⟩ := List.mem_map.mp hj
    obtain ⟨l', _, rfl⟩ := List.mem_map.mp (List.mem_of_mem_filter hg)
    rfl
  have hne : mine ≠ [] :=
    List.ne_nil_of_mem (List.mem_map.mpr
      ⟨(i, l), List.mem_filter.mpr ⟨List.mem_map.mpr ⟨l, h, rfl⟩, by simp⟩, rfl⟩)
  rw [List.filter_append, List.map_append, ← hmine, List.getLast?_append,
    List.getLast?_eq_some_getLast hne, hall _ (List.getLast_mem hne)]
  rfl

theorem sublist_snoc_of_last {L G : List ℕ} {i : ℕ} (h : L.Sublist G) (hi : i ∉ L)
    (hlast : G.getLast? = some i) : (L ++ [i]).Sublist G := by
  obtain ⟨G', rfl⟩ := List.getLast?_eq_some_iff.mp hlast
  refine List.Sublist.append ?_ (List.Sublist.refl _)
  obtain ⟨L₁, L₂, rfl, h₁, h₂⟩ := List.sublist_append_iff.mp h
  have hnil : L₂ = [] := by
    cases L₂ with
    | nil => rfl
    | cons a L₂ =>
        have ha : a = i := List.mem_singleton.mp (h₂.subset (List.mem_cons_self ..))
        exact (hi (by simp [ha])).elim
  simpa [hnil] using h₁

theorem takers_grow (granted : List (ℕ × Λ)) (i : ℕ) (ls : List Λ) :
    ((granted.filter fun g => g.2 = l).map Prod.fst).Sublist
      (((granted ++ ls.map (Prod.mk i)).filter fun g => g.2 = l).map Prod.fst) := by
  rw [List.filter_append, List.map_append]
  exact List.sublist_append_left _ _

theorem replies_same {log : List (Reply σ ρ α)} {granted : List (ℕ × Λ)} {i : ℕ} {ls : List Λ}
    (hquiet : ∀ r ∈ log, r.id ≠ i) :
    (log.filter fun r => (r.id, l) ∈ granted ++ ls.map (Prod.mk i)) =
      log.filter fun r => (r.id, l) ∈ granted :=
  List.filter_congr fun r hr => decide_eq_decide.mpr (mem_grants_of_ne (hquiet r hr))

/-- A transaction that has not replied replies, and if it took the lock it was the last. -/
theorem replies_snoc {log extra : List (Reply σ ρ α)} {granted : List (ℕ × Λ)} {i : ℕ}
    (h : ((log.filter fun r => (r.id, l) ∈ granted).map Reply.id).Sublist
      ((granted.filter fun g => g.2 = l).map Prod.fst))
    (hquiet : ∀ r ∈ log, r.id ≠ i) (hextra : ∀ r ∈ extra, r.id = i) (hlen : extra.length ≤ 1)
    (hlast : (i, l) ∈ granted →
      ((granted.filter fun g => g.2 = l).map Prod.fst).getLast? = some i) :
    (((log ++ extra).filter fun r => (r.id, l) ∈ granted).map Reply.id).Sublist
      ((granted.filter fun g => g.2 = l).map Prod.fst) := by
  rw [List.filter_append, List.map_append]
  match extra, hextra, hlen with
  | [], _, _ => simpa using h
  | [r], hextra, _ =>
      obtain rfl := hextra r (by simp)
      have hnew : r.id ∉ (log.filter fun r => (r.id, l) ∈ granted).map Reply.id := by
        intro hmem
        obtain ⟨q, hq, heq⟩ := List.mem_map.mp hmem
        exact hquiet q (List.mem_of_mem_filter hq) heq
      by_cases htook : (r.id, l) ∈ granted
      · simpa [htook] using sublist_snoc_of_last h hnew (hlast htook)
      · simpa [htook] using h

omit [DecidableEq Λ] in
/-- What is free for a transaction is not a self-conflicting lock of another one. -/
theorem World.not_mem_of_free (hl : e.conflict l l = true) {w : World σ ω Λ ρ α} {i : ℕ}
    {ls : List Λ} (hfree : ∀ l' ∈ ls, w.free e i l' = true) {s : Session σ ω Λ ρ α}
    (hs : s ∈ w.sessions) (hne : s.id ≠ i) (hls : l ∈ s.held) : l ∉ ls := by
  intro hmem
  have hapart := World.free_iff.mp (hfree l hmem) s hs hne l hls
  rw [hl] at hapart
  cases hapart

/-- What relates open transactions, grants of `l` and replies. -/
structure World.InOrder (e : Engine σ ω Λ ρ α) (l : Λ) (w : World σ ω Λ ρ α) : Prop where
  exclusive : w.Exclusive e
  /-- Ids are not used again. -/
  open_lt : ∀ s ∈ w.sessions, s.id < w.next
  granted_lt : ∀ g ∈ w.granted, g.1 < w.next
  log_lt : ∀ r ∈ w.log, r.id < w.next
  /-- An open transaction holds the locks it took. -/
  held : ∀ s ∈ w.sessions, ∀ l', l' ∈ s.held ↔ (s.id, l') ∈ w.granted
  /-- Who can still write has not replied. -/
  silent : ∀ s ∈ w.sessions, s.rest.refusal? = none → ∀ r ∈ w.log, r.id ≠ s.id
  /-- The holder of `l` is the last to have taken it. -/
  last : ∀ s ∈ w.sessions, l ∈ s.held → (w.takers l).getLast? = some s.id
  ordered : ((w.repliesUnder l).map Reply.id).Sublist (w.takers l)

theorem World.inOrder_idle (db : σ) : (World.idle db : World σ ω Λ ρ α).InOrder e l where
  exclusive := World.exclusive_idle e db
  open_lt := fun s hs => (Table.not_mem_empty s hs).elim
  granted_lt := by simp [World.idle]
  log_lt := by simp [World.idle]
  held := fun s hs => (Table.not_mem_empty s hs).elim
  silent := fun s hs => (Table.not_mem_empty s hs).elim
  last := fun s hs => (Table.not_mem_empty s hs).elim
  ordered := by simp [World.repliesUnder, World.idle]

theorem World.inOrder_closed {w : World σ ω Λ ρ α} {s : Session σ ω Λ ρ α} (h : w.InOrder e l)
    (hexclusive : (w.closed s).Exclusive e) : (w.closed s).InOrder e l where
  exclusive := hexclusive
  open_lt := fun t ht => h.open_lt t (World.mem_closed.mp ht).1
  granted_lt := h.granted_lt
  log_lt := h.log_lt
  held := fun t ht => h.held t (World.mem_closed.mp ht).1
  silent := fun t ht => h.silent t (World.mem_closed.mp ht).1
  last := fun t ht => h.last t (World.mem_closed.mp ht).1
  ordered := h.ordered

theorem World.inOrder_opened (hl : e.conflict l l = true) {w : World σ ω Λ ρ α}
    (h : w.InOrder e l) {job : ρ} {rest : Code σ ω Λ α} {held : List Λ} {db : σ}
    (hfree : ∀ l' ∈ held, w.free e w.next l' = true)
    (hexclusive : (w.opened ⟨w.next, job, rest, held, []⟩ db).Exclusive e) :
    (w.opened ⟨w.next, job, rest, held, []⟩ db).InOrder e l where
  exclusive := hexclusive
  open_lt s hs := by
    rcases World.mem_opened.mp hs with ⟨hs, _⟩ | rfl
    · exact (h.open_lt s hs).trans (Nat.lt_succ_self _)
    · exact Nat.lt_succ_self _
  granted_lt g hg := by
    rcases mem_grants.mp hg with hg | ⟨hid, -⟩
    · exact (h.granted_lt g hg).trans (Nat.lt_succ_self _)
    · exact hid ▸ Nat.lt_succ_self _
  log_lt r hr := (h.log_lt r hr).trans (Nat.lt_succ_self _)
  held s hs l' := by
    rcases World.mem_opened.mp hs with ⟨hs, hne⟩ | rfl
    · exact (h.held s hs l').trans (mem_grants_of_ne hne).symm
    · have hfresh : (w.next, l') ∉ w.granted := fun hmem => lt_irrefl _ (h.granted_lt _ hmem)
      exact (mem_grants.trans (by simp [hfresh])).symm
  silent s hs hrest r hr := by
    rcases World.mem_opened.mp hs with ⟨hs, _⟩ | rfl
    · exact h.silent s hs hrest r hr
    · exact (h.log_lt r hr).ne
  last s hs hls := by
    rcases World.mem_opened.mp hs with ⟨hs, hne⟩ | rfl
    · have hnot := World.not_mem_of_free hl hfree hs hne hls
      exact (congrArg List.getLast? (takers_same hnot)).trans (h.last s hs hls)
    · exact takers_last hls
  ordered := by
    have hreplies : (w.opened ⟨w.next, job, rest, held, []⟩ db).repliesUnder l =
        w.repliesUnder l := replies_same fun r hr => (h.log_lt r hr).ne
    rw [hreplies]
    exact h.ordered.trans (takers_grow _ _ _)

theorem World.inOrder_advanced (hl : e.conflict l l = true) {w : World σ ω Λ ρ α}
    (h : w.InOrder e l) {self : Session σ ω Λ ρ α} (hself : self ∈ w.sessions)
    (hrest : self.rest.refusal? = none) {rest : Code σ ω Λ α} {takes : List Λ} {ws : List ω}
    (hfree : ∀ l' ∈ takes, w.free e self.id l' = true)
    (hexclusive : (w.advanced self rest takes ws).Exclusive e) :
    (w.advanced self rest takes ws).InOrder e l := by
  have hid : self.id < w.next := h.open_lt _ hself
  have hquiet : ∀ r ∈ w.log, r.id ≠ self.id := h.silent _ hself hrest
  have hreply : ∀ r ∈ (rest.refusal?.map fun a =>
      (⟨self.id, self.job, a, w.db⟩ : Reply σ ρ α)).toList, r.id = self.id := by
    intro r hr
    obtain ⟨_, _, rfl⟩ := Option.map_eq_some_iff.mp (Option.mem_toList.mp hr)
    rfl
  have hmine : ∀ l', (self.id, l') ∈ w.granted ++ takes.map (Prod.mk self.id) ↔
      l' ∈ self.held ++ takes := by
    intro l'
    rw [mem_grants, List.mem_append, ← h.held _ hself l']
    simp
  have hlast : l ∈ self.held ++ takes → (((w.granted ++ takes.map (Prod.mk self.id)).filter
      fun g => g.2 = l).map Prod.fst).getLast? = some self.id := by
    intro hmem
    by_cases htake : l ∈ takes
    · exact takers_last htake
    · rw [takers_same htake]
      exact h.last _ hself ((List.mem_append.mp hmem).resolve_right htake)
  refine ⟨hexclusive, fun s hs => ?_, fun g hg => ?_, fun r hr => ?_, fun s hs l' => ?_,
    fun s hs hgoes r hr => ?_, fun s hs hls => ?_, ?_⟩
  · rcases World.mem_advanced.mp hs with ⟨hs, _⟩ | rfl
    · exact h.open_lt s hs
    · exact hid
  · rcases mem_grants.mp hg with hg | ⟨heq, -⟩
    · exact h.granted_lt g hg
    · exact heq ▸ hid
  · rcases List.mem_append.mp hr with hr | hr
    · exact h.log_lt r hr
    · exact hreply r hr ▸ hid
  · rcases World.mem_advanced.mp hs with ⟨hs, hne⟩ | rfl
    · exact (h.held s hs l').trans (mem_grants_of_ne hne).symm
    · exact (hmine l').symm
  · rcases World.mem_advanced.mp hs with ⟨hs, hne⟩ | rfl
    · rcases List.mem_append.mp hr with hr | hr
      · exact h.silent s hs hgoes r hr
      · exact hreply r hr ▸ hne.symm
    · have hsame : (w.advanced self rest takes ws).log = w.log := by
        simp [World.advanced, show rest.refusal? = none from hgoes]
      exact hquiet r (hsame ▸ hr)
  · rcases World.mem_advanced.mp hs with ⟨hs, hne⟩ | rfl
    · have hnot := World.not_mem_of_free hl hfree hs hne hls
      exact (congrArg List.getLast? (takers_same hnot)).trans (h.last s hs hls)
    · exact hlast hls
  · refine replies_snoc ?_ hquiet hreply ?_ fun htook => hlast ((hmine l).mp htook)
    · have hold : ((w.log.filter fun r => (r.id, l) ∈ w.granted ++
          takes.map (Prod.mk self.id)).map Reply.id).Sublist (w.takers l) := by
        rw [replies_same hquiet]
        exact h.ordered
      exact hold.trans (takers_grow _ _ _)
    · cases rest.refusal? <;> simp

theorem World.inOrder_committed {w : World σ ω Λ ρ α} (h : w.InOrder e l)
    {self : Session σ ω Λ ρ α} (hself : self ∈ w.sessions) (hrest : self.rest.refusal? = none)
    {a : α} (hexclusive : (w.committed e self a).Exclusive e) :
    (w.committed e self a).InOrder e l where
  exclusive := hexclusive
  open_lt s hs := h.open_lt s (World.mem_committed.mp hs).1
  granted_lt := h.granted_lt
  log_lt r hr := by
    rcases List.mem_append.mp hr with hr | hr
    · exact h.log_lt r hr
    · exact List.mem_singleton.mp hr ▸ h.open_lt _ hself
  held s hs := h.held s (World.mem_committed.mp hs).1
  silent s hs hgoes r hr := by
    obtain ⟨hs, hne⟩ := World.mem_committed.mp hs
    rcases List.mem_append.mp hr with hr | hr
    · exact h.silent s hs hgoes r hr
    · exact List.mem_singleton.mp hr ▸ hne.symm
  last s hs := h.last s (World.mem_committed.mp hs).1
  ordered := replies_snoc h.ordered (h.silent _ hself hrest) (by simp) (by simp)
    fun htook => h.last _ hself ((h.held _ hself l).mpr htook)

theorem World.inOrder_step (hl : e.conflict l l = true) {w w' : World σ ω Λ ρ α} {a : Label ρ}
    (h : w.InOrder e l) (hstep : w.Stepped e a w') : w'.InOrder e l := by
  have hexclusive := World.exclusive_step h.exclusive hstep
  cases hstep with
  | begin _ hfree => exact World.inOrder_opened hl h hfree hexclusive
  | advance hself _ _ hfree =>
      exact World.inOrder_advanced hl h hself rfl
        (fun l' hl' => hfree l' (List.mem_append_right _ hl')) hexclusive
  | commit hself => exact World.inOrder_committed h hself rfl hexclusive
  | rollback | drop => exact World.inOrder_closed h hexclusive

/-- Replies follow the grants, whatever runs beside them. -/
theorem World.replies_follow_grants (hl : e.conflict l l = true) {db : σ} {w : World σ ω Λ ρ α}
    {as : List (Label ρ)} (h : Trace e.Step (World.idle db) as w) :
    ((w.repliesUnder l).map Reply.id).Sublist (w.takers l) := by
  have hinv : w.InOrder e l := h.invariant
    (fun _ _ _ hi hs => World.inOrder_step hl hi (World.stepped hs)) (World.inOrder_idle db)
  exact hinv.ordered

end

/-! ## Replies under a lock -/

/-- Every reply of the kind is made while `l` is held. -/
def Code.Guarded (l : Λ) (kind : α → Prop) : Code σ ω Λ α → List Λ → Prop
  | .step _ takes _ next, held => ∀ s, (next s).Guarded l kind (held ++ takes s)
  | .commit a, held => kind a → l ∈ held
  | .rollback a, held => kind a → l ∈ held

theorem Code.guarded_of_mem {l : Λ} {kind : α → Prop} {held : List Λ} (h : l ∈ held)
    (rest : Code σ ω Λ α) : rest.Guarded l kind held := by
  induction rest generalizing held with
  | step needs takes writes next ih =>
      intro s
      exact ih s (List.mem_append_left _ h)
  | commit a => exact fun _ => h
  | rollback a => exact fun _ => h

/-- The replies of the kind to `job`, past and to come, are made by transactions that took
the lock. -/
structure World.Guarded (job : ρ) (l : Λ) (kind : α → Prop) (w : World σ ω Λ ρ α) : Prop where
  granted : ∀ s ∈ w.sessions, ∀ l' ∈ s.held, (s.id, l') ∈ w.granted
  rest : ∀ s ∈ w.sessions, s.job = job → s.rest.Guarded l kind s.held
  replied : ∀ r ∈ w.log, r.job = job → kind r.reply → (r.id, l) ∈ w.granted

section

variable {e : Engine σ ω Λ ρ α} {job : ρ} {l : Λ} {kind : α → Prop}

theorem World.guarded_idle (db : σ) :
    (World.idle db : World σ ω Λ ρ α).Guarded job l kind where
  granted := fun s hs => (Table.not_mem_empty s hs).elim
  rest := fun s hs => (Table.not_mem_empty s hs).elim
  replied := by simp [World.idle]

theorem World.guarded_closed {w : World σ ω Λ ρ α} (h : w.Guarded job l kind)
    (s : Session σ ω Λ ρ α) : (w.closed s).Guarded job l kind where
  granted := fun t ht => h.granted t (World.mem_closed.mp ht).1
  rest := fun t ht => h.rest t (World.mem_closed.mp ht).1
  replied := h.replied

theorem World.guarded_step (hcode : ∀ held, (e.code job).Guarded l kind held)
    {w w' : World σ ω Λ ρ α} {a : Label ρ} (h : w.Guarded job l kind)
    (hstep : w.Stepped e a w') : w'.Guarded job l kind := by
  cases hstep with
  | @begin job' db held hstart hfree =>
      refine ⟨?_, ?_, fun r hr hjob hkind => List.mem_append_left _ (h.replied r hr hjob hkind)⟩
      · intro s hs l' hl'
        rcases World.mem_opened.mp hs with ⟨hs, _⟩ | rfl
        · exact List.mem_append_left _ (h.granted s hs l' hl')
        · exact List.mem_append_right _ (List.mem_map.mpr ⟨l', hl', rfl⟩)
      · intro s hs hjob
        rcases World.mem_opened.mp hs with ⟨hs, _⟩ | rfl
        · exact h.rest s hs hjob
        · obtain rfl : job' = job := hjob
          exact hcode held
  | @advance i pick job' held ws needs takes writes next hself sight hsight hfree =>
      have hgranted : ∀ l' ∈ held ++ takes sight,
          (i, l') ∈ w.granted ++ (takes sight).map (Prod.mk i) := by
        intro l' hl'
        rcases List.mem_append.mp hl' with hl' | hl'
        · exact List.mem_append_left _ (h.granted _ hself l' hl')
        · exact List.mem_append_right _ (List.mem_map.mpr ⟨l', hl', rfl⟩)
      refine ⟨?_, ?_, ?_⟩
      · intro s hs l' hl'
        rcases World.mem_advanced.mp hs with ⟨hs, _⟩ | rfl
        · exact List.mem_append_left _ (h.granted s hs l' hl')
        · exact hgranted l' hl'
      · intro s hs hjob
        rcases World.mem_advanced.mp hs with ⟨hs, _⟩ | rfl
        · exact h.rest s hs hjob
        · exact h.rest _ hself hjob sight
      · intro r hr hjob hkind
        rcases List.mem_append.mp hr with hr | hr
        · exact List.mem_append_left _ (h.replied r hr hjob hkind)
        · -- it gives up here, under the locks that it has by now
          rw [Option.mem_toList, Option.map_eq_some_iff] at hr
          obtain ⟨a, ha, rfl⟩ := hr
          have hnext : (next sight).Guarded l kind (held ++ takes sight) :=
            h.rest _ hself hjob sight
          cases hrest : next sight with
          | rollback b =>
              rw [hrest] at ha hnext
              obtain rfl := Option.some.inj ha
              exact hgranted l (hnext hkind)
          | _ => simp [hrest, Code.refusal?] at ha
  | @commit i pick job' held ws a hself =>
      refine ⟨fun s hs => h.granted s (World.mem_committed.mp hs).1,
        fun s hs => h.rest s (World.mem_committed.mp hs).1, ?_⟩
      intro r hr hjob hkind
      rcases List.mem_append.mp hr with hr | hr
      · exact h.replied r hr hjob hkind
      · obtain rfl := List.mem_singleton.mp hr
        exact h.granted _ hself l (h.rest _ hself hjob hkind)
  | rollback _ _ => exact World.guarded_closed h _
  | drop _ => exact World.guarded_closed h _

theorem World.replies_guarded (hcode : ∀ held, (e.code job).Guarded l kind held) {db : σ}
    {w : World σ ω Λ ρ α} {as : List (Label ρ)} (h : Trace e.Step (World.idle db) as w) :
    ∀ r ∈ w.log, r.job = job → kind r.reply → (r.id, l) ∈ w.granted := by
  have hinv : w.Guarded job l kind := h.invariant
    (fun _ _ _ hi hs => World.guarded_step hcode hi (World.stepped hs)) (World.guarded_idle db)
  exact hinv.replied

end

/-! ## Waiting in a circle -/

def World.asked (e : Engine σ ω Λ ρ α) (w : World σ ω Λ ρ α) (s : Session σ ω Λ ρ α) (pick : ℕ) :
    List Λ :=
  match s.rest with
  | .step needs takes _ _ => needs (w.sight e s pick) ++ takes (w.sight e s pick)
  | _ => []

/-- `i` waits for the lock `l`, as `j` holds one that conflicts with it. -/
def World.WaitsOn (e : Engine σ ω Λ ρ α) (w : World σ ω Λ ρ α) (i : ℕ) (l : Λ) (j : ℕ) : Prop :=
  ∃ s ∈ w.sessions, ∃ t ∈ w.sessions, s.id = i ∧ t.id = j ∧ i ≠ j ∧
    (∃ pick, l ∈ w.asked e s pick) ∧ ∃ l' ∈ t.held, e.conflict l l' = true

def World.Waits (e : Engine σ ω Λ ρ α) (w : World σ ω Λ ρ α) (i j : ℕ) : Prop :=
  ∃ l, w.WaitsOn e i l j

/-- Whether `j` holds a lock that conflicts with one for which `i` asks. -/
def World.blocks (e : Engine σ ω Λ ρ α) (w : World σ ω Λ ρ α) (i j : ℕ) : Bool :=
  w.sessions.rows.any fun s => s.id = i && w.sessions.rows.any fun t =>
    t.id = j && i ≠ j && (w.asked e s 0).any fun l => t.held.any (e.conflict l)

theorem World.waits_of_blocks {e : Engine σ ω Λ ρ α} {w : World σ ω Λ ρ α} {i j : ℕ}
    (h : w.blocks e i j = true) : w.Waits e i j := by
  obtain ⟨s, hs, h⟩ := List.any_eq_true.mp h
  obtain ⟨hsid, h⟩ := (Bool.and_eq_true _ _).mp h
  obtain ⟨t, ht, h⟩ := List.any_eq_true.mp h
  obtain ⟨h, hasked⟩ := (Bool.and_eq_true _ _).mp h
  obtain ⟨htid, hne⟩ := (Bool.and_eq_true _ _).mp h
  obtain ⟨l, hl, hheld⟩ := List.any_eq_true.mp hasked
  exact ⟨l, s, hs, t, ht, of_decide_eq_true hsid, of_decide_eq_true htid, of_decide_eq_true hne,
    ⟨0, hl⟩, List.any_eq_true.mp hheld⟩

/-- Nobody waits for itself through others where levels rise from each wait to the next. -/
theorem World.no_cycle {e : Engine σ ω Λ ρ α} {w : World σ ω Λ ρ α} (level : Λ → ℕ)
    (h : ∀ i l j m k, w.WaitsOn e i l j → w.WaitsOn e j m k → level l < level m) (i : ℕ) :
    ¬ Relation.TransGen (w.Waits e) i i := by
  have hchain : ∀ j, Relation.TransGen (w.Waits e) i j → ∃ l m i' j', w.WaitsOn e i l i' ∧
      w.WaitsOn e j' m j ∧ level l ≤ level m := by
    intro j hij
    induction hij with
    | single hstep =>
        obtain ⟨l, hstep⟩ := hstep
        exact ⟨l, l, _, _, hstep, hstep, le_rfl⟩
    | tail _ hstep ih =>
        obtain ⟨l, m, i', j', hfirst, hlast, hle⟩ := ih
        obtain ⟨n, hstep⟩ := hstep
        exact ⟨l, n, i', _, hfirst, hstep, hle.trans (h _ _ _ _ _ hlast hstep).le⟩
  intro hcycle
  obtain ⟨l, m, i', j', hfirst, hlast, hle⟩ := hchain i hcycle
  exact absurd (h _ _ _ _ _ hlast hfirst) (not_lt.mpr hle)

end Library
