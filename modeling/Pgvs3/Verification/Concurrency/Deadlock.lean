import Pgvs3.Verification.Concurrency.Files
import Pgvs3.Library.LockOrder

/-! # Waiting in a circle

Locks are asked for in a global order: bucket, upload, key, object. The one exception is a
part sent again, which deletes the record of the part first and comes to the upload last,
through the foreign key. -/

namespace Pgvs3

open Library

variable {hash : Text → Text → ℤ} {sha256 : Bytes → Bytes} {w : StoreWorld}

/-- Who has locked an upload waits for who has deleted the record of one of its parts. -/
def Entangled (hash : Text → Text → ℤ) (sha256 : Bytes → Bytes) (w : StoreWorld) : Prop :=
  ∃ s ∈ w.sessions, ∃ t ∈ w.sessions, ∃ id no l,
    .row (.upload id) .update ∈ s.held ∧ .row (.part id no) .delete ∈ t.held ∧
      w.WaitsOn (store hash sha256) s.id l t.id

/-! ## Why a lock is held -/

/-- Every lock is held for a reason. -/
def Justified (hash : Text → Text → ℤ) (w : StoreWorld) : Prop :=
  ∀ s ∈ w.sessions, ∀ l ∈ s.held, Taken hash s.job s.held w.db l

theorem justified_step {w' : StoreWorld} {a : Label Job}
    (hsound : w.Sound (store hash sha256) (terms hash sha256)) (h : Justified hash w)
    (hstep : w.Stepped (store hash sha256) a w') : Justified hash w' := by
  have hlaw := terms_lawful hash sha256
  cases hstep with
  | begin hstart =>
      intro s hs l hl
      rcases World.mem_opened.mp hs with ⟨hs, _⟩ | rfl
      · exact (h s hs l hl).mono hl (hlaw.start_rely _ _ _ _ _ hsound.inv hstart)
      · rcases Job.start_cases hstart with ⟨_, _, rfl⟩ | ⟨_, _, _, _, _, rfl⟩
        · simp at hl
        · obtain rfl := List.mem_singleton.mp hl
          trivial
  | advance hself sight hsight =>
      obtain ⟨⟨_, htaken⟩, _⟩ := hsound.statement hlaw hself (s := sight) (by rw [hsight])
      intro s hs l hl
      rcases World.mem_advanced.mp hs with ⟨hs, _⟩ | rfl
      · exact h s hs l hl
      · rcases List.mem_append.mp hl with hl | hl
        · exact (h _ hself l hl).weaken (List.subset_append_left _ _)
        · exact htaken l hl
  | commit hself =>
      intro s hs l hl
      obtain ⟨hs, hne⟩ := World.mem_committed.mp hs
      have hrely := hlaw.guarantee _ _ _ _ _ _ hsound.inv (hsound.commit hlaw hself)
        (hsound.exclusive _ hself s hs hne.symm)
      exact (h s hs l hl).mono hl hrely
  | rollback => exact fun s hs => h s (World.mem_closed.mp hs).1
  | drop => exact fun s hs => h s (World.mem_closed.mp hs).1

theorem StoreReaches.justified {labels : List (Label Job)}
    (h : StoreReaches hash sha256 labels w) : Justified hash w := by
  refine Trace.invariant₂ (I := fun w : StoreWorld => w.Sound (store hash sha256) (terms hash sha256))
    (fun _ _ _ hi hs => World.sound_step (terms_lawful hash sha256) hi (World.stepped hs))
    (fun _ _ _ hi hj hs => justified_step hi hj (World.stepped hs))
    (World.sound_idle admissible_empty) (fun s hs => (Table.not_mem_empty s hs).elim) h

/-! ## Waiting -/

/-- Who waits for a lock keeps the order of acquisition, and who makes it wait holds the lock
for a reason. -/
structure Waiting (hash : Text → Text → ℤ) (db : Db) (l : Lock)
    (s t : Session Db Write Lock Job Outcome) : Prop where
  apart : ∀ l ∈ s.held, ∀ l' ∈ t.held, l.conflict l' = false
  asked : Asked hash s.held db l
  held : ∃ l' ∈ t.held, l.conflict l' = true ∧ Taken hash t.job t.held db l'

theorem StoreReaches.waiting {labels : List (Label Job)} (h : StoreReaches hash sha256 labels w)
    {s t : Session Db Write Lock Job Outcome} {l : Lock} (hs : s ∈ w.sessions)
    (ht : t ∈ w.sessions) (hw : w.WaitsOn (store hash sha256) s.id l t.id) :
    Waiting hash w.db l s t := by
  obtain ⟨s', hs', t', ht', hsid, htid, hne, ⟨pick, hask⟩, l', hl', hconflict⟩ := hw
  obtain rfl := Table.eq_of_key hs hs' hsid.symm
  obtain rfl := Table.eq_of_key ht ht' htid.symm
  refine ⟨h.sound.exclusive s hs t ht hne, ?_, l', hl', hconflict, h.justified t ht l' hl'⟩
  obtain ⟨i, job, rest, held, ws⟩ := s
  cases rest with
  | step needs takes writes next =>
      set self : Session Db Write Lock Job Outcome := ⟨i, job, .step needs takes writes next, held, ws⟩
      obtain ⟨⟨hasked, _⟩, _⟩ := h.sound.statement (terms_lawful hash sha256) hs
        (s := w.sight (store hash sha256) self pick) rfl
      refine (hasked l hask).resolve_left fun hfree => ?_
      have := World.free_iff.mp hfree t ht hne.symm l' hl'
      rw [this] at hconflict
      cases hconflict
  | commit a => simp [World.asked] at hask
  | rollback a => simp [World.asked] at hask

section

variable {db : Db} {l : Lock} {slot : Slot} {mode : LockMode}
  {s t : Session Db Write Lock Job Outcome}

theorem Waiting.row (h : Waiting hash db (.row slot mode) s t) :
    ∃ mode', .row slot mode' ∈ t.held ∧ mode' ≠ .present ∧ mode.conflict mode' = true ∧
      Taken hash t.job t.held db (.row slot mode') := by
  obtain ⟨l', hl', hconflict, htaken⟩ := h.held
  cases l' with
  | file f => cases hconflict
  | key n => cases hconflict
  | row slot' mode' =>
      simp only [Lock.conflict, Bool.and_eq_true, decide_eq_true_eq] at hconflict
      obtain ⟨rfl, hmode⟩ := hconflict
      refine ⟨mode', hl', ?_, hmode, htaken⟩
      rintro rfl
      exact htaken

theorem Waiting.foreign (h : Waiting hash db (.row slot mode) s t) {mode' : LockMode}
    (hmode : mode' = .update ∨ mode' = .delete) : .row slot mode' ∉ s.held := by
  intro hmem
  obtain ⟨mode'', hheld, hpresent, _⟩ := h.row
  have hapart := h.apart _ hmem _ hheld
  rcases hmode with rfl | rfl <;> cases mode'' <;> simp [Lock.conflict, LockMode.conflict] at *

/-- How deep a lock may be that is held by a transaction that waits for `l`. -/
def Lock.admits : Lock → ℕ → Prop
  | .file _, _ => False
  | .key _, d => d ≤ 2
  | .row (.bucket _) .keyShare, d => d ≤ 4
  | .row (.bucket _) _, d => d = 0
  | .row (.object _ _) _, _ => False
  | .row (.chunk _ _) _, d => d = 0 ∨ d = 6
  | .row (.upload _) _, d => d ≤ 1 ∨ d = 6
  | .row (.uploadKey _ _) _, d => d ≤ 1
  | .row (.part _ _) _, d => d = 0

/-- How deep a lock is that is held by the transaction that makes others wait for `l`. -/
def Lock.blocker : Lock → ℕ → Prop
  | .file _, _ => False
  | .key _, d => d = 3
  | .row (.bucket _) .keyShare, d => d = 5
  | .row (.bucket _) _, d => d = 1 ∨ d = 5
  | .row (.object _ _) _, _ => False
  | .row (.chunk _ _) _, d => d = 2
  | .row (.upload _) _, d => d = 2
  | .row (.uploadKey _ _) _, d => d = 2
  | .row (.part _ _) _, d => d = 6

/-- The global order in which transactions wait. -/
def Lock.level : Lock → ℕ
  | .file _ => 0
  | .row (.bucket _) .keyShare => 4
  | .row (.bucket _) _ => 0
  | .row (.part _ _) _ => 0
  | .row (.chunk _ _) _ => 1
  | .row (.upload _) _ => 2
  | .row (.uploadKey _ _) _ => 2
  | .key _ => 3
  | .row (.object _ _) _ => 5

theorem Lock.level_lt {l m : Lock} {d : ℕ} (h : l.blocker d) (h' : m.admits d) :
    l.level < m.level := by
  unfold Lock.blocker at h
  unfold Lock.admits at h'
  unfold Lock.level
  split at h <;> split at h' <;> simp_all

theorem Waiting.object_elim {bucket key : Text}
    (h : Waiting hash db (.row (.object bucket key) mode) s t) : False := by
  obtain ⟨mode', _, hpresent, _, htaken⟩ := h.row
  have hkey : .key (hash bucket key) ∈ t.held := by
    cases mode' <;> first | exact htaken | exact (hpresent rfl).elim
  have hapart := h.apart _ h.asked _ hkey
  simp [Lock.conflict] at hapart

/-- Who waits for the rows of a file holds nothing but the record of a part, and who makes it
wait has locked the upload. -/
theorem Waiting.chunk {fileId no : ℤ} (h : Waiting hash db (.row (.chunk fileId no) mode) s t)
    (hdb : Admissible db)
    (hfree : ∀ id no, .row (.upload id) .update ∈ s.held → .row (.part id no) .delete ∉ t.held) :
    (∀ l ∈ s.held, l.depth = 0 ∨ l.depth = 6) ∧
      ∃ id, .row (.upload id) .update ∈ t.held := by
  obtain ⟨mode', _, hpresent, _, htaken⟩ := h.row
  have hcovered : Covered hash t.held db fileId := by
    cases mode' <;> first | exact htaken | exact (hpresent rfl).elim
  rcases h.asked with (⟨r, hr, hkey, hf⟩ | ⟨p, hp, hupload, hf⟩) | ⟨hcov, hdepth⟩
  · have hapart := h.apart _ hkey _ (hcovered.key_of_object hdb hr hf)
    simp [Lock.conflict] at hapart
  · rcases hcovered.lock_of_part hdb hp hf with hlock | hlock
    · have hapart := h.apart _ hupload _ hlock
      simp [Lock.conflict, LockMode.conflict] at hapart
    · exact (hfree _ _ hupload hlock).elim
  · refine ⟨hdepth, ?_⟩
    rcases hcov with (⟨_, _, hkey, _⟩ | ⟨_, _, hupload, _⟩) | ⟨p, hp, hpart, hf⟩
    · have := hdepth _ hkey
      simp [Lock.depth] at this
    · have := hdepth _ hupload
      simp [Lock.depth] at this
    · rcases hcovered.lock_of_part hdb hp hf with hlock | hlock
      · exact ⟨_, hlock⟩
      · have hapart := h.apart _ hpart _ hlock
        simp [Lock.conflict, LockMode.conflict] at hapart

theorem Waiting.part {id : Text} {no : ℤ} (h : Waiting hash db (.row (.part id no) mode) s t)
    (hfree : ∀ id no, .row (.upload id) .update ∈ s.held → .row (.part id no) .delete ∉ t.held) :
    ∀ l ∈ s.held, l.depth = 0 := by
  rcases h.asked with hdepth | hmine | ⟨_, hupload, hthere⟩
  · exact hdepth
  · exact (h.foreign (.inr rfl) hmine).elim
  · obtain ⟨mode', hheld, _, _, htaken⟩ := h.row
    cases mode' with
    | present => exact htaken.elim
    | keyShare => exact htaken.elim
    | update =>
        rcases htaken.2 with hnone | hdelete
        · exact (hthere hnone).elim
        · exact (hfree _ _ hupload hdelete).elim
    | delete => exact (hfree _ _ hupload hheld).elim

theorem Waiting.admits (h : Waiting hash db l s t) (hdb : Admissible db)
    (hfree : ∀ id no, .row (.upload id) .update ∈ s.held → .row (.part id no) .delete ∉ t.held)
    {x : Lock} (hx : x ∈ s.held) : l.admits x.depth := by
  cases l with
  | file f => exact h.asked
  | key n => exact h.asked x hx
  | row slot mode =>
      cases slot with
      | bucket name =>
          cases mode with
          | keyShare => exact h.asked x hx
          | present | update | delete =>
              rcases h.asked with hdepth | hmine
              · exact hdepth x hx
              · exact (h.foreign (.inl rfl) hmine).elim
      | object bucket key => exact h.object_elim
      | chunk fileId no => exact (h.chunk hdb hfree).1 x hx
      | upload id =>
          rcases h.asked with hdepth | hmine | ⟨_, hdepth⟩
          · exact .inl (hdepth x hx)
          · exact (h.foreign (.inl rfl) hmine).elim
          · have hcases := hdepth x hx
            simp only [Lock.admits]
            omega
      | uploadKey bucket key => exact h.asked x hx
      | part id no => exact h.part hfree x hx

theorem Waiting.blocker (h : Waiting hash db l s t) (hdb : Admissible db)
    (hfree : ∀ id no, .row (.upload id) .update ∈ s.held → .row (.part id no) .delete ∉ t.held) :
    ∃ x ∈ t.held, l.blocker x.depth := by
  cases l with
  | file f => exact h.asked.elim
  | key n =>
      obtain ⟨l', hl', hconflict, _⟩ := h.held
      cases l' with
      | key n' => exact ⟨_, hl', rfl⟩
      | file f => cases hconflict
      | row slot mode => cases hconflict
  | row slot mode =>
      obtain ⟨mode', hheld, hpresent, hmode, _⟩ := h.row
      cases slot with
      | bucket name =>
          refine ⟨_, hheld, ?_⟩
          cases mode <;> cases mode' <;> simp_all [Lock.blocker, Lock.depth, LockMode.conflict]
      | object bucket key => exact h.object_elim.elim
      | chunk fileId no =>
          obtain ⟨_, id, hupload⟩ := h.chunk hdb hfree
          exact ⟨_, hupload, rfl⟩
      | upload id => exact ⟨_, hheld, rfl⟩
      | uploadKey bucket key => exact ⟨_, hheld, rfl⟩
      | part id no => exact ⟨_, hheld, rfl⟩

end

/-! ## Circles -/

/-- While an upload is locked, who has deleted the record of one of its parts does not commit:
two entangled transactions end only when one of them fails. -/
theorem StoreReaches.entangled_part {labels : List (Label Job)}
    (h : StoreReaches hash sha256 labels w) {s t : Session Db Write Lock Job Outcome}
    (hs : s ∈ w.sessions) (ht : t ∈ w.sessions) (hne : s.id ≠ t.id) {id : Text} {no : ℤ}
    (hupload : .row (.upload id) .update ∈ s.held) (hpart : .row (.part id no) .delete ∈ t.held)
    (a : Outcome) : t.rest ≠ .commit a := by
  intro hrest
  obtain ⟨i, job, rest, held, ws⟩ := t
  subst hrest
  have hapart := h.sound.exclusive s hs _ ht hne _ hupload
  obtain ⟨db', hcommit⟩ : ∃ db', Commits hash sha256 held w.db job a db' :=
    ⟨_, h.sound.commit (terms_lawful hash sha256) ht⟩
  have hjob : job.part? = some (id, no) := by
    refine (h.justified _ ht _ hpart).resolve_left fun hmine => ?_
    have := hapart _ hmine
    simp [store, Lock.conflict, LockMode.conflict] at this
  cases hcommit with
  | uploadPart hshare =>
      obtain ⟨rfl, _⟩ := Prod.mk.inj (Option.some.inj hjob)
      have := hapart _ hshare
      simp [store, Lock.conflict, LockMode.conflict] at this
  | _ => simp [Job.part?] at hjob

/-- Levels rise along the waits of a state in which no transactions are entangled. -/
theorem StoreReaches.no_circle {labels : List (Label Job)}
    (h : StoreReaches hash sha256 labels w) (hfree : ¬ Entangled hash sha256 w) (i : ℕ) :
    ¬ Relation.TransGen (w.Waits (store hash sha256)) i i := by
  have hwaiting : ∀ i l j, w.WaitsOn (store hash sha256) i l j →
      ∃ s ∈ w.sessions, ∃ t ∈ w.sessions, s.id = i ∧ t.id = j ∧ Waiting hash w.db l s t ∧
        ∀ id no, .row (.upload id) .update ∈ s.held → .row (.part id no) .delete ∉ t.held := by
    intro i l j hw
    obtain ⟨s, hs, t, ht, rfl, rfl, _⟩ := id hw
    refine ⟨s, hs, t, ht, rfl, rfl, h.waiting hs ht hw, ?_⟩
    exact fun id no hupload hpart => hfree ⟨s, hs, t, ht, id, no, l, hupload, hpart, hw⟩
  refine World.no_cycle Lock.level (fun i l j m k hl hm => ?_) i
  obtain ⟨s, hs, t, ht, rfl, rfl, hst, hfreest⟩ := hwaiting i l j hl
  obtain ⟨t', ht', u, hu, htid, rfl, htu, hfreetu⟩ := hwaiting _ m k hm
  obtain rfl := Table.eq_of_key ht' ht htid
  obtain ⟨x, hx, hblocker⟩ := hst.blocker h.sound.inv hfreest
  exact Lock.level_lt hblocker (htu.admits h.sound.inv hfreetu hx)

/-- In a run without entangled transactions nobody ever waits for itself. -/
theorem no_lock_cycle {labels : List (Label Job)}
    (h : Trace (fun w a w' => (store hash sha256).Step w a w' ∧ ¬ Entangled hash sha256 w')
      (World.idle Db.empty) labels w) (i : ℕ) :
    ¬ Relation.TransGen (w.Waits (store hash sha256)) i i := by
  have hreach : StoreReaches hash sha256 labels w := h.mono fun _ _ _ hs => hs.1
  refine hreach.no_circle ?_ i
  refine Trace.invariant (I := fun w => ¬ Entangled hash sha256 w) (fun _ _ _ _ hs => hs.2) ?_ h
  rintro ⟨s, hs, _⟩
  exact Table.not_mem_empty s hs

/-- No transaction has deleted the record of a part of an upload that another has locked. -/
def Disjoint (w : StoreWorld) : Bool :=
  w.sessions.rows.all fun s => w.sessions.rows.all fun t => s.id = t.id || s.held.all fun l =>
    t.held.all fun l' =>
      match l, l' with
      | .row (.upload id) .update, .row (.part id' _) .delete => id ≠ id'
      | _, _ => true

theorem not_entangled_of_disjoint (h : Disjoint w = true) : ¬ Entangled hash sha256 w := by
  rintro ⟨s, hs, t, ht, id, no, l, hupload, hpart, hwaits⟩
  obtain ⟨_, _, _, _, _, _, hne, _⟩ := hwaits
  have hpair := (Bool.or_eq_true _ _).mp (List.all_eq_true.mp (List.all_eq_true.mp h s hs) t ht)
  have hlocks := hpair.resolve_left (by simpa using hne)
  have hlock := List.all_eq_true.mp (List.all_eq_true.mp hlocks _ hupload) _ hpart
  simp at hlock

/-- A PUT waits for a Complete of the same key. -/
def completeRace : List (Label Job) :=
  [.begin (.createBucket 0 ['b']), .run 0 0, .run 0 0,
    .begin (.createUpload 0 ['u'] ['b'] ['k']), .run 1 0, .run 1 0, .run 1 0, .run 1 0,
    .begin (.uploadPart 0 ['u'] 1 1 [[7]]), .run 2 0, .run 2 0, .run 2 0, .run 2 0, .run 2 0,
    .begin (.completeUpload 0 ['u'] ['b'] ['k'] [(1, hex [7])]), .run 3 0, .run 3 0, .run 3 0,
    .begin (.put 0 ['b'] ['k'] .unconditional 2 [[8]]), .run 4 0, .run 4 0]

theorem no_lock_cycle_completeRace :
    ∃ w, StoreReaches (fun _ _ => 0) id completeRace w ∧ w.Waits (store (fun _ _ => 0) id) 4 3 ∧
      ¬ Relation.TransGen (w.Waits (store (fun _ _ => 0) id)) 4 4 := by
  have hrun : (runAll (fun w a => ((w.step (store (fun _ _ => 0) id) a).filter Disjoint))
      (World.idle Db.empty) completeRace).any (fun w => w.blocks (store (fun _ _ => 0) id) 4 3) =
        true := by
    decide +kernel
  obtain ⟨w, hw, hblocks⟩ := (Option.any_eq_true _ _).mp hrun
  have htrace := trace_iff_runAll.mpr hw
  refine ⟨w, htrace.mono fun _ _ _ hs => (Option.filter_eq_some_iff.mp hs).1,
    World.waits_of_blocks hblocks, no_lock_cycle (htrace.mono fun _ _ _ hs => ?_) 4⟩
  obtain ⟨hstep, hdisjoint⟩ := Option.filter_eq_some_iff.mp hs
  exact ⟨hstep, not_entangled_of_disjoint hdisjoint⟩

/-- A Complete and a part sent again, until neither can go on. -/
def lockCycle : List (Label Job) :=
  [.begin (.createBucket 0 ['b']), .run 0 0, .run 0 0,
    .begin (.createUpload 0 ['u'] ['b'] ['k']), .run 1 0, .run 1 0, .run 1 0, .run 1 0,
    .begin (.uploadPart 0 ['u'] 1 1 [[7]]), .run 2 0, .run 2 0, .run 2 0, .run 2 0, .run 2 0,
    .begin (.uploadPart 0 ['u'] 1 2 [[7]]), .run 3 0, .run 3 0,
    .begin (.completeUpload 0 ['u'] ['b'] ['k'] [(1, hex [7])]), .run 4 0, .run 4 0, .run 4 0,
    .run 4 0, .run 4 0, .run 4 0, .run 4 0, .run 4 0, .run 3 0, .run 3 0, .run 3 0]

/-- The Complete waits for the part record, the part upload for the upload. -/
theorem lockCycle_waits :
    ∃ w, StoreReaches (fun _ _ => 0) id lockCycle w ∧
      ∃ i, Relation.TransGen (w.Waits (store (fun _ _ => 0) id)) i i := by
  have hrun : ((World.idle Db.empty : StoreWorld).runs (store (fun _ _ => 0) id) lockCycle).any
      (fun w => w.blocks (store (fun _ _ => 0) id) 3 4 && w.blocks (store (fun _ _ => 0) id) 4 3) =
        true := by
    decide +kernel
  obtain ⟨w, hw, hblocks⟩ := (Option.any_eq_true _ _).mp hrun
  obtain ⟨hpart, hcomplete⟩ := (Bool.and_eq_true _ _).mp hblocks
  exact ⟨w, World.trace_of_runs hw, 3,
    .tail (.single (World.waits_of_blocks hpart)) (World.waits_of_blocks hcomplete)⟩

end Pgvs3
