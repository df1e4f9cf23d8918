import Pgvs3.Verification.Concurrency.Interleaving

/-! # The versions of a key and their rows

A version enters the store by a commit to its key, with files that nobody has owned before
or with the parts of an upload. A version that has gone never comes back, and its files have
no rows. -/

namespace Pgvs3

open Library

variable {hash : Text → Text → ℤ} {sha256 : Bytes → Bytes} {held : List Lock} {db db' : Db}
  {job : Job} {a : Outcome}

def Job.target? : Job → Option (Text × Text)
  | .put _ bucket key _ _ _ => some (bucket, key)
  | .delete bucket key => some (bucket, key)
  | .completeUpload _ _ bucket key _ => some (bucket, key)
  | _ => none

/-! ## Where versions come from -/

/-- The rows that a commit adds are at its own key, and their files were its own or those of
recorded parts. -/
structure Sources (job : Job) (db db' : Db) : Prop where
  fileSeq_eq : db'.fileSeq = db.fileSeq
  object : ∀ o ∈ db'.objects, o ∈ db.objects ∨ (job.target? = some o.primaryKey ∧
    ∀ f ∈ o.files, job.fileId? = some f ∨ ∃ p ∈ db.uploadParts, p.fileId = f)
  part : ∀ p ∈ db'.uploadParts, p ∈ db.uploadParts ∨
    (job.target? = none ∧ job.fileId? = some p.fileId)
  unused : ∀ f, job.fileId? = some f → f ∉ ownedFiles db

theorem Sources.of_sub (hseq : db'.fileSeq = db.fileSeq) (hobjects : ∀ o ∈ db'.objects, o ∈ db.objects)
    (hparts : ∀ p ∈ db'.uploadParts, p ∈ db.uploadParts) (hjob : job.fileId? = none) :
    Sources job db db' where
  fileSeq_eq := hseq
  object := fun o ho => .inl (hobjects o ho)
  part := fun p hp => .inl (hparts p hp)
  unused := fun f hf => by simp [hjob] at hf

theorem Commits.sources (hc : Commits hash sha256 held db job a db') : Sources job db db' := by
  cases hc with
  | createBucket => exact .of_sub rfl (fun _ => id) (fun _ => id) rfl
  | deleteBucket => exact .of_sub rfl (fun _ => id) (fun _ => id) rfl
  | put _ _ _ hunused =>
      refine ⟨rfl, ?_, fun p hp => .inl hp, ?_⟩
      · intro o ho
        rcases Table.mem_upsert.mp ho with ⟨ho, _⟩ | rfl
        · exact .inl ho
        · refine .inr ⟨rfl, fun f hf => .inl ?_⟩
          exact congrArg some (List.mem_singleton.mp hf).symm
      · rintro f hf
        obtain rfl := Option.some.inj hf
        exact hunused.unowned
  | delete => exact .of_sub rfl (fun _ ho => (Table.mem_deleteWhere.mp ho).1) (fun _ => id) rfl
  | deleteNone => exact .of_sub rfl (fun _ => id) (fun _ => id) rfl
  | createUpload => exact .of_sub rfl (fun _ => id) (fun _ => id) rfl
  | reattach => exact .of_sub rfl (fun _ => id) (fun _ => id) rfl
  | uploadPart _ _ _ hunused =>
      refine ⟨rfl, fun o ho => .inl ho, ?_, ?_⟩
      · intro p hp
        rcases Table.mem_upsert.mp hp with ⟨hp, _⟩ | rfl
        · exact .inl hp
        · exact .inr ⟨rfl, rfl⟩
      · rintro f hf
        obtain rfl := Option.some.inj hf
        exact hunused.unowned
  | completeUpload =>
      refine ⟨rfl, ?_, fun p hp => .inl (Table.mem_deleteWhere.mp hp).1, by simp [Job.fileId?]⟩
      intro o ho
      rcases Table.mem_upsert.mp ho with ⟨ho, _⟩ | rfl
      · exact .inl ho
      · refine .inr ⟨rfl, fun f hf => .inr ?_⟩
        obtain ⟨p, hp, hpf⟩ := List.mem_map.mp hf
        exact ⟨p, (mem_recordedParts.mp hp).1, hpf⟩
  | abortUpload =>
      exact .of_sub rfl (fun _ => id) (fun _ hp => (Table.mem_deleteWhere.mp hp).1) rfl
  | expireUploads hexpires =>
      exact .of_sub hexpires.fileSeq_eq (fun _ ho => hexpires.objects_eq ▸ ho)
        (fun _ hp => hexpires.parts_sublist.subset hp) rfl

theorem Sources.owned (h : Sources job db db') {f : ℤ} (hf : f ∈ ownedFiles db') :
    f ∈ ownedFiles db ∨ job.fileId? = some f := by
  rcases mem_ownedFiles.mp hf with ⟨o, ho, hof⟩ | ⟨p, hp, rfl⟩
  · rcases h.object o ho with ho | ⟨-, hfiles⟩
    · exact .inl (mem_ownedFiles.mpr (.inl ⟨o, ho, hof⟩))
    · rcases hfiles f hof with hjob | ⟨p, hp, hpf⟩
      · exact .inr hjob
      · exact .inl (mem_ownedFiles.mpr (.inr ⟨p, hp, hpf⟩))
  · rcases h.part p hp with hp | ⟨-, hjob⟩
    · exact .inl (mem_ownedFiles.mpr (.inr ⟨p, hp, rfl⟩))
    · exact .inr hjob

/-- A version that a commit replaces takes its files with it. -/
theorem Sources.replaced (h : Sources job db db') (hdb : Owned db) {o : ObjectRow}
    (ho : o ∈ db.objects) {f : ℤ} (hf : f ∈ o.files) : o ∈ db'.objects ∨ f ∉ ownedFiles db' := by
  have howned : f ∈ ownedFiles db := mem_ownedFiles.mpr (.inl ⟨o, ho, hf⟩)
  by_contra hneither
  obtain ⟨hgone, hf'⟩ := not_or.mp hneither
  rcases mem_ownedFiles.mp (not_not.mp hf') with ⟨q, hq, hqf⟩ | ⟨p, hp, rfl⟩
  · rcases h.object q hq with hold | ⟨-, hfiles⟩
    · exact hgone (hdb.object_unique ho hold hf hqf ▸ hq)
    · rcases hfiles f hqf with hjob | ⟨p, hp, rfl⟩
      · exact h.unused f hjob howned
      · exact hdb.object_part_disjoint ho hp hf
  · rcases h.part p hp with hp | ⟨-, hjob⟩
    · exact hdb.object_part_disjoint ho hp hf
    · exact h.unused _ hjob howned

/-! ## Open ingests and past versions -/

/-- The files of open ingests are drawn, unowned and their own; a version that a reply has met
stands unchanged or has left nothing, and no open ingest has one of its files. -/
structure Filed (w : StoreWorld) : Prop where
  drawn : ∀ s ∈ w.sessions, ∀ f, s.job.fileId? = some f → f ≤ w.db.fileSeq
  distinct : ∀ s ∈ w.sessions, ∀ t ∈ w.sessions, ∀ f, s.job.fileId? = some f →
    t.job.fileId? = some f → s.id = t.id
  fresh : ∀ s ∈ w.sessions, ∀ f, s.job.fileId? = some f → f ∉ ownedFiles w.db
  past : ∀ r ∈ w.log, ∀ o ∈ r.before.objects, ∀ f ∈ o.files, f ≤ w.db.fileSeq ∧
    (∀ s ∈ w.sessions, s.job.fileId? ≠ some f) ∧ (o ∈ w.db.objects ∨ f ∉ ownedFiles w.db)

theorem filed_idle (db : Db) : Filed (World.idle db) where
  drawn := fun s hs => (Table.not_mem_empty s hs).elim
  distinct := fun s hs => (Table.not_mem_empty s hs).elim
  fresh := fun s hs => (Table.not_mem_empty s hs).elim
  past := by simp [World.idle]

theorem Filed.present {w : StoreWorld} (h : Filed w) (hdb : Owned w.db) {o : ObjectRow}
    (ho : o ∈ w.db.objects) {f : ℤ} (hf : f ∈ o.files) : f ≤ w.db.fileSeq ∧
    (∀ s ∈ w.sessions, s.job.fileId? ≠ some f) ∧ (o ∈ w.db.objects ∨ f ∉ ownedFiles w.db) := by
  have howned : f ∈ ownedFiles w.db := mem_ownedFiles.mpr (.inl ⟨o, ho, hf⟩)
  exact ⟨hdb.drawn f howned, fun s hs hjob => h.fresh s hs f hjob howned, .inl ho⟩

theorem Filed.of_sub {w w' : StoreWorld} (h : Filed w) (howned : Owned w.db) (hdb : w'.db = w.db)
    (hlog : ∀ r ∈ w'.log, r ∈ w.log ∨ r.before = w.db)
    (hsub : ∀ s ∈ w'.sessions, ∀ f, s.job.fileId? = some f →
      ∃ t ∈ w.sessions, t.id = s.id ∧ t.job = s.job) : Filed w' := by
  refine ⟨fun s hs f hf => ?_, fun s hs t ht f hsf htf => ?_, fun s hs f hf => ?_,
    fun r hr o ho f hf => ?_⟩
  · obtain ⟨t, ht, -, hjob⟩ := hsub s hs f hf
    exact hdb ▸ h.drawn t ht f (hjob ▸ hf)
  · obtain ⟨s', hs', hsi, hsj⟩ := hsub s hs f hsf
    obtain ⟨t', ht', hti, htj⟩ := hsub t ht f htf
    exact hsi ▸ hti ▸ h.distinct s' hs' t' ht' f (hsj ▸ hsf) (htj ▸ htf)
  · obtain ⟨t, ht, -, hjob⟩ := hsub s hs f hf
    exact hdb ▸ h.fresh t ht f (hjob ▸ hf)
  · have hpast : f ≤ w.db.fileSeq ∧ (∀ s ∈ w.sessions, s.job.fileId? ≠ some f) ∧
        (o ∈ w.db.objects ∨ f ∉ ownedFiles w.db) := by
      rcases hlog r hr with hr | hnow
      · exact h.past r hr o ho f hf
      · exact h.present howned (hnow ▸ ho) hf
    obtain ⟨hle, hopen, hgone⟩ := hpast
    refine ⟨hdb ▸ hle, fun s hs hjob => ?_, hdb ▸ hgone⟩
    obtain ⟨t, ht, -, htj⟩ := hsub s hs f hjob
    exact hopen t ht (htj ▸ hjob)

theorem Filed.opened {w : StoreWorld} (h : Filed w) (howned : Owned w.db)
    {new : Session Db Write Lock Job Outcome} (hid : new.id = w.next)
    (hnew : new.job.fileId? = some (w.db.fileSeq + 1)) : Filed (w.opened new (Pgvs3.drawn w.db)) := by
  have hseq : (Pgvs3.drawn w.db).fileSeq = w.db.fileSeq + 1 := rfl
  have hold : ∀ s ∈ (w.opened new (Pgvs3.drawn w.db)).sessions, ∀ f, s.job.fileId? = some f →
      (s ∈ w.sessions ∧ f ≤ w.db.fileSeq) ∨ (s.id = w.next ∧ f = w.db.fileSeq + 1) := by
    intro s hs f hf
    rcases World.mem_opened.mp hs with ⟨hs, _⟩ | rfl
    · exact .inl ⟨hs, h.drawn s hs f hf⟩
    · exact .inr ⟨hid, Option.some.inj (hf.symm.trans hnew)⟩
  refine ⟨fun s hs f hf => ?_, fun s hs t ht f hsf htf => ?_, fun s hs f hf => ?_,
    fun r hr o ho f hf => ?_⟩
  · change f ≤ w.db.fileSeq + 1
    rcases hold s hs f hf with ⟨-, hle⟩ | ⟨-, rfl⟩
    · omega
    · exact le_rfl
  · rcases hold s hs f hsf with ⟨hs', hle⟩ | ⟨hsi, hfs⟩ <;>
      rcases hold t ht f htf with ⟨ht', hle'⟩ | ⟨hti, hft⟩
    · exact h.distinct s hs' t ht' f hsf htf
    · omega
    · omega
    · exact hsi.trans hti.symm
  · rcases hold s hs f hf with ⟨hs', -⟩ | ⟨-, rfl⟩
    · exact h.fresh s hs' f hf
    · exact howned.next_unowned
  · obtain ⟨hle, hopen, hgone⟩ := h.past r hr o ho f hf
    refine ⟨hle.trans (by simp [World.opened, hseq]), fun s hs hjob => ?_, hgone⟩
    rcases hold s hs f hjob with ⟨hs', -⟩ | ⟨-, hf'⟩
    · exact hopen s hs' hjob
    · omega

theorem Filed.committed {w : StoreWorld} (h : Filed w) (howned : Owned w.db)
    {self : Session Db Write Lock Job Outcome} (hself : self ∈ w.sessions)
    (hsources : Sources self.job w.db (w.committed (store hash sha256) self a).db) :
    Filed (w.committed (store hash sha256) self a) := by
  have hother : ∀ s ∈ (w.committed (store hash sha256) self a).sessions,
      s ∈ w.sessions ∧ s.id ≠ self.id := fun s hs => World.mem_committed.mp hs
  refine ⟨fun s hs f hf => ?_, fun s hs t ht => h.distinct s (hother s hs).1 t (hother t ht).1,
    fun s hs f hf howned' => ?_, fun r hr o ho f hf => ?_⟩
  · exact (h.drawn s (hother s hs).1 f hf).trans hsources.fileSeq_eq.ge
  · rcases hsources.owned howned' with hold | hjob
    · exact h.fresh s (hother s hs).1 f hf hold
    · exact (hother s hs).2 (h.distinct s (hother s hs).1 _ hself f hf hjob)
  · have hpast : f ≤ w.db.fileSeq ∧ (∀ s ∈ w.sessions, s.job.fileId? ≠ some f) ∧
        (o ∈ w.db.objects ∨ f ∉ ownedFiles w.db) := by
      rcases List.mem_append.mp hr with hr | hr
      · exact h.past r hr o ho f hf
      · obtain rfl := List.mem_singleton.mp hr
        exact h.present howned ho hf
    obtain ⟨hle, hopen, hthere | hgone⟩ := hpast
    · exact ⟨hle.trans hsources.fileSeq_eq.ge, fun s hs => hopen s (hother s hs).1,
        hsources.replaced howned hthere hf⟩
    · refine ⟨hle.trans hsources.fileSeq_eq.ge, fun s hs => hopen s (hother s hs).1,
        .inr fun howned' => ?_⟩
      rcases hsources.owned howned' with hold | hjob
      · exact hgone hold
      · exact hopen _ hself hjob

theorem filed_step {w w' : StoreWorld} {l : Label Job}
    (hsound : w.Sound (store hash sha256) (terms hash sha256)) (h : Filed w)
    (hstep : w.Stepped (store hash sha256) l w') : Filed w' := by
  have howned := hsound.inv.owned
  cases hstep with
  | begin hstart =>
      rcases Job.start_cases hstart with ⟨hnone, rfl, -⟩ | ⟨f₀, hf₀, -, rfl, rfl, -⟩
      · -- a transaction without a file of its own
        refine h.of_sub howned rfl (fun r hr => .inl hr) fun s hs f hf => ?_
        rcases World.mem_opened.mp hs with ⟨hs, _⟩ | rfl
        · exact ⟨s, hs, rfl, rfl⟩
        · simp [hnone] at hf
      · exact h.opened howned rfl hf₀
  | advance hself =>
      refine h.of_sub howned rfl (fun r hr => ?_) fun s hs _ _ => ?_
      · refine (List.mem_append.mp hr).imp_right fun hr => ?_
        obtain ⟨_, _, rfl⟩ := Option.map_eq_some_iff.mp (Option.mem_toList.mp hr)
        rfl
      · rcases World.mem_advanced.mp hs with ⟨hs, _⟩ | rfl
        · exact ⟨s, hs, rfl, rfl⟩
        · exact ⟨_, hself, rfl, rfl⟩
  | commit hself =>
      exact h.committed howned hself (Commits.sources (hsound.commit (terms_lawful hash sha256) hself))
  | rollback | drop =>
      exact h.of_sub howned rfl (fun r hr => .inl hr)
        fun s hs _ _ => ⟨s, (World.mem_closed.mp hs).1, rfl, rfl⟩

theorem StoreReaches.filed {labels : List (Label Job)} {w : StoreWorld}
    (h : StoreReaches hash sha256 labels w) : Filed w :=
  Trace.invariant₂
    (I := fun w : StoreWorld => w.Sound (store hash sha256) (terms hash sha256)) (J := Filed)
    (fun _ _ _ hi hs => World.sound_step (terms_lawful hash sha256) hi (World.stepped hs))
    (fun _ _ _ hi hj hs => filed_step hi hj (World.stepped hs))
    (World.sound_idle admissible_empty) (filed_idle _) h

/-- A version that has gone leaves no chunk row. -/
theorem StoreReaches.gone_rowless {labels : List (Label Job)} {w : StoreWorld}
    (h : StoreReaches hash sha256 labels w) {r : Reply Db Job Outcome} (hr : r ∈ w.log)
    {o : ObjectRow} (ho : o ∈ r.before.objects) (hgone : o ∉ w.db.objects) :
    ∀ c ∈ w.db.chunks, c.fileId ∉ o.files := by
  intro c hc hf
  obtain ⟨-, -, hthere | hunowned⟩ := h.filed.past r hr o ho c.fileId hf
  · exact hgone hthere
  · exact hunowned (h.sound.inv.owned.covered c hc)

/-! ## The file of a PUT -/

/-- The file of a PUT is owned at the key of the PUT only. -/
structure Claimed (put : Job) (f : ℤ) (w : StoreWorld) : Prop where
  drawn : f ≤ w.db.fileSeq
  sessions : ∀ s ∈ w.sessions, s.job.fileId? = some f → s.job = put
  objects : ∀ o ∈ w.db.objects, f ∈ o.files → put.target? = some o.primaryKey
  parts : ∀ p ∈ w.db.uploadParts, p.fileId ≠ f

theorem claimed_begin {w w' : StoreWorld} {put : Job} {f : ℤ}
    (hsound : w.Sound (store hash sha256) (terms hash sha256)) (hfiled : Filed w)
    (hput : put.fileId? = some f)
    (hstep : w.Stepped (store hash sha256) (.begin put) w') : Claimed put f w' := by
  cases hstep with
  | begin hstart _ =>
      rcases Job.start_cases hstart with ⟨hnone, -, -⟩ | ⟨f₀, hf₀, -, rfl, rfl, -⟩
      · simp [hput] at hnone
      · obtain rfl : f = w.db.fileSeq + 1 := Option.some.inj (hput.symm.trans hf₀)
        have hnew := hsound.inv.owned.next_unowned
        refine ⟨le_rfl, ?_, ?_, ?_⟩
        · intro s hs hf
          rcases World.mem_opened.mp hs with ⟨hs, _⟩ | rfl
          · have := hfiled.drawn s hs _ hf
            omega
          · rfl
        · exact fun o ho hf => (hnew (mem_ownedFiles.mpr (.inl ⟨o, ho, hf⟩))).elim
        · exact fun p hp hf => hnew (mem_ownedFiles.mpr (.inr ⟨p, hp, hf⟩))

theorem claimed_step {w w' : StoreWorld} {l : Label Job} {put : Job} {f : ℤ}
    (hsound : w.Sound (store hash sha256) (terms hash sha256)) (h : Claimed put f w)
    (htarget : put.target? ≠ none)
    (hstep : w.Stepped (store hash sha256) l w') : Claimed put f w' := by
  cases hstep with
  | @begin job db held hstart _ =>
      rcases Job.start_cases hstart with ⟨hnone, rfl, -⟩ | ⟨f₀, hf₀, -, rfl, rfl, -⟩
      · refine ⟨h.drawn, ?_, h.objects, h.parts⟩
        intro s hs hf
        rcases World.mem_opened.mp hs with ⟨hs, _⟩ | rfl
        · exact h.sessions s hs hf
        · simp [hnone] at hf
      · refine ⟨h.drawn.trans (by simp [World.opened, Pgvs3.drawn]), ?_, h.objects, h.parts⟩
        intro s hs hf
        rcases World.mem_opened.mp hs with ⟨hs, _⟩ | rfl
        · exact h.sessions s hs hf
        · have hnew := Option.some.inj (hf.symm.trans hf₀)
          have := h.drawn
          omega
  | @advance i pick job held ws needs takes writes next hself sight _ _ =>
      refine ⟨h.drawn, ?_, h.objects, h.parts⟩
      intro s hs hf
      rcases World.mem_advanced.mp hs with ⟨hs, _⟩ | rfl
      · exact h.sessions s hs hf
      · exact h.sessions ⟨i, job, .step needs takes writes next, held, ws⟩ hself hf
  | @commit i pick job held ws a hself =>
      have hsources := Commits.sources (hsound.commit (terms_lawful hash sha256) hself)
      refine ⟨h.drawn.trans hsources.fileSeq_eq.ge,
        fun s hs => h.sessions s (World.mem_committed.mp hs).1, ?_, ?_⟩
      · intro o ho hf
        rcases hsources.object o ho with ho | ⟨hkey, hfiles⟩
        · exact h.objects o ho hf
        · rcases hfiles f hf with hjob | ⟨p, hp, hpf⟩
          · exact h.sessions _ hself hjob ▸ hkey
          · exact (h.parts p hp hpf).elim
      · rintro p hp rfl
        rcases hsources.part p hp with hp | ⟨hnone, hjob⟩
        · exact h.parts p hp rfl
        · obtain rfl : job = put := h.sessions _ hself hjob
          exact htarget hnone
  | rollback _ _ =>
      exact ⟨h.drawn, fun s hs => h.sessions s (World.mem_closed.mp hs).1, h.objects, h.parts⟩
  | drop _ =>
      exact ⟨h.drawn, fun s hs => h.sessions s (World.mem_closed.mp hs).1, h.objects, h.parts⟩

/-- A PUT, however it ended, has chunk rows only under the version that its key has now. -/
theorem StoreReaches.put_rows {labels : List (Label Job)} {w : StoreWorld}
    (h : StoreReaches hash sha256 labels w) {now f : ℤ} {bucket key : Text}
    {condition : PutCondition} {pushes : List Bytes}
    (hbegin : .begin (.put now bucket key condition f pushes) ∈ labels) {c : ChunkRow}
    (hc : c ∈ w.db.chunks) (hf : c.fileId = f) :
    ∃ o, w.db.objects.find? (bucket, key) = some o ∧ f ∈ o.files := by
  obtain ⟨before, after, rfl⟩ := List.append_of_mem hbegin
  obtain ⟨w₁, hbefore, hrest⟩ := Trace.split h
  have hsound : ∀ {ls : List (Label Job)} {w : StoreWorld}, StoreReaches hash sha256 ls w →
    w.Sound (store hash sha256) (terms hash sha256) := fun h => h.sound
  cases hrest with
  | @cons _ w₂ _ _ _ hstep hafter =>
      have hclaimed := claimed_begin (hsound hbefore) (StoreReaches.filed hbefore) rfl
        (World.stepped hstep)
      have hnow := Trace.invariant₂
        (I := fun w : StoreWorld => w.Sound (store hash sha256) (terms hash sha256))
        (J := Claimed (.put now bucket key condition f pushes) f)
        (fun _ _ _ hi hs => World.sound_step (terms_lawful hash sha256) hi (World.stepped hs))
        (fun _ _ _ hi hj hs => claimed_step hi hj (by simp [Job.target?]) (World.stepped hs))
        (World.sound_step (terms_lawful hash sha256) (hsound hbefore) (World.stepped hstep))
        hclaimed hafter
      have howned : f ∈ ownedFiles w.db := hf ▸ h.sound.inv.owned.covered c hc
      rcases mem_ownedFiles.mp howned with ⟨o, ho, hof⟩ | ⟨p, hp, hpf⟩
      · have hkey : some (bucket, key) = some o.primaryKey := hnow.objects o ho hof
        exact ⟨o, Table.find?_eq_some_iff.mpr ⟨ho, (Option.some.inj hkey).symm⟩, hof⟩
      · exact (hnow.parts p hp hpf).elim

end Pgvs3
