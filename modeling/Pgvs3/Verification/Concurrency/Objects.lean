import Pgvs3.Verification.Concurrency.Reaping

/-! # Object transactions under the terms -/

namespace Pgvs3

open Library

variable {hash : Text → Text → ℤ} {sha256 : Bytes → Bytes} {job : Job} {held : List Lock}
  {ws : List Write} {db : Db}

/-! ## Reaping the old version -/

theorem firm_dead {db : Db} (hdb : Admissible db) {bucket key : Text} {old : Option ObjectRow}
    (hkey : .key (hash bucket key) ∈ held) (hold : db.objects.find? (bucket, key) = old) {f : ℤ}
    (hf : f ∈ deadFiles old) : Firm hash held db f := by
  subst hold
  obtain ⟨r, hr, hk, hfr⟩ := hdb.owned.mem_dead_iff.mp hf
  obtain ⟨rfl, rfl⟩ := Prod.mk.inj hk
  exact .inl ⟨r, hr, hkey, hfr⟩

theorem Reaped.mono_dead {db db' : Db} {old : Option ObjectRow} {gone : List Slot}
    (hdb : Admissible db) {bucket key : Text} (hkey : .key (hash bucket key) ∈ held)
    (hold : db.objects.find? (bucket, key) = old) (h : Reaped db (deadFiles old) gone)
    (hrely : Rely hash held db db') : Reaped db' (deadFiles old) gone :=
  h.mono (fun _ hf => (firm_dead hdb hkey hold hf).covered) hrely

theorem goesOn_reap {bucket key : Text} {r : ObjectRow} {next : Sql}
    (hkey : .key (hash bucket key) ∈ held)
    (hold : ∀ db₁, Rely hash held db db₁ → db₁.objects.find? (bucket, key) = some r)
    (hcopy : ∀ db₁ f, Rely hash held db db₁ → f ∈ ownedFiles db₁ → NoCopy ws f)
    (hws : ∀ f no, .remove (.chunk f no) ∉ ws)
    (hnext : ∀ gone db₁, Rely hash held db db₁ → Admissible db₁ →
      Reaped db₁ (deadFiles (some r)) gone →
      GoesOn hash sha256 job next (held ++ deleteLocks gone) (ws ++ gone.map .remove) db₁) :
    GoesOn hash sha256 job (Sql.reap r.fileId r.parts next) held ws db := by
  refine goesOn_deleteFiles _ (fun _ => decide_eq_true_iff) ?_ hws hnext
  intro db₁ hrely hdb₁ f hf
  have hfirm := firm_dead hdb₁ hkey (hold db₁ hrely) hf
  exact ⟨.inl hfirm, hcopy db₁ f hrely hfirm.covered.owned⟩

theorem goesOn_reapOld {bucket key : Text} {old : Option ObjectRow} {next : Sql}
    (hdb : Admissible db) (hkey : .key (hash bucket key) ∈ held)
    (hold : db.objects.find? (bucket, key) = old)
    (hcopy : ∀ db₁ f, Rely hash held db db₁ → f ∈ ownedFiles db₁ → NoCopy ws f)
    (hws : ∀ f no, .remove (.chunk f no) ∉ ws)
    (hnext : ∀ gone db₁, Rely hash held db db₁ → Admissible db₁ → Reaped db₁ (deadFiles old) gone →
      GoesOn hash sha256 job next (held ++ deleteLocks gone) (ws ++ gone.map .remove) db₁) :
    GoesOn hash sha256 job
      (match old with
      | some r => Sql.reap r.fileId r.parts next
      | none => next) held ws db := by
  cases old with
  | none =>
      simpa [deleteLocks] using hnext [] db (Rely.refl _ _ _) hdb ⟨by simp [deadFiles], by simp⟩
  | some r =>
      exact goesOn_reap hkey (fun db₁ h => (h.object _ _ hkey).trans hold) hcopy hws hnext

/-! ## Publishing -/

/-- What `swap_object` leaves behind: the lock of the key, under which the version it found
is still there, allowed by the condition and reaped. -/
structure Swapped (hash : Text → Text → ℤ) (held : List Lock) (db : Db) (bucket key : Text)
    (condition : PutCondition) (old : Option ObjectRow) (gone : List Slot) : Prop where
  locked : .key (hash bucket key) ∈ held
  found : db.objects.find? (bucket, key) = old
  allowed : condition.allows old = true
  reaped : Reaped db (deadFiles old) gone

theorem Swapped.mono {db db' : Db} (hdb : Admissible db) {bucket key : Text}
    {condition : PutCondition} {old : Option ObjectRow} {gone : List Slot}
    (h : Swapped hash held db bucket key condition old gone) (hrely : Rely hash held db db') :
    Swapped hash held db' bucket key condition old gone where
  locked := h.locked
  found := (hrely.object _ _ h.locked).trans h.found
  allowed := h.allowed
  reaped := h.reaped.mono_dead hdb h.locked h.found hrely

theorem Swapped.weaken {held' : List Lock} {bucket key : Text} {condition : PutCondition}
    {old : Option ObjectRow} {gone : List Slot}
    (h : Swapped hash held db bucket key condition old gone) (hsub : held ⊆ held') :
    Swapped hash held' db bucket key condition old gone :=
  { h with locked := hsub h.locked }

theorem objects_after_copies (hws : ∀ w ∈ ws, ∃ rows, w = .copy rows) (db : Db) :
    (db.after ws).objects = db.objects :=
  after_objects fun w hw => by
    obtain ⟨rows, rfl⟩ := hws w hw
    simp [Write.table]

theorem goesOn_upsertObject {row : ObjectRow} {tail : Sql}
    (hkey : .key (hash row.bucket row.key) ∈ held) (hdepth : ∀ l ∈ held, l.depth ≤ 4)
    (hobjects : ∀ db : Db, (db.after ws).objects = db.objects)
    (hbuckets : ∀ db : Db, (db.after (ws ++ [.putObject row])).buckets = db.buckets)
    (hfree : ∀ db₁, Rely hash held db db₁ → Admissible db₁ →
      ∀ r ∈ db₁.objects, r.fileId ≠ row.fileId)
    (hbucket : ∀ db₁, Rely hash held db db₁ → Admissible db₁ →
      db₁.buckets.find? row.bucket ≠ none)
    (htail : ∀ held₁ db₁, held ⊆ held₁ → Rely hash held db db₁ → Admissible db₁ →
      GoesOn hash sha256 job tail held₁ (ws ++ [.putObject row]) db₁) :
    GoesOn hash sha256 job (Sql.upsertObject row tail) held ws db := by
  refine ready_step fun db₁ h₁ hdb₁ s hs => ?_
  have h₁ : Rely hash held db db₁ := h₁
  have hs : s.db = db₁.after ws := hs
  have htaken : Sql.fileTaken s.db row = false := by
    simp only [Sql.fileTaken, decide_eq_false_iff_not]
    rintro ⟨r, hr, hf, _⟩
    rw [hs, hobjects] at hr
    exact hfree db₁ h₁ hdb₁ r hr hf
  refine ⟨⟨?_, ?_⟩, ?_⟩
  · intro l hl
    rw [List.nil_append, List.mem_singleton] at hl
    exact .inr (hl ▸ hkey)
  · intro l hl
    rw [List.mem_singleton.mp hl]
    exact List.mem_append_left _ hkey
  simp only [htaken, Bool.false_eq_true, if_false]
  rw [hs, hobjects]
  set held₁ := held ++ [.row (.object row.bucket row.key) .update] with hheld₁
  have hsub₁ : held ⊆ held₁ := List.subset_append_left _ _
  have hdepth₁ : ∀ l ∈ held₁, l.depth ≤ 4 := by
    intro l hl
    rcases List.mem_append.mp hl with hl | hl
    · exact hdepth l hl
    · simp [List.mem_singleton.mp hl, Lock.depth]
  by_cases hsome : (db₁.objects.find? row.primaryKey).isSome = true
  · rw [if_pos hsome]
    exact htail held₁ db₁ hsub₁ h₁ hdb₁
  · rw [if_neg hsome]
    refine goesOn_lockRow ?_ ?_
    · intro db₂ h₂ hdb₂ hnone
      rw [hbuckets] at hnone
      exact (hbucket db₂ (h₁.trans (h₂.weaken hsub₁)) hdb₂ hnone).elim
    · intro db₂ _ h₂ hdb₂ _
      exact ⟨hdepth₁, trivial, htail _ db₂ (fun l hl => List.mem_append_left _ (hsub₁ hl))
        (h₁.trans (h₂.weaken hsub₁)) hdb₂⟩

section Swap

variable {now : ℤ} {bucket key : Text} {write : ObjectWrite} {next : Sql}

theorem goesOn_swapRead {old : Option ObjectRow} (hkey : .key (hash bucket key) ∈ held)
    (hdepth : ∀ l ∈ held, l.depth ≤ 4) (hold : db.objects.find? (bucket, key) = old)
    (hws : ∀ w ∈ ws, ∃ rows, w = .copy rows)
    (hcopy : ∀ db₁ f, Rely hash held db db₁ → f ∈ ownedFiles db₁ → NoCopy ws f)
    (hbucket : ∀ db₁, Rely hash held db db₁ → Admissible db₁ → db₁.buckets.find? bucket ≠ none)
    (hfree : ∀ db₁, Rely hash held db db₁ → Admissible db₁ →
      ∀ r ∈ db₁.objects, r.fileId ≠ write.fileId)
    (hrefuse : write.condition.allows old = false →
      Refused sha256 job db (.failed .preconditionFailed))
    (hnext : ∀ held₁ gone db₁, held ⊆ held₁ → Rely hash held db db₁ → Admissible db₁ →
      Swapped hash held₁ db₁ bucket key write.condition old gone →
      GoesOn hash sha256 job next held₁
        (ws ++ .putObject (write.row now bucket key) :: gone.map .remove) db₁) :
    GoesOn hash sha256 job
      (if write.condition.allows old then
        Sql.upsertObject (write.row now bucket key) (match old with
          | some r => Sql.reap r.fileId r.parts next
          | none => next)
      else .rollback (.failed .preconditionFailed)) held ws db := by
  set row := write.row now bucket key with hrow
  have hbuckets : ∀ db : Db, (db.after (ws ++ [.putObject row])).buckets = db.buckets := fun db =>
    after_buckets fun w hw => by
      rcases List.mem_append.mp hw with hw | hw
      · obtain ⟨rows, rfl⟩ := hws w hw
        simp [Write.table]
      · simp [List.mem_singleton.mp hw, Write.table]
  cases hallow : write.condition.allows old with
  | false => exact goesOn_rollback (hrefuse hallow)
  | true =>
      refine goesOn_upsertObject hkey hdepth (objects_after_copies hws) hbuckets hfree hbucket
        fun held₁ db₁ hsub h₁ hdb₁ => ?_
      have hold₁ := (h₁.object _ _ hkey).trans hold
      refine goesOn_reapOld hdb₁ (hsub hkey) hold₁ ?_ ?_ ?_
      · intro db₂ f h₂ hf rows hrows
        have hmem : Write.copy rows ∈ ws := by simpa using hrows
        exact hcopy db₂ f (h₁.trans (h₂.weaken hsub)) hf rows hmem
      · intro f no hmem
        have hmem : Write.remove (.chunk f no) ∈ ws := by simpa using hmem
        obtain ⟨rows, hrows⟩ := hws _ hmem
        cases hrows
      · intro gone db₂ h₂ hdb₂ hreaped
        rw [List.append_assoc]
        exact hnext _ gone db₂ (fun l hl => List.mem_append_left _ (hsub hl))
          (h₁.trans (h₂.weaken hsub)) hdb₂
          ⟨List.mem_append_left _ (hsub hkey), (h₂.object _ _ (hsub hkey)).trans hold₁, hallow,
            hreaped⟩

theorem goesOn_swapObject
    (hdepth : ∀ l ∈ held, l.depth ≤ 2) (hws : ∀ w ∈ ws, ∃ rows, w = .copy rows)
    (hcopy : ∀ db₁ f, Rely hash held db db₁ → f ∈ ownedFiles db₁ → NoCopy ws f)
    (hbucket : ∀ db₁, Rely hash held db db₁ → Admissible db₁ → db₁.buckets.find? bucket ≠ none)
    (hfree : ∀ db₁, Rely hash held db db₁ → Admissible db₁ →
      ∀ r ∈ db₁.objects, r.fileId ≠ write.fileId)
    (hrefuse : ∀ db₁, Rely hash held db db₁ → Admissible db₁ →
      write.condition.allows (db₁.objects.find? (bucket, key)) = false →
      Refused sha256 job db₁ (.failed .preconditionFailed))
    (hnext : ∀ held₁ old gone db₁, held ⊆ held₁ → Rely hash held db db₁ → Admissible db₁ →
      Swapped hash held₁ db₁ bucket key write.condition old gone →
      GoesOn hash sha256 job next held₁
        (ws ++ .putObject (write.row now bucket key) :: gone.map .remove) db₁) :
    GoesOn hash sha256 job (Sql.swapObject hash now bucket key write next) held ws db := by
  refine goesOn_lockObjectKey hdepth fun db₁ h₁ hdb₁ => ?_
  set held₁ := held ++ [.key (hash bucket key)] with hheld₁
  have hkey₁ : .key (hash bucket key) ∈ held₁ := by simp [hheld₁]
  have hsub₁ : held ⊆ held₁ := List.subset_append_left _ _
  -- whether it has found a version to lock or not, it goes on in the same way
  have hread : ∀ held₂ old db₂, held₁ ⊆ held₂ → (∀ l ∈ held₂, l.depth ≤ 4) →
      Rely hash held db db₂ → Admissible db₂ → db₂.objects.find? (bucket, key) = old →
      GoesOn hash sha256 job
        (if write.condition.allows old then
          Sql.upsertObject (write.row now bucket key) (match old with
            | some r => Sql.reap r.fileId r.parts next
            | none => next)
        else .rollback (.failed .preconditionFailed)) held₂ ws db₂ := by
    intro held₂ old db₂ hsub₂ hdepth₂ h₂ hdb₂ hold
    have hsub : held ⊆ held₂ := fun l hl => hsub₂ (hsub₁ hl)
    refine goesOn_swapRead (hsub₂ hkey₁) hdepth₂ hold hws ?_ ?_ ?_ ?_ ?_
    · exact fun db₃ f h₃ => hcopy db₃ f (h₂.trans (h₃.weaken hsub))
    · exact fun db₃ h₃ => hbucket db₃ (h₂.trans (h₃.weaken hsub))
    · exact fun db₃ h₃ => hfree db₃ (h₂.trans (h₃.weaken hsub))
    · exact fun hdenied => hrefuse db₂ h₂ hdb₂ (hold ▸ hdenied)
    · exact fun held₃ gone db₃ hsub₃ h₃ => hnext held₃ old gone db₃
        (fun l hl => hsub₃ (hsub hl)) (h₂.trans (h₃.weaken hsub))
  have hdepth₁ : ∀ l ∈ held₁, l.depth ≤ 4 := by
    intro l hl
    rcases List.mem_append.mp hl with hl | hl
    · exact (hdepth l hl).trans (by decide)
    · simp [List.mem_singleton.mp hl, Lock.depth]
  refine goesOn_lockRow ?_ ?_
  · intro db₂ hr₂ hdb₂ hnone
    rw [objects_after_copies hws] at hnone
    exact hread held₁ none db₂ (List.Subset.refl _) hdepth₁ (h₁.trans (hr₂.weaken hsub₁)) hdb₂ hnone
  · intro db₂ r hr₂ hdb₂ hsome
    rw [objects_after_copies hws] at hsome
    refine ⟨hkey₁, List.mem_append_left _ hkey₁, ?_⟩
    refine hread _ (some r) db₂ (List.subset_append_left _ _) ?_ (h₁.trans (hr₂.weaken hsub₁))
      hdb₂ hsome
    intro l hl
    rcases List.mem_append.mp hl with hl | hl
    · exact hdepth₁ l hl
    · simp [List.mem_singleton.mp hl, Lock.depth]

end Swap

/-! ## COPY -/

theorem goesOn_copyIn {stream : Bytes} {rows : List ChunkRow} {next : Sql}
    (hdecode : copyDecode stream = some rows)
    (hfull : ∀ db₁, Rely hash held db db₁ → Admissible db₁ →
      (db₁.after ws).chunks.insertAll? rows = none → Refused sha256 job db₁ (.failed .uniqueViolation))
    (hnext : ∀ db₁ chunks, Rely hash held db db₁ → Admissible db₁ →
      (db₁.after ws).chunks.insertAll? rows = some chunks →
      GoesOn hash sha256 job next held (ws ++ [.copy rows]) db₁) :
    GoesOn hash sha256 job (Sql.copyIn stream next) held ws db := by
  simp only [Sql.copyIn, hdecode]
  refine ready_step fun db₁ hrely hdb₁ s hs => ⟨⟨by simp, by simp⟩, ?_⟩
  have hs : s.db = db₁.after ws := hs
  rw [List.append_nil, hs]
  cases hins : (db₁.after ws).chunks.insertAll? rows with
  | none => exact goesOn_rollback (hfull db₁ hrely hdb₁ hins)
  | some chunks => exact hnext db₁ chunks hrely hdb₁ hins

/-- The stream of an ingest holds the rows of its file. -/
theorem copyStream_spec (sha256 : Bytes → Bytes) {fileId : ℤ} (hlo : -2 ^ 63 ≤ fileId)
    (hhi : fileId < 2 ^ 63) (pushes : List Bytes) :
    ∃ stream, copyStream sha256 fileId pushes =
        (stream, (pushes.flatten.length : ℤ), sha256 pushes.flatten) ∧
      copyDecode stream = some (rowsOf fileId pushes.flatten) := by
  obtain ⟨hdecode, hsum⟩ := copyStream_decodes sha256 hlo hhi pushes
  exact ⟨_, Prod.ext rfl hsum, hdecode⟩

theorem Unused.insertable {f : ℤ} (h : Unused db f) {rows : List ChunkRow}
    (hid : ∀ c ∈ rows, c.fileId = f) (hnodup : (rows.map ChunkRow.primaryKey).Nodup) :
    ∃ chunks, db.chunks.insertAll? rows = some chunks := by
  refine Table.exists_insertAll? hnodup fun c hc d hd hk => ?_
  exact h.rowless d hd ((Prod.mk.inj hk).1.trans (hid c hc))

/-! ## put -/

theorem after_put {rows : List ChunkRow} {chunks : Table ChunkRow.primaryKey} {row : ObjectRow}
    {old : Option ObjectRow} {gone : List Slot}
    (hins : db.chunks.insertAll? rows = some chunks) (hreaped : Reaped db (deadFiles old) gone)
    (hfresh : ∀ c ∈ rows, c.fileId ∉ deadFiles old) :
    db.after ([.copy rows] ++ .putObject row :: gone.map .remove) =
      published (withChunks db chunks) row old := by
  have hcopied : db.write (.copy rows) = withChunks db chunks := by
    simp only [Db.write, hins]
    rfl
  have heq := hreaped.deleteWhere_eq chunks fun c hc =>
    ((Table.mem_insertAll? hins).mp hc).imp_right (hfresh c)
  rw [List.singleton_append, after_cons, after_cons, hcopied]
  refine (without_chunkSlots hreaped.chunkSlots).trans ?_
  simp only [Db.write, withChunks, published, heq]

/-- `ingest_writer` alone, once its rows are known. -/
theorem ingestWriter_eq (sha256 : Bytes → Bytes) {fileId : ℤ} (hlo : -2 ^ 63 ≤ fileId)
    (hhi : fileId < 2 ^ 63) (now : ℤ) {target : WriterTarget} (pushes : List Bytes)
    (htarget : target.bucketExists db = true) :
    ingestWriter sha256 db now fileId target pushes =
      match db.chunks.insertAll? (rowsOf fileId pushes.flatten) with
      | none => .error .uniqueViolation
      | some chunks =>
          match publish (withChunks db chunks) now target fileId pushes.flatten.length
            (sha256 pushes.flatten) with
          | .error e => .error e
          | .ok db => .ok (db, pushes.flatten.length, sha256 pushes.flatten) := by
  obtain ⟨stream, hstream, hdecode⟩ := copyStream_spec sha256 hlo hhi pushes
  simp only [ingestWriter, htarget, if_true, hstream, copyIn, hdecode]
  cases db.chunks.insertAll? (rowsOf fileId pushes.flatten) <;> rfl

theorem goesOn_put {now fileId : ℤ} {bucket key : Text} {condition : PutCondition}
    {pushes : List Bytes} (hunused : Unused db fileId) :
    GoesOn hash sha256 (.put now bucket key condition fileId pushes)
      (Sql.put hash sha256 now bucket key condition fileId pushes) [.file fileId] [] db := by
  obtain ⟨stream, hstream, hdecode⟩ :=
    copyStream_spec sha256 hunused.lower hunused.upper pushes
  refine goesOn_lockRow ?_ ?_
  · intro db₁ _ _ hnone
    have hmissing : (WriterTarget.object bucket key condition).bucketExists db₁ = false := by
      simpa [WriterTarget.bucketExists] using hnone
    exact goesOn_rollback (.inl (by simp [Job.serial, ingestWriter, hmissing]))
  · intro db₁ b h₁ hdb₁ hthere
    refine ⟨by simp [Asked, Lock.depth], trivial, ?_⟩
    have hfile₁ := h₁.file fileId (by simp) hunused
    have hthere₁ : db₁.buckets.find? bucket = some b := hthere
    simp only [hstream]
    set held₁ := [Lock.file fileId] ++ [.row (.bucket bucket) .keyShare] with hheld₁
    have hbucket : ∀ db₂, Rely hash held₁ db₁ db₂ → db₂.buckets.find? bucket = some b :=
      fun db₂ h₂ => (h₂.bucket bucket .keyShare (by decide) (by simp [hheld₁])).trans hthere₁
    have htarget : ∀ db₂, Rely hash held₁ db₁ db₂ →
        (WriterTarget.object bucket key condition).bucketExists db₂ = true := by
      intro db₂ h₂
      simp [WriterTarget.bucketExists, hbucket db₂ h₂]
    have hfile : ∀ db₂, Rely hash held₁ db₁ db₂ → Unused db₂ fileId :=
      fun db₂ h₂ => h₂.file fileId (by simp [hheld₁]) hfile₁
    refine goesOn_copyIn hdecode ?_ ?_
    · intro db₂ h₂ _ hfull
      have hfull : db₂.chunks.insertAll? (rowsOf fileId pushes.flatten) = none := hfull
      left
      simp only [Job.serial,
        ingestWriter_eq sha256 hunused.lower hunused.upper now pushes (htarget db₂ h₂), hfull]
    · intro db₂ chunks h₂ _ hins
      have hnodup := (Table.insertAll?_eq_some_iff.mp hins).1
      have hid : ∀ c ∈ rowsOf fileId pushes.flatten, c.fileId = fileId :=
        fun _ hc => fileId_of_mem_rowsOf hc
      refine goesOn_swapObject ?_ ?_ ?_ ?_ ?_ ?_ ?_
      · intro l hl
        rcases List.mem_append.mp hl with hl | hl <;> simp [List.mem_singleton.mp hl, Lock.depth]
      · intro w hw
        exact ⟨_, List.mem_singleton.mp hw⟩
      · intro db₃ f h₃ hf rows hrows c hc heq
        obtain rfl : rows = rowsOf fileId pushes.flatten := by simpa using hrows
        exact (hfile db₃ (h₂.trans h₃)).unowned (by rwa [← hid c hc, heq])
      · intro db₃ h₃ _
        simp [hbucket db₃ (h₂.trans h₃)]
      · intro db₃ h₃ hdb₃ r hr heq
        have heq : r.fileId = fileId := heq
        exact (hfile db₃ (h₂.trans h₃)).unowned (heq ▸ hdb₃.owned.fileId_owned hr)
      · intro db₃ h₃ _ hdenied
        have h₁₃ := h₂.trans h₃
        obtain ⟨chunks, hins⟩ := (hfile db₃ h₁₃).insertable hid hnodup
        have hdenied' : condition.allows
            ((withChunks db₃ chunks).objects.find? (bucket, key)) = false := hdenied
        left
        simp [Job.serial,
          ingestWriter_eq sha256 hunused.lower hunused.upper now pushes (htarget db₃ h₁₃), hins,
          publish, swapObject, hdenied']
      · intro held₂ old gone db₃ hsub h₃ hdb₃ hswap
        refine goesOn_commit fun db₄ h₄ hdb₄ => ?_
        have h₁₄ := h₂.trans (h₃.trans (h₄.weaken hsub))
        have hswap := hswap.mono hdb₃ h₄
        have hunused₄ := hfile db₄ h₁₄
        obtain ⟨chunks, hins⟩ := hunused₄.insertable hid hnodup
        have hfresh : ∀ c ∈ rowsOf fileId pushes.flatten, c.fileId ∉ deadFiles old := by
          intro c hc hdead
          rw [hid c hc] at hdead
          exact hunused₄.unowned (firm_dead hdb₄ hswap.locked hswap.found hdead).covered.owned
        rw [List.nil_append, after_put hins hswap.reaped hfresh]
        have hfound := hswap.found
        subst hfound
        exact .put hswap.locked (hsub (by simp [hheld₁])) (hsub (by simp [hheld₁])) hunused₄
          (by simp [hbucket db₄ h₁₄]) hswap.allowed hins

/-! ## delete -/

theorem after_delete {bucket key : Text} {r : ObjectRow} {gone : List Slot}
    (hold : db.objects.find? (bucket, key) = some r) (hreaped : Reaped db (deadFiles (some r)) gone) :
    db.after ([.remove (.object bucket key)] ++ gone.map .remove) = deleted db r := by
  have hpk := (Table.find?_eq_some_iff.mp hold).2
  have heq := hreaped.deleteWhere_eq db.chunks fun c hc => .inl hc
  rw [List.singleton_append, after_cons]
  refine (without_chunkSlots hreaped.chunkSlots).trans ?_
  simp only [Db.write, deleted, heq, hpk]

theorem goesOn_delete {bucket key : Text} :
    GoesOn hash sha256 (.delete bucket key) (Sql.delete hash bucket key) [] [] db := by
  refine goesOn_lockObjectKey (by simp) fun db₁ _ _ => ?_
  have hkey : Lock.key (hash bucket key) ∈ [] ++ [Lock.key (hash bucket key)] := by simp
  refine goesOn_deleteRow ?_ ?_
  · intro db₂ _ _ hnone
    refine goesOn_commit fun db₃ h₃ _ => ?_
    exact .deleteNone ((h₃.object _ _ hkey).trans hnone)
  · intro db₂ r _ hdb₂ hsome
    refine ⟨hkey, List.mem_append_left _ hkey, ?_⟩
    have hkey' := List.mem_append_left [Lock.row (.object bucket key) .delete] hkey
    refine goesOn_reap hkey' (fun db₃ h₃ => (h₃.object _ _ hkey').trans hsome)
      (by simp [NoCopy]) (by simp) fun gone db₃ h₃ hdb₃ hreaped => ?_
    have hold₃ : db₃.objects.find? (bucket, key) = some r :=
      (h₃.object _ _ hkey').trans hsome
    refine goesOn_commit fun db₄ h₄ _ => ?_
    have hkey₄ := List.mem_append_left (deleteLocks gone) hkey'
    have hold₄ := (h₄.object _ _ hkey₄).trans hold₃
    have heq := after_delete hold₄ (hreaped.mono_dead hdb₃ hkey' hold₃ (h₄.weaken (List.subset_append_left _ _)))
    change Commits _ _ _ _ _ _ (db₄.after ([.remove (.object bucket key)] ++ gone.map .remove))
    rw [heq]
    exact .delete hkey₄ hold₄

end Pgvs3
