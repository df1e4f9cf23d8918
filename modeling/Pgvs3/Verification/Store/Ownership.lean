import Pgvs3.Verification.Store.Changes

/-! # Every stored file has one owner

A file is owned by the object row or the part record that names it. The invariant
says that no two owners name one file, and that chunk rows belong to owned files. -/

namespace Pgvs3

open Library

/-- The files that object rows and part records name, once for each time they do. -/
def ownedFiles (db : Db) : List ℤ :=
  db.objects.rows.flatMap ObjectRow.files ++ db.uploadParts.rows.map (·.fileId)

theorem mem_ownedFiles {db : Db} {f : ℤ} :
    f ∈ ownedFiles db ↔ (∃ r ∈ db.objects, f ∈ r.files) ∨ ∃ p ∈ db.uploadParts, p.fileId = f := by
  simp [ownedFiles, Table.mem_def]

structure Owned (db : Db) : Prop where
  seq_nonneg : 0 ≤ db.fileSeq
  nodup : (ownedFiles db).Nodup
  drawn : ∀ f ∈ ownedFiles db, f ≤ db.fileSeq
  covered : ∀ c ∈ db.chunks, c.fileId ∈ ownedFiles db
  head : ∀ r ∈ db.objects, r.files.head? = some r.fileId

theorem Owned.fileId_mem_files {db : Db} (h : Owned db) {r : ObjectRow} (hr : r ∈ db.objects) :
    r.fileId ∈ r.files :=
  List.mem_of_mem_head? (h.head r hr)

theorem Owned.mem_deadFiles {db : Db} (h : Owned db) {r : ObjectRow} (hr : r ∈ db.objects)
    {f : ℤ} : f ∈ deadFiles (some r) ↔ f ∈ r.files := by
  have hhead := h.fileId_mem_files hr
  unfold ObjectRow.files at hhead ⊢
  cases hp : r.parts with
  | none => simp [deadFiles, hp]
  | some ids =>
      rw [hp] at hhead
      simp only [deadFiles, hp, Option.getD_some, List.mem_append, List.mem_singleton]
      constructor
      · rintro (hf | rfl)
        · exact hf
        · exact hhead
      · exact .inl

theorem owned_empty : Owned Db.empty where
  seq_nonneg := le_rfl
  nodup := List.nodup_nil
  drawn := by simp [ownedFiles, Db.empty, Table.empty]
  covered := by simp [Db.empty]
  head := by simp [Db.empty]

/-! ## Changes that only drop owners -/

/-- Files whose owner is dropped lose their rows. -/
theorem Owned.shrink {db : Db} (h : Owned db) (db' : Db) (hseq : db.fileSeq ≤ db'.fileSeq)
    (hsub : (ownedFiles db').Subperm (ownedFiles db))
    (hobjects : ∀ r ∈ db'.objects, r.files.head? = some r.fileId)
    (hchunks : ∀ c ∈ db'.chunks, c ∈ db.chunks)
    (hlost : ∀ c ∈ db'.chunks, c.fileId ∈ ownedFiles db → c.fileId ∈ ownedFiles db') :
    Owned db' where
  seq_nonneg := h.seq_nonneg.trans hseq
  nodup := by
    obtain ⟨l, hperm, hl⟩ := hsub
    exact hperm.nodup_iff.mp (h.nodup.sublist hl)
  drawn := fun f hf => (h.drawn f (hsub.subset hf)).trans hseq
  covered := fun c hc => hlost c hc (h.covered c (hchunks c hc))
  head := hobjects

def otherObjects (db : Db) (k : Text × Text) : List ObjectRow :=
  db.objects.rows.filter (fun r => r.primaryKey ≠ k)

theorem mem_otherObjects {db : Db} {k : Text × Text} {r : ObjectRow} :
    r ∈ otherObjects db k ↔ r ∈ db.objects ∧ r.primaryKey ≠ k := by
  simp [otherObjects, Table.mem_def]

theorem otherObjects_files_sublist (db : Db) (k : Text × Text) :
    ((otherObjects db k).flatMap ObjectRow.files).Sublist
      (db.objects.rows.flatMap ObjectRow.files) :=
  List.filter_sublist.flatMap _

theorem Owned.owned_elsewhere {db : Db} (h : Owned db) {k : Text × Text} {f : ℤ}
    (hf : f ∈ ownedFiles db) (hdead : f ∉ deadFiles (db.objects.find? k)) :
    f ∈ (otherObjects db k).flatMap ObjectRow.files ∨ ∃ p ∈ db.uploadParts, p.fileId = f := by
  rcases mem_ownedFiles.mp hf with ⟨r, hr, hfr⟩ | hp
  · left
    refine List.mem_flatMap.mpr ⟨r, mem_otherObjects.mpr ⟨hr, ?_⟩, hfr⟩
    intro hk
    rw [Table.find?_eq_some_iff.mpr ⟨hr, hk⟩] at hdead
    exact hdead ((h.mem_deadFiles hr).mpr hfr)
  · exact .inr hp

theorem Owned.deleted {db : Db} (h : Owned db) {k : Text × Text} {r : ObjectRow}
    (hold : db.objects.find? k = some r) : Owned (deleted db r) := by
  obtain ⟨hr, rfl⟩ := Table.find?_eq_some_iff.mp hold
  have hrows : (Pgvs3.deleted db r).objects.rows = otherObjects db r.primaryKey := by
    simp [Pgvs3.deleted, Table.deleteWhere, otherObjects]
  apply h.shrink (Pgvs3.deleted db r) le_rfl
  · rw [ownedFiles, hrows]
    exact ((otherObjects_files_sublist db _).append (.refl _)).subperm
  · intro q hq
    exact h.head q (Table.mem_deleteWhere.mp hq).1
  · intro c hc
    exact (Table.mem_deleteWhere.mp hc).1
  · intro c hc hf
    have hdead : c.fileId ∉ deadFiles (db.objects.find? r.primaryKey) := by
      rw [hold]
      simpa using (Table.mem_deleteWhere.mp hc).2
    rw [ownedFiles, hrows]
    rcases h.owned_elsewhere hf hdead with hf | ⟨p, hp, hf⟩
    · exact List.mem_append_left _ hf
    · exact List.mem_append_right _ (List.mem_map.mpr ⟨p, hp, hf⟩)

theorem Owned.aborted {db : Db} (h : Owned db) (uploadId : Text) : Owned (aborted db uploadId) := by
  apply h.shrink (Pgvs3.aborted db uploadId) le_rfl
  · exact ((List.Sublist.refl _).append (List.filter_sublist.map _)).subperm
  · exact h.head
  · intro c hc
    exact (Table.mem_deleteWhere.mp hc).1
  · intro c hc hf
    obtain ⟨_, hkeep⟩ := Table.mem_deleteWhere.mp hc
    rw [decide_eq_false_iff_not] at hkeep
    rcases mem_ownedFiles.mp hf with hobj | ⟨p, hp, hpf⟩
    · exact mem_ownedFiles.mpr (.inl hobj)
    · refine mem_ownedFiles.mpr (.inr ⟨p, Table.mem_deleteWhere.mpr ⟨hp, ?_⟩, hpf⟩)
      rw [decide_eq_false_iff_not]
      intro hid
      refine hkeep (List.mem_map.mpr ⟨p, List.mem_filter.mpr ⟨hp, by simpa using hid⟩, hpf⟩)

theorem Owned.expires {db db' : Db} (h : Owned db) (he : Expires db db') : Owned db' := by
  apply h.shrink _ he.fileSeq_eq.ge
  · rw [ownedFiles, he.objects_eq]
    exact ((List.Sublist.refl _).append (he.parts_sublist.map _)).subperm
  · rw [he.objects_eq]
    exact h.head
  · exact he.chunks_sub
  · intro c hc hf
    rcases mem_ownedFiles.mp hf with hobj | ⟨p, hp, hpf⟩
    · exact mem_ownedFiles.mpr (.inl (he.objects_eq ▸ hobj))
    · by_cases hp' : p ∈ db'.uploadParts
      · exact mem_ownedFiles.mpr (.inr ⟨p, hp', hpf⟩)
      · exact (he.lost_part p hp hp' c hc hpf.symm).elim

/-! ## Changes that add an owner -/

theorem ownedFiles_published {db : Db} {row : ObjectRow} {old : Option ObjectRow} :
    ownedFiles (published db row old) =
      ((otherObjects db row.primaryKey).flatMap ObjectRow.files ++ row.files) ++
        db.uploadParts.rows.map (·.fileId) := by
  simp [ownedFiles, published, Table.upsert, otherObjects]

/-- A drawn file, with any rows, becomes owned; nothing else gains an owner. -/
theorem Owned.grow {db db' : Db} (h : Owned db) (hseq : db.fileSeq ≤ db'.fileSeq) {f : ℤ}
    (hf : f ∉ ownedFiles db) (hdrawn : f ≤ db'.fileSeq) {l : List ℤ}
    (hperm : (ownedFiles db').Perm (f :: l)) (hl : l.Sublist (ownedFiles db))
    (hobjects : ∀ r ∈ db'.objects, r.files.head? = some r.fileId)
    (hchunks : ∀ c ∈ db'.chunks,
      c.fileId = f ∨ (c ∈ db.chunks ∧ (c.fileId ∈ ownedFiles db → c.fileId ∈ l))) :
    Owned db' where
  seq_nonneg := h.seq_nonneg.trans hseq
  nodup := by
    rw [hperm.nodup_iff, List.nodup_cons]
    exact ⟨fun hmem => hf (hl.subset hmem), h.nodup.sublist hl⟩
  drawn := by
    intro g hg
    rcases List.mem_cons.mp (hperm.mem_iff.mp hg) with rfl | hg
    · exact hdrawn
    · exact (h.drawn g (hl.subset hg)).trans hseq
  covered := by
    intro c hc
    rw [hperm.mem_iff, List.mem_cons]
    rcases hchunks c hc with hf | ⟨hold, hf⟩
    · exact .inl hf
    · exact .inr (hf (h.covered c hold))
  head := hobjects

def withChunks (db : Db) (chunks : Table ChunkRow.primaryKey) : Db := { db with chunks := chunks }

theorem Owned.publish_new {db : Db} (h : Owned db) {f : ℤ} (hf : f ∉ ownedFiles db)
    (hdrawn : f ≤ db.fileSeq) {row : ObjectRow} (hfiles : row.files = [f]) (hhead : row.fileId = f)
    {rows : List ChunkRow} {chunks : Table ChunkRow.primaryKey}
    (hrows : db.chunks.insertAll? rows = some chunks) (hid : ∀ c ∈ rows, c.fileId = f) :
    Owned (published (withChunks db chunks) row (db.objects.find? row.primaryKey)) := by
  have hseq : db.fileSeq ≤ (published (withChunks db chunks) row
      (db.objects.find? row.primaryKey)).fileSeq := le_rfl
  apply h.grow hseq hf hdrawn
    (l := (otherObjects db row.primaryKey).flatMap ObjectRow.files ++
      db.uploadParts.rows.map (·.fileId))
  · rw [ownedFiles_published, hfiles, List.append_assoc]
    exact List.perm_middle
  · exact (otherObjects_files_sublist db _).append (.refl _)
  · intro r hr
    rcases Table.mem_upsert.mp hr with ⟨hr, _⟩ | rfl
    · exact h.head r hr
    · rw [hfiles, hhead]
      rfl
  · intro c hc
    obtain ⟨hc, hkeep⟩ := Table.mem_deleteWhere.mp hc
    rw [decide_eq_false_iff_not] at hkeep
    rcases (Table.mem_insertAll? hrows).mp hc with hc | hc
    · refine .inr ⟨hc, fun hf => ?_⟩
      rcases h.owned_elsewhere hf hkeep with hf | ⟨p, hp, hf⟩
      · exact List.mem_append_left _ hf
      · exact List.mem_append_right _ (List.mem_map.mpr ⟨p, hp, hf⟩)
    · exact .inl (hid c hc)

theorem Owned.record_new {db : Db} (h : Owned db) {part : UploadPartRow}
    (hf : part.fileId ∉ ownedFiles db) (hdrawn : part.fileId ≤ db.fileSeq)
    {rows : List ChunkRow} {chunks : Table ChunkRow.primaryKey}
    (hrows : db.chunks.insertAll? rows = some chunks) (hid : ∀ c ∈ rows, c.fileId = part.fileId) :
    Owned (recorded (withChunks db chunks) part) := by
  set others := db.uploadParts.rows.filter (fun p => p.primaryKey ≠ part.primaryKey) with hothers
  have hparts : (recorded (withChunks db chunks) part).uploadParts.rows = others ++ [part] := rfl
  have hseq : db.fileSeq ≤ (recorded (withChunks db chunks) part).fileSeq := le_rfl
  apply h.grow hseq hf hdrawn
    (l := db.objects.rows.flatMap ObjectRow.files ++ others.map (·.fileId))
  · rw [ownedFiles, hparts, List.map_append, ← List.append_assoc]
    exact List.perm_append_comm
  · exact (List.Sublist.refl _).append (List.filter_sublist.map _)
  · exact h.head
  · intro c hc
    obtain ⟨hc, hkeep⟩ := Table.mem_deleteWhere.mp hc
    rw [decide_eq_false_iff_not] at hkeep
    rcases (Table.mem_insertAll? hrows).mp hc with hc | hc
    · refine .inr ⟨hc, fun hf => ?_⟩
      rcases mem_ownedFiles.mp hf with ⟨r, hr, hf⟩ | ⟨p, hp, hf⟩
      · exact List.mem_append_left _ (List.mem_flatMap.mpr ⟨r, hr, hf⟩)
      · refine List.mem_append_right _ (List.mem_map.mpr ⟨p, List.mem_filter.mpr ⟨hp, ?_⟩, hf⟩)
        rw [decide_eq_true_eq]
        intro hk
        apply hkeep
        have hfind : db.uploadParts.find? part.primaryKey = some p :=
          Table.find?_eq_some_iff.mpr ⟨hp, hk⟩
        simp [withChunks, hfind, hf]
    · exact .inl (hid c hc)

theorem Owned.draw {db : Db} (h : Owned db) : Owned (Pgvs3.drawn db) := by
  apply h.shrink (Pgvs3.drawn db) (by simp [Pgvs3.drawn]) (List.Subperm.refl _) h.head
  · exact fun _ hc => hc
  · exact fun _ _ hf => hf

theorem Owned.next_unowned {db : Db} (h : Owned db) : db.fileSeq + 1 ∉ ownedFiles db := by
  intro hf
  have := h.drawn _ hf
  omega

theorem Owned.put {db : Db} (h : Owned db) {now : ℤ} {bucket key : Text}
    {condition : PutCondition} {body : Bytes} {sha256 : Bytes → Bytes}
    {chunks : Table ChunkRow.primaryKey}
    (hrows : db.chunks.insertAll? (rowsOf (db.fileSeq + 1) body) = some chunks) :
    Owned (published (copied db chunks)
      ((putWrite sha256 (db.fileSeq + 1) condition body).row now bucket key)
      (db.objects.find? (bucket, key))) :=
  h.draw.publish_new h.next_unowned le_rfl rfl rfl hrows fun _ hc => fileId_of_mem_rowsOf hc

theorem Owned.part {db : Db} (h : Owned db) {uploadId : Text} {partNo : ℤ} {body : Bytes}
    {sha256 : Bytes → Bytes} {chunks : Table ChunkRow.primaryKey}
    (hrows : db.chunks.insertAll? (rowsOf (db.fileSeq + 1) body) = some chunks) :
    Owned (recorded (copied db chunks)
      (partRecord sha256 uploadId partNo (db.fileSeq + 1) body)) :=
  h.draw.record_new h.next_unowned le_rfl hrows fun _ hc => fileId_of_mem_rowsOf hc

/-- Complete moves the files of the recorded parts to one object row. -/
theorem Owned.completed {db : Db} (h : Owned db) {now : ℤ} {uploadId bucket key : Text}
    {listed : List (ℤ × Text)} {sha256 : Bytes → Bytes}
    (haccept : CompleteAccepts db uploadId bucket key listed) :
    Owned (completed sha256 db now uploadId bucket key) := by
  set parts := recordedParts db uploadId with hparts
  set row := (completeWrite sha256 parts).row now bucket key with hrow
  set staged := db.uploadParts.rows.filter (fun p => p.uploadId = uploadId) with hstaged
  set others := db.uploadParts.rows.filter (fun p => !decide (p.uploadId = uploadId)) with hothers
  have hfiles : row.files = parts.map (·.fileId) := rfl
  have hkey : row.primaryKey = (bucket, key) := rfl
  have hperm : (parts.map (·.fileId)).Perm (staged.map (·.fileId)) := sortByKey_perm.map _
  have howned : ownedFiles (Pgvs3.completed sha256 db now uploadId bucket key) =
      ((otherObjects db (bucket, key)).flatMap ObjectRow.files ++ parts.map (·.fileId)) ++
        others.map (·.fileId) := by
    rw [← hfiles, ← hkey]
    simp [ownedFiles, Pgvs3.completed, deleteUpload, published, Table.upsert, Table.deleteWhere,
      otherObjects, hothers, hrow, hparts]
  apply h.shrink (Pgvs3.completed sha256 db now uploadId bucket key) le_rfl
  · rw [howned, List.append_assoc, ← List.map_append]
    have hall : ((parts ++ others).map (·.fileId)).Perm (db.uploadParts.rows.map (·.fileId)) := by
      refine List.Perm.map _ ?_
      exact (sortByKey_perm.append_right _).trans (List.filter_append_perm _ _)
    exact (otherObjects_files_sublist db _).subperm.append hall.subperm
  · intro r hr
    rcases Table.mem_upsert.mp hr with ⟨hr, _⟩ | rfl
    · exact h.head r hr
    · have hne : parts.map (·.fileId) ≠ [] := by simpa using haccept.2.1
      change (parts.map (·.fileId)).head? = some ((parts.map (·.fileId)).headD 0)
      cases hids : parts.map (·.fileId) with
      | nil => exact (hne hids).elim
      | cons f ids => rfl
  · intro c hc
    exact (Table.mem_deleteWhere.mp hc).1
  · intro c hc hf
    have hkeep := (Table.mem_deleteWhere.mp hc).2
    rw [decide_eq_false_iff_not] at hkeep
    rw [howned]
    rcases h.owned_elsewhere hf hkeep with hf | ⟨p, hp, hf⟩
    · exact List.mem_append_left _ (List.mem_append_left _ hf)
    · by_cases hid : p.uploadId = uploadId
      · refine List.mem_append_left _ (List.mem_append_right _ ?_)
        exact List.mem_map.mpr ⟨p, mem_recordedParts.mpr ⟨hp, hid⟩, hf⟩
      · refine List.mem_append_right _ (List.mem_map.mpr ⟨p, List.mem_filter.mpr ⟨hp, ?_⟩, hf⟩)
        simpa using hid

/-! ## Every run -/

theorem Owned.change {db db' : Db} {op : Op} {sha256 : Bytes → Bytes} (h : Owned db)
    (hc : Change sha256 db op db') : Owned db' := by
  cases hc with
  | still hobjects hchunks hparts hseq =>
      have howned : ownedFiles db' = ownedFiles db := by
        rw [ownedFiles, ownedFiles, hobjects, hparts]
      apply h.shrink _ hseq
      · rw [howned]
      · rw [hobjects]
        exact h.head
      · rw [hchunks]
        exact fun _ hc => hc
      · intro c _ hf
        rwa [howned]
  | put _ hrows => exact h.put hrows
  | part _ hrows => exact h.part hrows
  | delete hold => exact h.deleted hold
  | complete haccept => exact h.completed haccept
  | abort => exact h.aborted _
  | expire he => exact h.expires he

theorem Owned.step {db db' : Db} {op : Op} {sha256 : Bytes → Bytes} (h : Owned db)
    (hs : Step sha256 db op db') : Owned db' := by
  subst hs
  exact h.change (change_apply sha256 db op h.seq_nonneg)

theorem Owned.trace {db db' : Db} {ops : List Op} {sha256 : Bytes → Bytes} (h : Owned db)
    (ht : Trace (Step sha256) db ops db') : Owned db' :=
  ht.invariant (fun _ _ _ => Owned.step) h

theorem owned_run (sha256 : Bytes → Bytes) (ops : List Op) : Owned (run sha256 Db.empty ops) :=
  owned_empty.trace (trace_iff_run.mpr rfl)

/-! ## Owners -/

/-- A place that can name a file: a position of an object row, or a part record. -/
inductive Owner where
  | object (bucket key : Text) (position : ℕ)
  | part (uploadId : Text) (partNo : ℤ)

/-- `o` names file `f`. A row without a part list has its single file at position 0. -/
def Owns (db : Db) (o : Owner) (f : ℤ) : Prop :=
  match o with
  | .object bucket key position =>
      ∃ r ∈ db.objects, r.primaryKey = (bucket, key) ∧ r.files[position]? = some f
  | .part uploadId partNo =>
      ∃ p ∈ db.uploadParts, p.primaryKey = (uploadId, partNo) ∧ p.fileId = f

theorem mem_ownedFiles_iff_owns {db : Db} {f : ℤ} : f ∈ ownedFiles db ↔ ∃ o, Owns db o f := by
  rw [mem_ownedFiles]
  constructor
  · rintro (⟨r, hr, hf⟩ | ⟨p, hp, hf⟩)
    · obtain ⟨i, hi⟩ := List.mem_iff_getElem?.mp hf
      exact ⟨.object r.bucket r.key i, r, hr, rfl, hi⟩
    · exact ⟨.part p.uploadId p.partNo, p, hp, rfl, hf⟩
  · rintro ⟨o, ho⟩
    cases o with
    | object bucket key i =>
        obtain ⟨r, hr, _, hi⟩ := ho
        exact .inl ⟨r, hr, List.mem_iff_getElem?.mpr ⟨i, hi⟩⟩
    | part uploadId partNo =>
        obtain ⟨p, hp, _, hf⟩ := ho
        exact .inr ⟨p, hp, hf⟩

theorem files_inj {rows : List ObjectRow} (h : (rows.flatMap ObjectRow.files).Nodup)
    {r q : ObjectRow} (hr : r ∈ rows) (hq : q ∈ rows) {i j : ℕ} {f : ℤ}
    (hi : r.files[i]? = some f) (hj : q.files[j]? = some f) : r = q ∧ i = j := by
  obtain ⟨heach, hpair⟩ := List.nodup_flatMap.mp h
  have heq : r = q := by
    by_contra hne
    have hsymm : Std.Symm (Function.onFun List.Disjoint ObjectRow.files) :=
      ⟨fun _ _ hd => hd.symm⟩
    exact hpair.forall hr hq hne (List.mem_iff_getElem?.mpr ⟨i, hi⟩)
      (List.mem_iff_getElem?.mpr ⟨j, hj⟩)
  subst heq
  obtain ⟨hlt, _⟩ := List.getElem?_eq_some_iff.mp hi
  exact ⟨rfl, (List.getElem?_inj hlt (heach r hr)).mp (hi.trans hj.symm)⟩

/-- No file is named twice. -/
theorem Owned.owner_unique {db : Db} (h : Owned db) {o o' : Owner} {f : ℤ} (ho : Owns db o f)
    (ho' : Owns db o' f) : o = o' := by
  obtain ⟨hobjects, hparts, hdisjoint⟩ := List.nodup_append'.mp h.nodup
  have hmixed : ∀ {bucket key uploadId : Text} {i : ℕ} {partNo : ℤ},
      Owns db (.object bucket key i) f → ¬ Owns db (.part uploadId partNo) f := by
    rintro _ _ _ i _ ⟨r, hr, _, hi⟩ ⟨p, hp, _, hf⟩
    exact hdisjoint (List.mem_flatMap.mpr ⟨r, hr, List.mem_iff_getElem?.mpr ⟨i, hi⟩⟩)
      (List.mem_map.mpr ⟨p, hp, hf⟩)
  cases o with
  | object bucket key i =>
      cases o' with
      | object bucket' key' j =>
          obtain ⟨r, hr, hk, hi⟩ := ho
          obtain ⟨q, hq, hk', hj⟩ := ho'
          obtain ⟨rfl, rfl⟩ := files_inj hobjects hr hq hi hj
          obtain ⟨rfl, rfl⟩ := Prod.mk.inj (hk.symm.trans hk')
          rfl
      | part uploadId partNo => exact (hmixed ho ho').elim
  | part uploadId partNo =>
      cases o' with
      | object bucket key i => exact (hmixed ho' ho).elim
      | part uploadId' partNo' =>
          obtain ⟨p, hp, hk, hf⟩ := ho
          obtain ⟨q, hq, hk', hf'⟩ := ho'
          obtain rfl : p = q := List.inj_on_of_nodup_map hparts hp hq (hf.trans hf'.symm)
          obtain ⟨rfl, rfl⟩ := Prod.mk.inj (hk.symm.trans hk')
          rfl

/-! ## Files that are not shared -/

theorem Owned.object_unique {db : Db} (h : Owned db) {r q : ObjectRow} (hr : r ∈ db.objects)
    (hq : q ∈ db.objects) {f : ℤ} (hf : f ∈ r.files) (hf' : f ∈ q.files) : r = q := by
  obtain ⟨i, hi⟩ := List.mem_iff_getElem?.mp hf
  obtain ⟨j, hj⟩ := List.mem_iff_getElem?.mp hf'
  exact (files_inj (List.nodup_append'.mp h.nodup).1 hr hq hi hj).1

theorem Owned.object_part_disjoint {db : Db} (h : Owned db) {r : ObjectRow} (hr : r ∈ db.objects)
    {p : UploadPartRow} (hp : p ∈ db.uploadParts) : p.fileId ∉ r.files := by
  intro hf
  exact (List.nodup_append'.mp h.nodup).2.2 (List.mem_flatMap.mpr ⟨r, hr, hf⟩)
    (List.mem_map.mpr ⟨p, hp, rfl⟩)

theorem Owned.part_unique {db : Db} (h : Owned db) {p q : UploadPartRow}
    (hp : p ∈ db.uploadParts) (hq : q ∈ db.uploadParts) (hf : p.fileId = q.fileId) : p = q :=
  List.inj_on_of_nodup_map (List.nodup_append'.mp h.nodup).2.1 hp hq hf

/-- A write at a key reaps the files of the row that is there. -/
theorem Owned.mem_dead_iff {db : Db} (h : Owned db) {k : Text × Text} {f : ℤ} :
    f ∈ deadFiles (db.objects.find? k) ↔ ∃ r ∈ db.objects, r.primaryKey = k ∧ f ∈ r.files := by
  constructor
  · intro hf
    cases hold : db.objects.find? k with
    | none => simp [hold, deadFiles] at hf
    | some r =>
        obtain ⟨hr, hk⟩ := Table.find?_eq_some_iff.mp hold
        rw [hold] at hf
        exact ⟨r, hr, hk, (h.mem_deadFiles hr).mp hf⟩
  · rintro ⟨r, hr, hk, hf⟩
    rw [Table.find?_eq_some_iff.mpr ⟨hr, hk⟩]
    exact (h.mem_deadFiles hr).mpr hf

/-- After any operations on an empty store, the file of every chunk row has exactly
one owner, and no file has two. -/
theorem chunks_have_one_owner (sha256 : Bytes → Bytes) (ops : List Op) :
    (∀ c ∈ (run sha256 Db.empty ops).chunks, ∃! o, Owns (run sha256 Db.empty ops) o c.fileId) ∧
      ∀ f o o', Owns (run sha256 Db.empty ops) o f → Owns (run sha256 Db.empty ops) o' f →
        o = o' := by
  have h := owned_run sha256 ops
  refine ⟨?_, fun f o o' => h.owner_unique⟩
  intro c hc
  obtain ⟨o, ho⟩ := mem_ownedFiles_iff_owns.mp (h.covered c hc)
  exact ⟨o, ho, fun o' ho' => h.owner_unique ho' ho⟩

end Pgvs3
