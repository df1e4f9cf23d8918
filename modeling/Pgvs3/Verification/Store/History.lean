import Pgvs3.Verification.Read.Plan
import Pgvs3.Verification.Store.Ownership

/-! # What the tables say about the bodies that were written

The ledger remembers the body streamed under each file id. Object rows, part records and
chunk rows agree with it after every operation. -/

namespace Pgvs3

open Library

variable {sha256 : Bytes → Bytes}

/-! ## Files across a change -/

/-- A change gives no file that was drawn before a new owner, and except for an expiry it
deletes no row of a file that stays owned. -/
theorem Change.keeps {db db' : Db} {op : Op} (h : Owned db) (hc : Change sha256 db op db')
    {f : ℤ} (hf : f ∈ ownedFiles db') (hle : f ≤ db.fileSeq) :
    f ∈ ownedFiles db ∧ ∀ c ∈ db.chunks, c.fileId = f → c ∉ db'.chunks →
      Expires db db' ∧ (∃ now budget, op = .expireUploads now budget) ∧
        ∃ p ∈ db'.uploadParts, p.fileId = f := by
  have hobject : ∀ r ∈ db.objects, f ∈ r.files → f ∈ ownedFiles db := fun r hr hfr =>
    mem_ownedFiles.mpr (.inl ⟨r, hr, hfr⟩)
  have hpart : ∀ p ∈ db.uploadParts, p.fileId = f → f ∈ ownedFiles db := fun p hp hpf =>
    mem_ownedFiles.mpr (.inr ⟨p, hp, hpf⟩)
  -- a row of a file outside what a change reaps is not lost
  have hkept : ∀ {dead : List ℤ} {chunks : Table ChunkRow.primaryKey},
      (∀ c ∈ db.chunks, c ∈ chunks) → f ∉ dead → ∀ c ∈ db.chunks, c.fileId = f →
        c ∈ chunks.deleteWhere (fun c => c.fileId ∈ dead) := by
    intro dead chunks hsub hdead c hc hcf
    exact Table.mem_deleteWhere.mpr ⟨hsub c hc, by rw [hcf]; exact decide_eq_false hdead⟩
  have hfresh : f ≠ db.fileSeq + 1 := by omega
  have hcopied : ∀ {rows : List ChunkRow} {chunks : Table ChunkRow.primaryKey},
      db.chunks.insertAll? rows = some chunks → ∀ c ∈ db.chunks, c ∈ chunks :=
    fun hrows c hc => (Table.mem_insertAll? hrows).mpr (.inl hc)
  cases hc with
  | still hobjects hchunks hparts _ =>
      rw [ownedFiles, hobjects, hparts] at hf
      exact ⟨hf, fun c hc _ hlost => (hlost (hchunks ▸ hc)).elim⟩
  | @put now bucket key condition pushes chunks _ hrows _ _ _ =>
      rcases mem_ownedFiles.mp hf with ⟨r, hr, hfr⟩ | ⟨p, hp, hpf⟩
      · rcases Table.mem_upsert.mp hr with ⟨hr, hk⟩ | rfl
        · refine ⟨hobject r hr hfr, fun c hc hcf hlost => (hlost ?_).elim⟩
          refine hkept (hcopied hrows) ?_ c hc hcf
          rw [h.mem_dead_iff]
          rintro ⟨q, hq, hqk, hfq⟩
          exact hk ((h.object_unique hr hq hfr hfq) ▸ hqk)
        · exact (hfresh (List.mem_singleton.mp hfr)).elim
      · refine ⟨hpart p hp hpf, fun c hc hcf hlost => (hlost ?_).elim⟩
        refine hkept (hcopied hrows) ?_ c hc hcf
        rw [h.mem_dead_iff]
        rintro ⟨q, hq, -, hfq⟩
        exact h.object_part_disjoint hq hp (hpf ▸ hfq)
  | @part now uploadId partNo pushes chunks _ hrows _ =>
      have hdead : (∀ q ∈ db.uploadParts, q.primaryKey = (uploadId, partNo) → q.fileId ≠ f) →
          f ∉ ((db.uploadParts.find? (uploadId, partNo)).map (·.fileId)).toList := by
        intro hne hmem
        simp only [Option.mem_toList, Option.map_eq_some_iff] at hmem
        obtain ⟨q, hq, hqf⟩ := hmem
        obtain ⟨hq, hqk⟩ := Table.find?_eq_some_iff.mp hq
        exact hne q hq hqk hqf
      rcases mem_ownedFiles.mp hf with ⟨r, hr, hfr⟩ | ⟨p, hp, hpf⟩
      · refine ⟨hobject r hr hfr, fun c hc hcf hlost => (hlost ?_).elim⟩
        refine hkept (hcopied hrows) (hdead fun q hq _ hqf => ?_) c hc hcf
        exact h.object_part_disjoint hr hq (hqf ▸ hfr)
      · rcases Table.mem_upsert.mp hp with ⟨hp, hk⟩ | rfl
        · refine ⟨hpart p hp hpf, fun c hc hcf hlost => (hlost ?_).elim⟩
          refine hkept (hcopied hrows) (hdead fun q hq hqk hqf => ?_) c hc hcf
          exact hk ((h.part_unique hp hq (hpf.trans hqf.symm)) ▸ hqk)
        · exact (hfresh hpf.symm).elim
  | @delete bucket key r hold =>
      obtain ⟨hr₀, -⟩ := Table.find?_eq_some_iff.mp hold
      have hdead : (∀ q ∈ db.objects, f ∈ q.files → q ≠ r) → f ∉ deadFiles (some r) := by
        intro hne hmem
        exact hne r hr₀ ((h.mem_deadFiles hr₀).mp hmem) rfl
      rcases mem_ownedFiles.mp hf with ⟨q, hq, hfq⟩ | ⟨p, hp, hpf⟩
      · obtain ⟨hq, hk⟩ := Table.mem_deleteWhere.mp hq
        refine ⟨hobject q hq hfq, fun c hc hcf hlost => (hlost ?_).elim⟩
        refine hkept (fun _ hc => hc) (hdead fun q' hq' hfq' heq => ?_) c hc hcf
        obtain rfl := h.object_unique hq hq' hfq hfq'
        simp [heq] at hk
      · refine ⟨hpart p hp hpf, fun c hc hcf hlost => (hlost ?_).elim⟩
        refine hkept (fun _ hc => hc) (hdead fun q' hq' hfq' _ => ?_) c hc hcf
        exact h.object_part_disjoint hq' hp (hpf ▸ hfq')
  | @complete now uploadId bucket key listed haccept _ =>
      have hpart' : ∀ p ∈ db.uploadParts, p.fileId = f →
          f ∈ ownedFiles db ∧ f ∉ deadFiles (db.objects.find? (bucket, key)) := by
        intro p hp hpf
        refine ⟨hpart p hp hpf, ?_⟩
        rw [h.mem_dead_iff]
        rintro ⟨q, hq, -, hfq⟩
        exact h.object_part_disjoint hq hp (hpf ▸ hfq)
      rcases mem_ownedFiles.mp hf with ⟨r, hr, hfr⟩ | ⟨p, hp, hpf⟩
      · rcases Table.mem_upsert.mp hr with ⟨hr, hk⟩ | rfl
        · refine ⟨hobject r hr hfr, fun c hc hcf hlost => (hlost ?_).elim⟩
          refine hkept (fun _ hc => hc) ?_ c hc hcf
          rw [h.mem_dead_iff]
          rintro ⟨q, hq, hqk, hfq⟩
          exact hk ((h.object_unique hr hq hfr hfq) ▸ hqk)
        · obtain ⟨p, hp, hpf⟩ := List.mem_map.mp hfr
          obtain ⟨howned, hdead⟩ := hpart' p (mem_recordedParts.mp hp).1 hpf
          exact ⟨howned, fun c hc hcf hlost => (hlost (hkept (fun _ hc => hc) hdead c hc hcf)).elim⟩
      · obtain ⟨howned, hdead⟩ := hpart' p (Table.mem_deleteWhere.mp hp).1 hpf
        exact ⟨howned, fun c hc hcf hlost => (hlost (hkept (fun _ hc => hc) hdead c hc hcf)).elim⟩
  | @abort uploadId bucket key _ =>
      have hdead : (∀ q ∈ db.uploadParts, q.uploadId = uploadId → q.fileId ≠ f) →
          f ∉ stagedFiles db uploadId := by
        intro hne hmem
        obtain ⟨q, hq, hqf⟩ := List.mem_map.mp hmem
        obtain ⟨hq, hid⟩ := List.mem_filter.mp hq
        exact hne q hq (by simpa using hid) hqf
      rcases mem_ownedFiles.mp hf with ⟨r, hr, hfr⟩ | ⟨p, hp, hpf⟩
      · refine ⟨hobject r hr hfr, fun c hc hcf hlost => (hlost ?_).elim⟩
        refine hkept (fun _ hc => hc) (hdead fun q hq _ hqf => ?_) c hc hcf
        exact h.object_part_disjoint hr hq (hqf ▸ hfr)
      · obtain ⟨hp, hid⟩ := Table.mem_deleteWhere.mp hp
        refine ⟨hpart p hp hpf, fun c hc hcf hlost => (hlost ?_).elim⟩
        refine hkept (fun _ hc => hc) (hdead fun q hq hqid hqf => ?_) c hc hcf
        obtain rfl := h.part_unique hp hq (hpf.trans hqf.symm)
        simp [hqid] at hid
  | @expire now budget _ he =>
      rcases mem_ownedFiles.mp hf with ⟨r, hr, hfr⟩ | ⟨p, hp, hpf⟩
      · have hr : r ∈ db.objects := he.objects_eq ▸ hr
        refine ⟨hobject r hr hfr, fun c hc hcf hlost => ?_⟩
        obtain ⟨p, hp, hpf⟩ := he.lost_chunk c hc hlost
        exact (h.object_part_disjoint hr hp (hpf.trans hcf ▸ hfr)).elim
      · exact ⟨hpart p (he.parts_sublist.subset hp) hpf,
          fun _ _ _ _ => ⟨he, ⟨now, budget, rfl⟩, p, hp, hpf⟩⟩

/-- The rows a change adds are those of the body it streams, under the file id it draws. -/
theorem Change.mem_chunks {db db' : Db} {op : Op} (hc : Change sha256 db op db') {c : ChunkRow}
    (hmem : c ∈ db'.chunks) :
    c ∈ db.chunks ∨ ∃ body, op.body? = some body ∧ c ∈ rowsOf (db.fileSeq + 1) body := by
  cases hc with
  | still _ hchunks _ _ => exact .inl (hchunks ▸ hmem)
  | put _ hrows =>
      rcases (Table.mem_insertAll? hrows).mp (Table.mem_deleteWhere.mp hmem).1 with hold | hnew
      · exact .inl hold
      · exact .inr ⟨_, rfl, hnew⟩
  | part _ hrows =>
      rcases (Table.mem_insertAll? hrows).mp (Table.mem_deleteWhere.mp hmem).1 with hold | hnew
      · exact .inl hold
      · exact .inr ⟨_, rfl, hnew⟩
  | delete => exact .inl (Table.mem_deleteWhere.mp hmem).1
  | complete => exact .inl (Table.mem_deleteWhere.mp hmem).1
  | abort => exact .inl (Table.mem_deleteWhere.mp hmem).1
  | expire he => exact .inl (he.chunks_sub c hmem)

theorem Change.mem_uploadParts {db db' : Db} {op : Op} (hc : Change sha256 db op db')
    {p : UploadPartRow} (hmem : p ∈ db'.uploadParts) :
    p ∈ db.uploadParts ∨ ∃ body, op.body? = some body ∧
      p = partRecord sha256 p.uploadId p.partNo (db.fileSeq + 1) body := by
  cases hc with
  | still _ _ hparts _ => exact .inl (hparts ▸ hmem)
  | put => exact .inl hmem
  | part =>
      rcases Table.mem_upsert.mp hmem with ⟨hold, -⟩ | rfl
      · exact .inl hold
      · exact .inr ⟨_, rfl, rfl⟩
  | delete => exact .inl hmem
  | complete => exact .inl (Table.mem_deleteWhere.mp hmem).1
  | abort => exact .inl (Table.mem_deleteWhere.mp hmem).1
  | expire he => exact .inl (he.parts_sublist.subset hmem)

theorem Change.mem_objects {db db' : Db} {op : Op} (hc : Change sha256 db op db')
    {r : ObjectRow} (hmem : r ∈ db'.objects) :
    r ∈ db.objects ∨
    (∃ now bucket key condition pushes, op = .put now bucket key condition pushes ∧
      r = (putWrite sha256 (db.fileSeq + 1) condition pushes.flatten).row now bucket key) ∨
    ∃ now uploadId bucket key listed, op = .completeUpload now uploadId bucket key listed ∧
      CompleteAccepts db uploadId bucket key listed ∧
      r = (completeWrite sha256 (recordedParts db uploadId)).row now bucket key := by
  cases hc with
  | still hobjects => exact .inl (hobjects ▸ hmem)
  | put =>
      rcases Table.mem_upsert.mp hmem with ⟨hold, -⟩ | rfl
      · exact .inl hold
      · exact .inr (.inl ⟨_, _, _, _, _, rfl, rfl⟩)
  | part => exact .inl hmem
  | delete => exact .inl (Table.mem_deleteWhere.mp hmem).1
  | complete haccept _ =>
      rcases Table.mem_upsert.mp hmem with ⟨hold, -⟩ | rfl
      · exact .inl hold
      · exact .inr (.inr ⟨_, _, _, _, _, rfl, haccept, rfl⟩)
  | abort => exact .inl hmem
  | expire he => exact .inl (he.objects_eq ▸ hmem)

theorem Change.new_file {db db' : Db} {op : Op} (h : Owned db) (hc : Change sha256 db op db')
    {f : ℤ} (hf : f ∈ ownedFiles db') (hnew : db.fileSeq < f) :
    f = db.fileSeq + 1 ∧ ∃ body, op.body? = some body ∧
      ((rowsOf f body).map ChunkRow.primaryKey).Nodup ∧ ∀ c ∈ rowsOf f body, c ∈ db'.chunks := by
  have hold : f ∉ ownedFiles db := fun hmem => absurd (h.drawn f hmem) (not_le.mpr hnew)
  have hobject : ∀ r ∈ db.objects, f ∉ r.files := fun r hr hfr =>
    hold (mem_ownedFiles.mpr (.inl ⟨r, hr, hfr⟩))
  have hpart : ∀ p ∈ db.uploadParts, p.fileId ≠ f := fun p hp hpf =>
    hold (mem_ownedFiles.mpr (.inr ⟨p, hp, hpf⟩))
  cases hc with
  | still hobjects _ hparts _ =>
      rw [ownedFiles, hobjects, hparts] at hf
      exact (hold hf).elim
  | @put now bucket key condition pushes chunks _ hrows _ _ _ =>
      have hrow : f = db.fileSeq + 1 := by
        rcases mem_ownedFiles.mp hf with ⟨r, hr, hfr⟩ | ⟨p, hp, hpf⟩
        · rcases Table.mem_upsert.mp hr with ⟨hr, -⟩ | rfl
          · exact (hobject r hr hfr).elim
          · exact List.mem_singleton.mp hfr
        · exact (hpart p hp hpf).elim
      subst hrow
      refine ⟨rfl, _, rfl, (Table.insertAll?_eq_some_iff.mp hrows).1, fun c hc => ?_⟩
      refine Table.mem_deleteWhere.mpr ⟨(Table.mem_insertAll? hrows).mpr (.inr hc), ?_⟩
      rw [decide_eq_false_iff_not, fileId_of_mem_rowsOf hc, h.mem_dead_iff]
      rintro ⟨r, hr, -, hfr⟩
      exact hobject r hr hfr
  | @part now uploadId partNo pushes chunks _ hrows _ =>
      have hrow : f = db.fileSeq + 1 := by
        rcases mem_ownedFiles.mp hf with ⟨r, hr, hfr⟩ | ⟨p, hp, hpf⟩
        · exact (hobject r hr hfr).elim
        · rcases Table.mem_upsert.mp hp with ⟨hp, -⟩ | rfl
          · exact (hpart p hp hpf).elim
          · exact hpf.symm
      subst hrow
      refine ⟨rfl, _, rfl, (Table.insertAll?_eq_some_iff.mp hrows).1, fun c hc => ?_⟩
      refine Table.mem_deleteWhere.mpr ⟨(Table.mem_insertAll? hrows).mpr (.inr hc), ?_⟩
      rw [decide_eq_false_iff_not, fileId_of_mem_rowsOf hc]
      intro hmem
      simp only [Option.mem_toList, Option.map_eq_some_iff] at hmem
      obtain ⟨q, hq, hqf⟩ := hmem
      exact hpart q (Table.find?_eq_some_iff.mp hq).1 hqf
  | delete =>
      rcases mem_ownedFiles.mp hf with ⟨r, hr, hfr⟩ | ⟨p, hp, hpf⟩
      · exact (hobject r (Table.mem_deleteWhere.mp hr).1 hfr).elim
      · exact (hpart p hp hpf).elim
  | complete =>
      rcases mem_ownedFiles.mp hf with ⟨r, hr, hfr⟩ | ⟨p, hp, hpf⟩
      · rcases Table.mem_upsert.mp hr with ⟨hr, -⟩ | rfl
        · exact (hobject r hr hfr).elim
        · obtain ⟨p, hp, hpf⟩ := List.mem_map.mp hfr
          exact (hpart p (mem_recordedParts.mp hp).1 hpf).elim
      · exact (hpart p (Table.mem_deleteWhere.mp hp).1 hpf).elim
  | abort =>
      rcases mem_ownedFiles.mp hf with ⟨r, hr, hfr⟩ | ⟨p, hp, hpf⟩
      · exact (hobject r hr hfr).elim
      · exact (hpart p (Table.mem_deleteWhere.mp hp).1 hpf).elim
  | expire he =>
      rcases mem_ownedFiles.mp hf with ⟨r, hr, hfr⟩ | ⟨p, hp, hpf⟩
      · exact (hobject r (he.objects_eq ▸ hr) hfr).elim
      · exact (hpart p (he.parts_sublist.subset hp) hpf).elim

/-- When an object row goes, its files lose their owner. -/
theorem Change.drops {db db' : Db} {op : Op} (h : Owned db) (hc : Change sha256 db op db')
    {q : ObjectRow} (hq : q ∈ db.objects) (hgone : q ∉ db'.objects) {f : ℤ} (hf : f ∈ q.files) :
    f ∉ ownedFiles db' := by
  have hle : f ≤ db.fileSeq := h.drawn f (mem_ownedFiles.mpr (.inl ⟨q, hq, hf⟩))
  have hother : ∀ r ∈ db.objects, f ∈ r.files → r = q := fun r hr hfr =>
    h.object_unique hr hq hfr hf
  have hpart : ∀ p ∈ db.uploadParts, p.fileId ≠ f := fun p hp hpf =>
    h.object_part_disjoint hq hp (hpf ▸ hf)
  rw [mem_ownedFiles]
  rintro (⟨r, hr, hfr⟩ | ⟨p, hp, hpf⟩)
  · rcases hc.mem_objects hr with hold | ⟨now, bucket, key, condition, pushes, -, rfl⟩ |
      ⟨now, uploadId, bucket, key, listed, -, -, rfl⟩
    · exact hgone (hother r hold hfr ▸ hr)
    · have := List.mem_singleton.mp hfr
      dsimp only [putWrite, ObjectWrite.row] at this
      omega
    · obtain ⟨p, hp, hpf⟩ := List.mem_map.mp hfr
      exact hpart p (mem_recordedParts.mp hp).1 hpf
  · rcases hc.mem_uploadParts hp with hold | ⟨body, -, heq⟩
    · exact hpart p hold hpf
    · have hid : p.fileId = db.fileSeq + 1 := by rw [heq]; rfl
      omega

/-- A row that was there, and either still is or has left its files without an owner. -/
def RowFate (q : ObjectRow) (db : Db) : Prop :=
  q ∈ db.objects ∨ ∀ f ∈ q.files, f ≤ db.fileSeq ∧ f ∉ ownedFiles db

theorem RowFate.change {db db' : Db} {op : Op} (h : Owned db) (hc : Change sha256 db op db')
    {q : ObjectRow} (hq : RowFate q db) : RowFate q db' := by
  by_cases hmem : q ∈ db'.objects
  · exact .inl hmem
  · refine .inr fun f hf => ?_
    rcases hq with hq | hdead
    · have hle : f ≤ db.fileSeq := h.drawn f (mem_ownedFiles.mpr (.inl ⟨q, hq, hf⟩))
      exact ⟨hle.trans hc.fileSeq_le, hc.drops h hq hmem hf⟩
    · obtain ⟨hle, hnot⟩ := hdead f hf
      exact ⟨hle.trans hc.fileSeq_le, fun howned => hnot (hc.keeps h howned hle).1⟩

/-- File ids do not come back: the files of a row that is gone stay without an owner. -/
theorem RowFate.trace {db db' : Db} {ops : List Op} (h : Owned db) {q : ObjectRow}
    (hq : RowFate q db) (ht : Trace (Step sha256) db ops db') : RowFate q db' := by
  refine ht.invariant₂ (I := Owned) (fun _ _ _ => Owned.step) ?_ h hq
  rintro db op db' h hq rfl
  exact hq.change h (change_apply sha256 db op h.seq_nonneg)

/-! ## Object rows and their bodies -/

/-- The columns of an object row fit the bodies of its files. -/
structure ObjectRow.Holds (r : ObjectRow) (written : ℤ → Bytes) : Prop where
  size_eq : r.size = (r.files.flatMap written).length
  ends_eq : r.partEnds =
    r.parts.map fun ids => cumulate 0 (ids.map fun f => ((written f).length : ℤ))

@[simp] theorem length_cumulate (total : ℤ) (l : List ℤ) :
    (cumulate total l).length = l.length := by
  induction l generalizing total with
  | nil => rfl
  | cons n l ih => simp [cumulate, ih]

theorem segmentsFrom_cumulate (written : ℤ → Bytes) (base : ℤ) (ids : List ℤ) :
    segmentsFrom base (ids.zip (cumulate base (ids.map fun f => ((written f).length : ℤ)))) =
      layout written base ids := by
  induction ids generalizing base with
  | nil => rfl
  | cons f ids ih => simp [cumulate, segmentsFrom, layout, ih]

theorem ObjectRow.Holds.describes {r : ObjectRow} {written : ℤ → Bytes} (h : r.Holds written) :
    r.meta.Describes written r.files where
  segments_eq := by
    have hsize := h.size_eq
    have hends := h.ends_eq
    unfold ObjectRow.files at hsize ⊢
    unfold Meta.segments ObjectRow.meta
    cases hp : r.parts with
    | none =>
        rw [hp] at hsize
        simp only [List.flatMap_cons, List.flatMap_nil, List.append_nil] at hsize
        simp [layout, hsize]
    | some ids =>
        rw [hp, Option.map_some] at hends
        simp [hends, segmentsFrom_cumulate]
  size_eq := h.size_eq

theorem ObjectRow.Holds.describesAt {r : ObjectRow} {written : ℤ → Bytes} (h : r.Holds written)
    (now : ℤ) : (r.metaAt now).Describes written r.files :=
  ⟨h.describes.segments_eq, h.size_eq⟩

theorem ObjectRow.Holds.congr {r : ObjectRow} {written written' : ℤ → Bytes}
    (h : r.Holds written) (heq : ∀ f ∈ r.files, written' f = written f) : r.Holds written' where
  size_eq := by
    rw [h.size_eq, List.flatMap_congr fun f hf => (heq f hf).symm]
  ends_eq := by
    rw [h.ends_eq]
    unfold ObjectRow.files at heq
    cases hp : r.parts with
    | none => rfl
    | some ids =>
        rw [hp] at heq
        simp only [Option.map_some, Option.some.injEq]
        congr 1
        exact List.map_congr_left fun f hf => by rw [heq f hf]

theorem holds_putWrite (written : ℤ → Bytes) {fileId : ℤ} {condition : PutCondition}
    {body : Bytes} (h : written fileId = body) (now : ℤ) (bucket key : Text) :
    ((putWrite sha256 fileId condition body).row now bucket key).Holds written where
  size_eq := by simp [putWrite, ObjectWrite.row, ObjectRow.files, h]
  ends_eq := rfl

theorem holds_completeWrite {written : ℤ → Bytes} {rows : List UploadPartRow}
    (h : ∀ p ∈ rows, p.size = (written p.fileId).length) (now : ℤ) (bucket key : Text) :
    ((completeWrite sha256 rows).row now bucket key).Holds written where
  size_eq := by
    have hsizes : rows.map (·.size) = rows.map fun p => ((written p.fileId).length : ℤ) :=
      List.map_congr_left h
    change (rows.map (·.size)).sum = ((rows.map (·.fileId)).flatMap written).length
    rw [hsizes, List.length_flatMap, List.map_map]
    push_cast [List.map_map]
    rfl
  ends_eq := by
    have hsizes : rows.map (·.size) = rows.map fun p => ((written p.fileId).length : ℤ) :=
      List.map_congr_left h
    change some (cumulate 0 (rows.map (·.size))) = _
    rw [hsizes]
    simp [completeWrite, ObjectWrite.row, Function.comp_def]

/-! ## The invariant -/

/-- The tables agree with the bodies that were written, and a file that no expiry has begun
to delete has all its rows. -/
structure Consistent (sha256 : Bytes → Bytes) (l : Ledger) : Prop where
  owned : Owned l.db
  chunks : ∀ c ∈ l.db.chunks, c ∈ rowsOf c.fileId (l.written c.fileId)
  parts : ∀ p ∈ l.db.uploadParts,
    p = partRecord sha256 p.uploadId p.partNo p.fileId (l.written p.fileId)
  objects : ∀ r ∈ l.db.objects, r.Holds l.written
  distinct : ∀ f ∈ ownedFiles l.db, DistinctRows (l.written f)
  reaped_drawn : ∀ f ∈ l.reaped, f ≤ l.db.fileSeq
  whole : ∀ f ∈ ownedFiles l.db, f ∉ l.reaped → ∀ c ∈ rowsOf f (l.written f), c ∈ l.db.chunks

theorem consistent_empty : Consistent sha256 Ledger.empty where
  owned := owned_empty
  chunks := by simp [Ledger.empty, Db.empty]
  parts := by simp [Ledger.empty, Db.empty]
  objects := by simp [Ledger.empty, Db.empty]
  distinct := by simp [ownedFiles, Ledger.empty, Db.empty, Table.empty]
  reaped_drawn := by simp [Ledger.empty]
  whole := by simp [ownedFiles, Ledger.empty, Db.empty, Table.empty]

theorem distinct_of_nodup {f : ℤ} {body : Bytes}
    (h : ((rowsOf f body).map ChunkRow.primaryKey).Nodup) : DistinctRows body := by
  rw [rowsOf, rowsFrom, List.map_map] at h
  by_contra hbig
  unfold DistinctRows at hbig
  have hkey : (ChunkRow.primaryKey ∘ fun (i : ℕ) =>
      (⟨f, asI32 ↑(0 + i), block rowBytes body i⟩ : ChunkRow)) 0 =
        (ChunkRow.primaryKey ∘ fun (i : ℕ) =>
          (⟨f, asI32 ↑(0 + i), block rowBytes body i⟩ : ChunkRow)) (2 ^ 32) := by
    have hwrap : asI32 ((0 + 2 ^ 32 : ℕ) : ℤ) = asI32 ((0 + 0 : ℕ) : ℤ) := by
      unfold asI32
      decide
    simp only [Function.comp_apply, ChunkRow.primaryKey, hwrap]
  have hzero := List.inj_on_of_nodup_map h (List.mem_range.mpr (by omega))
    (List.mem_range.mpr (by omega)) hkey
  norm_num at hzero

theorem nodup_of_distinct {f : ℤ} {body : Bytes} (h : DistinctRows body) :
    ((rowsOf f body).map ChunkRow.primaryKey).Nodup := by
  rw [rowsOf, rowsFrom, List.map_map]
  refine List.Nodup.map_on ?_ List.nodup_range
  intro i hi j hj heq
  unfold DistinctRows at h
  rw [List.mem_range] at hi hj
  have hno : asI32 ↑(0 + i) = asI32 ↑(0 + j) := congrArg Prod.snd heq
  have hwraps : ∀ k < 2 ^ 32, asI32 ↑(0 + k : ℕ) = ↑k ∧ k < 2 ^ 31 ∨
      asI32 ↑(0 + k : ℕ) = ↑k - 2 ^ 32 ∧ 2 ^ 31 ≤ k := by
    intro k hk
    rw [Nat.zero_add]
    rcases Nat.lt_or_ge k (2 ^ 31) with hlt | hge
    · exact .inl ⟨asI32_of_lt (by omega) (by omega), hlt⟩
    · exact .inr ⟨asI32_of_ge (by omega) (by omega), hge⟩
  rcases hwraps i (by omega) with ⟨hi, _⟩ | ⟨hi, _⟩ <;>
    rcases hwraps j (by omega) with ⟨hj, _⟩ | ⟨hj, _⟩ <;> omega

theorem Owned.part_stored {db : Db} (h : Owned db) {now partNo : ℤ} {uploadId : Text}
    {pushes : List Bytes} (hup : db.uploads.find? uploadId ≠ none)
    (hseq : db.fileSeq < maxFileId) (hdistinct : DistinctRows pushes.flatten) :
    (ingest sha256 db now (.part uploadId partNo) pushes).2 =
      .stored pushes.flatten.length (sha256 pushes.flatten) := by
  have hfresh : ∀ a ∈ rowsOf (db.fileSeq + 1) pushes.flatten, ∀ c ∈ db.chunks,
      ChunkRow.primaryKey c ≠ ChunkRow.primaryKey a := by
    intro a ha c hc heq
    have hdrawn := h.drawn _ (h.covered c hc)
    have hfile : c.fileId = a.fileId := congrArg Prod.fst heq
    rw [fileId_of_mem_rowsOf ha] at hfile
    omega
  obtain ⟨chunks, hchunks⟩ := Table.exists_insertAll? (nodup_of_distinct hdistinct) hfresh
  have hnonneg := h.seq_nonneg
  have hmax : maxFileId = 2 ^ 63 - 1 := rfl
  have hdraw : nextval db = .ok (db.fileSeq + 1, Pgvs3.drawn db) :=
    nextval_ok_iff.mpr ⟨hseq, rfl, rfl⟩
  obtain ⟨db', hpublish⟩ : ∃ db', publish { Pgvs3.drawn db with chunks := chunks } now
      (.part uploadId partNo) (db.fileSeq + 1) pushes.flatten.length
        (sha256 pushes.flatten) = .ok db' := ⟨_, commitPart_ok_iff.mpr ⟨hup, rfl⟩⟩
  have hwriter : ingestWriter sha256 (Pgvs3.drawn db) now (db.fileSeq + 1) (.part uploadId partNo)
      pushes = .ok (db', pushes.flatten.length, sha256 pushes.flatten) :=
    (ingestWriter_ok_iff (by omega) (by omega)).mpr
      ⟨rfl, rfl, rfl, chunks, hchunks, hpublish⟩
  simp only [ingest, hdraw, hwriter]

theorem Ledger.apply_written_of_le (l : Ledger) (op : Op) {f : ℤ} (h : f ≤ l.db.fileSeq) :
    (l.apply sha256 op).written f = l.written f := by
  simp only [Ledger.apply]
  cases op.body? with
  | none => rfl
  | some body => exact Function.update_of_ne (by omega) _ _

theorem Ledger.apply_written_new (l : Ledger) {op : Op} {body : Bytes} (h : op.body? = some body) :
    (l.apply sha256 op).written (l.db.fileSeq + 1) = body := by
  simp [Ledger.apply, h]

theorem Ledger.mem_reaped_apply (l : Ledger) (op : Op) {f : ℤ}
    (h : f ∈ (l.apply sha256 op).reaped) :
    f ∈ l.reaped ∨ ∃ p ∈ (l.apply sha256 op).db.uploadParts, p.fileId = f := by
  cases op with
  | expireUploads now budget =>
      rcases List.mem_append.mp h with h | h
      · exact .inl h
      · obtain ⟨p, hp, hpf⟩ := List.mem_map.mp (List.mem_filter.mp h).1
        exact .inr ⟨p, hp, hpf⟩
  | _ => exact .inl h

theorem Ledger.reaped_subset_apply (l : Ledger) (op : Op) :
    l.reaped ⊆ (l.apply sha256 op).reaped := by
  cases op with
  | expireUploads now budget => exact List.subset_append_left _ _
  | _ => exact List.Subset.refl _

theorem Consistent.step {l : Ledger} (h : Consistent sha256 l) (op : Op) :
    Consistent sha256 (l.apply sha256 op) := by
  set l' := l.apply sha256 op with hl'
  have hc : Change sha256 l.db op l'.db := change_apply sha256 l.db op h.owned.seq_nonneg
  have howned : Owned l'.db := h.owned.change hc
  have hwritten : ∀ f, f ≤ l.db.fileSeq → l'.written f = l.written f := fun f hf =>
    l.apply_written_of_le op hf
  have hnew : ∀ body, op.body? = some body → l'.written (l.db.fileSeq + 1) = body := fun body hb =>
    l.apply_written_new hb
  have hle : ∀ f ∈ ownedFiles l.db, f ≤ l.db.fileSeq := h.owned.drawn
  have hobjectFiles : ∀ r ∈ l.db.objects, ∀ f ∈ r.files, f ≤ l.db.fileSeq := fun r hr f hf =>
    hle f (mem_ownedFiles.mpr (.inl ⟨r, hr, hf⟩))
  have hpartFile : ∀ p ∈ l.db.uploadParts, p.fileId ≤ l.db.fileSeq := fun p hp =>
    hle _ (mem_ownedFiles.mpr (.inr ⟨p, hp, rfl⟩))
  refine ⟨howned, ?_, ?_, ?_, ?_, ?_, ?_⟩
  · -- chunks
    intro c hcmem
    rcases hc.mem_chunks hcmem with hold | ⟨body, hbody, hrow⟩
    · rw [hwritten _ (hle _ (h.owned.covered c hold))]
      exact h.chunks c hold
    · have hid := fileId_of_mem_rowsOf hrow
      rw [hid, hnew body hbody]
      exact hrow
  · -- parts
    intro p hp
    rcases hc.mem_uploadParts hp with hold | ⟨body, hbody, heq⟩
    · rw [hwritten _ (hpartFile p hold)]
      exact h.parts p hold
    · have hid : p.fileId = l.db.fileSeq + 1 := by rw [heq]; rfl
      rw [hid, hnew body hbody]
      exact heq
  · -- objects
    intro r hr
    rcases hc.mem_objects hr with hold | ⟨now, bucket, key, condition, pushes, rfl, rfl⟩ |
      ⟨now, uploadId, bucket, key, listed, rfl, -, rfl⟩
    · exact (h.objects r hold).congr fun f hf => hwritten f (hobjectFiles r hold f hf)
    · exact holds_putWrite _ (hnew _ rfl) now bucket key
    · refine holds_completeWrite (fun p hp => ?_) now bucket key
      have hp := (mem_recordedParts.mp hp).1
      rw [hwritten _ (hpartFile p hp), h.parts p hp]
      rfl
  · -- distinct
    intro f hf
    rcases le_or_gt f l.db.fileSeq with hold | hfresh
    · rw [hwritten f hold]
      exact h.distinct f (hc.keeps h.owned hf hold).1
    · obtain ⟨rfl, body, hbody, hnodup, -⟩ := hc.new_file h.owned hf hfresh
      rw [hnew body hbody]
      exact distinct_of_nodup hnodup
  · -- reaped files were drawn
    intro f hf
    rcases l.mem_reaped_apply op hf with hf | ⟨p, hp, rfl⟩
    · exact (h.reaped_drawn f hf).trans hc.fileSeq_le
    · exact howned.drawn _ (mem_ownedFiles.mpr (.inr ⟨p, hp, rfl⟩))
  · -- whole
    intro f hf hnot c hcmem
    rcases le_or_gt f l.db.fileSeq with hold | hfresh
    · obtain ⟨hfowned, hkeep⟩ := hc.keeps h.owned hf hold
      rw [hwritten f hold] at hcmem
      have hold' := h.whole f hfowned (fun hr => hnot (l.reaped_subset_apply op hr)) c hcmem
      by_contra hlost
      have hid := fileId_of_mem_rowsOf hcmem
      obtain ⟨-, ⟨now, budget, rfl⟩, p, hp, hpf⟩ := hkeep c hold' hid hlost
      refine hnot (List.mem_append_right _ (List.mem_filter.mpr ⟨List.mem_map.mpr ⟨p, hp, hpf⟩, ?_⟩))
      rw [List.any_eq_true]
      have hlost' : c ∉ (apply sha256 l.db (.expireUploads now budget)).1.chunks.rows := hlost
      exact ⟨c, hold', by simp [hid, hlost']⟩
    · obtain ⟨rfl, body, hbody, -, hrows⟩ := hc.new_file h.owned hf hfresh
      rw [hnew body hbody] at hcmem
      exact hrows c hcmem

theorem Consistent.trace {l l' : Ledger} {ops : List Op} (h : Consistent sha256 l)
    (ht : Trace (LedgerStep sha256) l ops l') : Consistent sha256 l' := by
  refine ht.invariant (fun l op l' hl hs => ?_) h
  subst hs
  exact hl.step op

theorem Consistent.run {l : Ledger} (h : Consistent sha256 l) (ops : List Op) :
    Consistent sha256 (l.run sha256 ops) :=
  h.trace (trace_iff_ledger_run.mpr rfl)

end Pgvs3
