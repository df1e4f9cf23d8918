import Pgvs3.Verification.Read.GetBody

/-! # Published objects stay readable

An object keeps all rows of its files as long as no Complete publishes a part that an
expiry has begun to delete. -/

namespace Pgvs3

open Library

variable {sha256 : Bytes → Bytes}

/-- `parts` and `part_ends` agree with each other and with the other columns. -/
def ObjectRow.WellFormed (r : ObjectRow) : Prop :=
  match r.parts, r.partEnds with
  | none, none => True
  | some ids, some ends => ids.length = ends.length ∧ ids.head? = some r.fileId ∧
      ends.Pairwise (· ≤ ·) ∧ ends.getLast? = some r.size
  | _, _ => False

/-- The chunk rows of a segment are numbered from 0, all full but the last. -/
structure SegmentWhole (db : Db) (fileId len : ℤ) : Prop where
  rows : ∀ no, (∃ c ∈ db.chunks, c.fileId = fileId ∧ c.no = no) ↔
    0 ≤ no ∧ no < blockCount rowBytes len.toNat
  data : ∀ c ∈ db.chunks, c.fileId = fileId →
    (c.data.length : ℤ) = min ↑rowBytes (len - c.no * rowBytes) ∧ 0 < c.data.length

/-! ## Cumulative ends -/

theorem cumulate_getLast? (total : ℤ) {l : List ℤ} (h : l ≠ []) :
    (cumulate total l).getLast? = some (total + l.sum) := by
  induction l generalizing total with
  | nil => exact (h rfl).elim
  | cons n l ih =>
      cases l with
      | nil => simp [cumulate]
      | cons m l =>
          have hrest := ih (total + n) (by simp)
          rw [cumulate]
          rw [cumulate] at hrest ⊢
          rw [List.getLast?_cons_cons, hrest]
          simp [add_assoc]

theorem le_of_mem_cumulate {total : ℤ} {l : List ℤ} (h : ∀ n ∈ l, 0 ≤ n) :
    ∀ e ∈ cumulate total l, total ≤ e := by
  induction l generalizing total with
  | nil => simp [cumulate]
  | cons n l ih =>
      have hn : 0 ≤ n := h n (by simp)
      have hrest := @ih (total + n) fun m hm => h m (by simp [hm])
      intro e he
      rcases List.mem_cons.mp he with rfl | he
      · omega
      · exact le_trans (by omega) (hrest e he)

theorem pairwise_cumulate (total : ℤ) {l : List ℤ} (h : ∀ n ∈ l, 0 ≤ n) :
    (cumulate total l).Pairwise (· ≤ ·) := by
  induction l generalizing total with
  | nil => exact List.Pairwise.nil
  | cons n l ih =>
      have hrest : ∀ m ∈ l, 0 ≤ m := fun m hm => h m (by simp [hm])
      exact List.Pairwise.cons (le_of_mem_cumulate hrest) (ih _ hrest)

theorem ObjectRow.Holds.wellFormed {r : ObjectRow} {written : ℤ → Bytes} (h : r.Holds written)
    (hhead : r.files.head? = some r.fileId) : r.WellFormed := by
  have hsize := h.size_eq
  have hends := h.ends_eq
  unfold ObjectRow.files at hsize hhead
  unfold ObjectRow.WellFormed
  cases hp : r.parts with
  | none => simp [hends, hp]
  | some ids =>
      rw [hp] at hsize hhead
      rw [hp, Option.map_some] at hends
      have hne : ids.map (fun f => ((written f).length : ℤ)) ≠ [] := by
        rintro hnil
        rw [List.map_eq_nil_iff] at hnil
        simp [hnil] at hhead
      simp only [hends]
      refine ⟨by simp, hhead, pairwise_cumulate 0 (by simp), ?_⟩
      rw [cumulate_getLast? 0 hne, zero_add, hsize, List.length_flatMap]
      push_cast [List.map_map]
      rfl

/-! ## Whole files -/

theorem FileIs.segmentWhole {db : Db} {f : ℤ} {body : Bytes} (h : FileIs db f body)
    (hfew : FewRows body) : SegmentWhole db f body.length where
  rows := by
    intro no
    rw [Int.toNat_natCast]
    have hsmall : blockCount rowBytes body.length < 2 ^ 31 := hfew
    constructor
    · rintro ⟨c, hc, hf, rfl⟩
      obtain ⟨i, hi, rfl⟩ := mem_rowsOf.mp ((h c hf).mp hc)
      rw [asI32_of_lt (by omega) (by omega)]
      dsimp only
      omega
    · rintro ⟨h0, hlt⟩
      refine ⟨⟨f, asI32 ↑no.toNat, block rowBytes body no.toNat⟩, ?_, rfl, ?_⟩
      · exact (h _ rfl).mpr (mem_rowsOf.mpr ⟨no.toNat, by omega, rfl⟩)
      · rw [asI32_of_lt (by omega) (by omega)]
        exact Int.toNat_of_nonneg h0
  data := by
    intro c hc hf
    have hsmall : blockCount rowBytes body.length < 2 ^ 31 := hfew
    obtain ⟨i, hi, rfl⟩ := mem_rowsOf.mp ((h c hf).mp hc)
    have hpos := length_block_pos rowBytes_pos hi
    refine ⟨?_, hpos⟩
    have hlen := @length_block _ rowBytes body i
    have hlt := (lt_blockCount_iff rowBytes_pos).mp hi
    rw [asI32_of_lt (by omega) (by omega)]
    have hcast : (i : ℤ) * rowBytes = ((i * rowBytes : ℕ) : ℤ) := by push_cast; rfl
    dsimp only
    rw [hlen, hcast]
    omega

theorem mem_layout {written : ℤ → Bytes} {base : ℤ} {files : List ℤ} {s : ℤ × ℤ × ℤ}
    (h : s ∈ layout written base files) : s.1 ∈ files ∧ s.2.2 = (written s.1).length := by
  induction files generalizing base with
  | nil => simp [layout] at h
  | cons f fs ih =>
      rcases List.mem_cons.mp h with rfl | h
      · simp
      · exact ⟨List.mem_cons_of_mem _ (ih h).1, (ih h).2⟩

theorem exists_mem_layout {written : ℤ → Bytes} {base : ℤ} {files : List ℤ} {f : ℤ}
    (h : f ∈ files) : ∃ s ∈ layout written base files, s.1 = f := by
  induction files generalizing base with
  | nil => simp at h
  | cons g fs ih =>
      rcases List.mem_cons.mp h with rfl | h
      · exact ⟨_, List.mem_cons_self, rfl⟩
      · obtain ⟨s, hs, hf⟩ := @ih (base + (written g).length) h
        exact ⟨s, List.mem_cons_of_mem _ hs, hf⟩

/-! ## The condition on Complete -/

/-- An accepted Complete finds no recorded part that an expiry has begun to delete. -/
def IntactComplete (l : Ledger) (op : Op) : Prop :=
  match op with
  | .completeUpload _ uploadId bucket key listed =>
      CompleteAccepts l.db uploadId bucket key listed →
        ∀ p ∈ recordedParts l.db uploadId, p.fileId ∉ l.reaped
  | _ => True

/-- No expiry has begun to delete a file of an object. -/
def Live (l : Ledger) : Prop := ∀ r ∈ l.db.objects, ∀ f ∈ r.files, f ∉ l.reaped

theorem Live.step {l : Ledger} (hc : Consistent sha256 l) (h : Live l) {op : Op}
    (hintact : IntactComplete l op) : Live (l.apply sha256 op) := by
  have hc' := hc.step op
  have hchange : Change sha256 l.db op (l.apply sha256 op).db :=
    change_apply sha256 l.db op hc.owned.seq_nonneg
  intro r hr f hf hreaped
  rcases l.mem_reaped_apply op hreaped with hold | ⟨p, hp, rfl⟩
  · rcases hchange.mem_objects hr with hr | ⟨now, bucket, key, condition, pushes, -, rfl⟩ |
      ⟨now, uploadId, bucket, key, listed, rfl, haccept, rfl⟩
    · exact h r hr f hf hold
    · obtain rfl : f = l.db.fileSeq + 1 := List.mem_singleton.mp hf
      have := hc.reaped_drawn _ hold
      omega
    · obtain ⟨p, hp, rfl⟩ := List.mem_map.mp hf
      exact hintact haccept p hp hold
  · exact hc'.owned.object_part_disjoint hr hp hf

theorem live_trace {l l' : Ledger} {ops : List Op} (hc : Consistent sha256 l) (h : Live l)
    (ht : Trace (Guarded IntactComplete (LedgerStep sha256)) l ops l') : Live l' := by
  refine ht.invariant₂ (I := Consistent sha256) ?_ ?_ hc h
  · rintro l op l' hc ⟨-, rfl⟩
    exact hc.step op
  · rintro l op l' hc h ⟨hintact, rfl⟩
    exact h.step hc hintact

theorem live_empty : Live Ledger.empty := by
  simp [Live, Ledger.empty, Db.empty]

theorem Live.fileIs {l : Ledger} (hc : Consistent sha256 l) (h : Live l) {r : ObjectRow}
    (hr : r ∈ l.db.objects) {f : ℤ} (hf : f ∈ r.files) : FileIs l.db f (l.written f) :=
  hc.fileIs (mem_ownedFiles.mpr (.inl ⟨r, hr, hf⟩)) (h r hr f hf)

/-- What it means for an object row to be readable in full. -/
structure Readable (l : Ledger) (r : ObjectRow) : Prop where
  wellFormed : r.WellFormed
  whole : ∀ s ∈ r.meta.segments, blockCount rowBytes s.2.2.toNat < 2 ^ 31 →
    SegmentWhole l.db s.1 s.2.2
  served : (∀ s ∈ r.meta.segments, blockCount rowBytes s.2.2.toNat < 2 ^ 31) →
    ∀ (env : Fin 2 → Attempt) (c : MetaCache) (first last suffix : ℤ),
      (∀ i, AtRest l.db r.bucket r.key (env i)) → CachesRow c r.bucket r.key r →
        ∃ now, (now = r.createdAt ∨ c.get r.bucket r.key = some (r.metaAt now)) ∧
          get env r.bucket r.key first last suffix c =
            .ok (some ((r.metaAt now).slice (r.files.flatMap l.written) first last suffix))

/-- In every run whose Completes find their parts intact, every object is readable in
every state reached. -/
theorem objects_stay_readable {l : Ledger} {ops : List Op}
    (h : Trace (Guarded IntactComplete (LedgerStep sha256)) Ledger.empty ops l) :
    ∀ r ∈ l.db.objects, Readable l r := by
  have hc : Consistent sha256 l := consistent_empty.trace h.of_guarded
  have hlive : Live l := live_trace consistent_empty live_empty h
  intro r hr
  have hholds := hc.objects r hr
  have hsegments := hholds.describes.segments_eq
  refine ⟨hholds.wellFormed (hc.owned.head r hr), ?_, ?_⟩
  · intro s hs hfew
    rw [hsegments] at hs
    obtain ⟨hf, hlen⟩ := mem_layout hs
    rw [hlen] at hfew ⊢
    rw [Int.toNat_natCast] at hfew
    exact (hlive.fileIs hc hr hf).segmentWhole hfew
  · intro hfew env c first last suffix henv hcache
    have hfew' : ∀ f ∈ r.files, FewRows (l.written f) := by
      intro f hf
      obtain ⟨s, hs, rfl⟩ : ∃ s ∈ layout l.written 0 r.files, s.1 = f := exists_mem_layout hf
      have hsmall := hfew s (hsegments ▸ hs)
      rwa [(mem_layout hs).2, Int.toNat_natCast] at hsmall
    exact get_whole (Table.find?_eq_some_iff.mpr ⟨hr, rfl⟩) hholds hfew'
      (fun f hf => hlive.fileIs hc hr hf) henv hcache first last suffix

/-- A PUT beside a multipart upload of two parts, one of them empty. -/
def smallRun : List Op :=
  [.createBucket 0 ['b'], .put 1 ['b'] ['p'] .unconditional [[1, 2], [3]],
    .createUpload 2 ['u'] ['b'] ['k'], .uploadPart 3 ['u'] 2 [[4]], .uploadPart 4 ['u'] 1 [],
    .completeUpload 5 ['u'] ['b'] ['k'] [(2, hex [4]), (1, hex [])]]

theorem objects_stay_readable_smallRun :
    (Ledger.run id Ledger.empty smallRun).db.objects.rows.length = 2 ∧
      ∀ r ∈ (Ledger.run id Ledger.empty smallRun).db.objects,
        Readable (Ledger.run id Ledger.empty smallRun) r := by
  refine ⟨by decide +kernel, @objects_stay_readable id _ smallRun ?_⟩
  refine .cons ⟨trivial, rfl⟩ (.cons ⟨trivial, rfl⟩ (.cons ⟨trivial, rfl⟩
    (.cons ⟨trivial, rfl⟩ (.cons ⟨trivial, rfl⟩ (.cons ⟨?_, rfl⟩ (.nil _))))))
  intro _ p _
  exact List.not_mem_nil

/-- A part of one row, an expiry with a budget of one row, and a Complete of that part. -/
def expiryRun : List Op :=
  [.createBucket 0 ['b'], .createUpload 0 ['u'] ['b'] ['k'], .uploadPart 1 ['u'] 1 [[7]],
    .expireUploads 10 ⟨some 0, some 1, none⟩, .completeUpload 11 ['u'] ['b'] ['k'] [(1, hex [7])]]

/-- The object that Complete then publishes has lost its only row. -/
theorem expired_part_published :
    ¬ ∀ (sha256 : Bytes → Bytes) (ops : List Op),
      ∀ r ∈ (Ledger.run sha256 Ledger.empty ops).db.objects,
        Readable (Ledger.run sha256 Ledger.empty ops) r := by
  intro hall
  have hrow : (⟨['b'], ['k'], 1, 1, [7], 11, some [1], some [1]⟩ : ObjectRow) ∈
      (Ledger.run id Ledger.empty expiryRun).db.objects := by decide +kernel
  have hchunks : (Ledger.run id Ledger.empty expiryRun).db.chunks.rows = [] := by decide +kernel
  have hwhole := (hall id expiryRun _ hrow).whole (1, 0, 1) (by decide) (by decide +kernel)
  obtain ⟨c, hc, -⟩ := (hwhole.rows 0).mpr ⟨le_rfl, by decide +kernel⟩
  rw [Table.mem_def, hchunks] at hc
  exact List.not_mem_nil hc

end Pgvs3
