import Pgvs3.Verification.Concurrency.Statements

/-! # Deleting the chunk rows of files

A scan over the rows of covered files takes all of them: nobody else adds a row to such a
file, so what the scan does not find is not there at the end either. -/

namespace Pgvs3

open Library

variable {hash : Text → Text → ℤ} {sha256 : Bytes → Bytes} {job : Job} {held : List Lock}
  {ws : List Write} {db : Db}

/-! ## Chunk rows -/

/-- No COPY among the writes puts rows of file `f`. -/
def NoCopy (ws : List Write) (f : ℤ) : Prop :=
  ∀ rows, .copy rows ∈ ws → ∀ c ∈ rows, c.fileId ≠ f

theorem mem_write_chunks {db : Db} {w : Write} {c : ChunkRow}
    (h : ∀ rows, w = .copy rows → ∀ d ∈ rows, d.fileId ≠ c.fileId) :
    c ∈ (db.write w).chunks ↔ c ∈ db.chunks ∧ w ≠ .remove (.chunk c.fileId c.no) := by
  match w, h with
  | .putBucket _, _ | .putObject _, _ | .putUpload _, _ | .putPart _, _ => simp [Db.write]
  | .copy rows, h =>
      have hnot : c ∉ rows := fun hc => h rows rfl c hc rfl
      simp only [Db.write]
      split
      · rename_i chunks hins
        simp [Table.mem_insertAll? hins, hnot]
      · simp
  | .remove (.chunk fileId no), _ =>
      simp only [Db.write, Table.mem_deleteWhere, ChunkRow.primaryKey, decide_eq_false_iff_not,
        Prod.mk.injEq, ne_eq, Write.remove.injEq, Slot.chunk.injEq]
      refine and_congr_right fun _ => not_congr ⟨?_, ?_⟩
      · rintro ⟨rfl, rfl⟩
        exact ⟨rfl, rfl⟩
      · rintro ⟨rfl, rfl⟩
        exact ⟨rfl, rfl⟩
  | .remove (.bucket _), _ | .remove (.object _ _), _ | .remove (.upload _), _ => simp [Db.write]
  | .remove (.uploadKey _ _), _ | .remove (.part _ _), _ => simp [Db.write]

theorem mem_after_chunks {db : Db} {ws : List Write} {c : ChunkRow} (h : NoCopy ws c.fileId) :
    c ∈ (db.after ws).chunks ↔ c ∈ db.chunks ∧ .remove (.chunk c.fileId c.no) ∉ ws := by
  induction ws generalizing db with
  | nil => simp
  | cons w ws ih =>
      have hw : ∀ rows, w = .copy rows → ∀ d ∈ rows, d.fileId ≠ c.fileId :=
        fun rows hrows => h rows (by simp [hrows])
      have hrest : NoCopy ws c.fileId := fun rows hrows => h rows (List.mem_cons_of_mem _ hrows)
      rw [after_cons, ih hrest, mem_write_chunks hw, and_assoc, List.mem_cons, not_or, eq_comm]

theorem holds_chunk_iff {db : Db} {fileId no : ℤ} :
    db.holds (.chunk fileId no) = true ↔ ∃ c ∈ db.chunks, c.fileId = fileId ∧ c.no = no := by
  simp only [Db.holds, Option.isSome_iff_exists, Table.find?_eq_some_iff, ChunkRow.primaryKey,
    Prod.mk.injEq]

theorem mem_chunkSlots {p : ChunkRow → Bool} {db : Db} {t : Slot} :
    t ∈ Sql.chunkSlots p db ↔ ∃ c ∈ db.chunks, p c = true ∧ t = .chunk c.fileId c.no := by
  simp only [Sql.chunkSlots, List.mem_map, List.mem_filter, Table.mem_def]
  constructor
  · rintro ⟨c, ⟨hc, hp⟩, rfl⟩
    exact ⟨c, hc, hp, rfl⟩
  · rintro ⟨c, hc, hp, rfl⟩
    exact ⟨c, ⟨hc, hp⟩, rfl⟩

theorem Erasable.add_chunks {f : ℤ} {gone : List Slot} (h : Erasable hash held db f)
    (hgone : ∀ t ∈ gone, ∃ f no, t = .chunk f no) :
    Erasable hash (held ++ deleteLocks gone) db f := by
  have hsub : held ⊆ held ++ deleteLocks gone := List.subset_append_left _ _
  rcases h with h | ⟨h, hdepth⟩
  · exact .inl (h.weaken hsub)
  · refine .inr ⟨h.weaken hsub, fun l hl => ?_⟩
    rcases List.mem_append.mp hl with hl | hl
    · exact hdepth l hl
    · obtain ⟨t, ht, rfl⟩ := List.mem_map.mp hl
      obtain ⟨f, no, rfl⟩ := hgone t ht
      exact .inr rfl

theorem deletable_chunks {targets : List Slot}
    (h : ∀ t ∈ targets, ∃ f no, t = .chunk f no ∧ Erasable hash held db f ∧ NoCopy ws f) :
    Deletable hash job held ws db targets where
  isRow := by
    intro t ht
    obtain ⟨f, no, rfl, _⟩ := h t ht
    rfl
  stays := by
    intro t ht db₁ db₂ h₁ h₂ _ hgone
    obtain ⟨f, no, rfl, herase, hcopy⟩ := h t ht
    by_contra hholds
    rw [Bool.not_eq_false] at hholds
    obtain ⟨c, hc, rfl, rfl⟩ := holds_chunk_iff.mp hholds
    obtain ⟨hc, hkept⟩ := (mem_after_chunks hcopy).mp hc
    have hold := h₂.grown _ (herase.covered.mono h₁) c hc rfl
    rw [holds_chunk_iff.mpr ⟨c, (mem_after_chunks hcopy).mpr ⟨hold, hkept⟩, rfl, rfl⟩] at hgone
    simp at hgone
  asked := by
    intro t ht gone db₁ hgone h₁ _
    obtain ⟨f, no, rfl, herase, _⟩ := h t ht
    refine (herase.mono h₁).add_chunks fun u hu => ?_
    obtain ⟨f, no, rfl, _⟩ := h u (hgone hu)
    exact ⟨f, no, rfl⟩
  taken := by
    intro t ht held' db₁ hsub h₁ _
    obtain ⟨f, no, rfl, herase, _⟩ := h t ht
    exact (herase.covered.mono h₁).weaken hsub

theorem goesOn_deleteChunks {p : ChunkRow → Bool} {next : ℕ → Sql}
    (h : ∀ db₁, Rely hash held db db₁ → Admissible db₁ →
      (∀ c ∈ (db₁.after ws).chunks, p c = true →
        Erasable hash held db₁ c.fileId ∧ NoCopy ws c.fileId) ∧
      ∀ gone db₂, gone ⊆ Sql.chunkSlots p (db₁.after ws) → Rely hash held db₁ db₂ →
        Admissible db₂ →
        (∀ c ∈ (db₂.after ws).chunks, p c = true → Covered hash held db₁ c.fileId →
          NoCopy ws c.fileId → .chunk c.fileId c.no ∈ gone) →
        GoesOn hash sha256 job (next gone.length) (held ++ deleteLocks gone)
          (ws ++ gone.map .remove) db₂) :
    GoesOn hash sha256 job (Sql.deleteChunks p next) held ws db := by
  refine goesOn_deleteRows fun db₁ hrely hdb₁ => ?_
  obtain ⟨hcovered, hnext⟩ := h db₁ hrely hdb₁
  refine ⟨deletable_chunks ?_, ?_⟩
  · intro t ht
    obtain ⟨c, hc, hp, rfl⟩ := mem_chunkSlots.mp ht
    obtain ⟨hcov, hcopy⟩ := hcovered c hc hp
    exact ⟨_, _, rfl, hcov, hcopy⟩
  · intro gone db₂ hgone hrely₂ hdb₂ hdone
    refine hnext gone db₂ hgone hrely₂ hdb₂ fun c hc hp hcov hcopy => ?_
    obtain ⟨hmem, hkept⟩ := (mem_after_chunks hcopy).mp hc
    have hold := hrely₂.grown _ hcov c hmem rfl
    have hseen : c ∈ (db₁.after ws).chunks := (mem_after_chunks hcopy).mpr ⟨hold, hkept⟩
    refine (hdone _ (mem_chunkSlots.mpr ⟨c, hseen, hp, rfl⟩)).resolve_right ?_
    rw [holds_chunk_iff.mpr ⟨c, hc, rfl, rfl⟩]
    simp

/-! ## All rows of some files -/

/-- The scan `gone` has taken all rows of the files, and no others. -/
structure Reaped (db : Db) (files : List ℤ) (gone : List Slot) : Prop where
  all : ∀ c ∈ db.chunks, c.fileId ∈ files → .chunk c.fileId c.no ∈ gone
  only : ∀ t ∈ gone, ∃ f no, t = .chunk f no ∧ f ∈ files

theorem Reaped.mono {db db' : Db} {files : List ℤ} {gone : List Slot} (h : Reaped db files gone)
    (hcov : ∀ f ∈ files, Covered hash held db f) (hrely : Rely hash held db db') :
    Reaped db' files gone where
  all := fun c hc hf => h.all c (hrely.grown _ (hcov _ hf) c hc rfl) hf
  only := h.only

theorem goesOn_deleteFiles {p : ChunkRow → Bool} {next : Sql} (files : List ℤ)
    (hp : ∀ c, p c = true ↔ c.fileId ∈ files)
    (herase : ∀ db₁, Rely hash held db db₁ → Admissible db₁ →
      ∀ f ∈ files, Erasable hash held db₁ f ∧ NoCopy ws f)
    (hws : ∀ f no, .remove (.chunk f no) ∉ ws)
    (hnext : ∀ gone db₁, Rely hash held db db₁ → Admissible db₁ → Reaped db₁ files gone →
      GoesOn hash sha256 job next (held ++ deleteLocks gone) (ws ++ gone.map .remove) db₁) :
    GoesOn hash sha256 job (Sql.deleteChunks p fun _ => next) held ws db := by
  refine goesOn_deleteChunks fun db₁ hrely hdb₁ => ⟨?_, ?_⟩
  · intro c _ hdead
    exact herase db₁ hrely hdb₁ _ ((hp c).mp hdead)
  · intro gone db₂ hgone hrely₂ hdb₂ hall
    refine hnext gone db₂ (hrely.trans hrely₂) hdb₂ ⟨?_, ?_⟩
    · intro c hc hf
      obtain ⟨herase, hno⟩ := herase db₁ hrely hdb₁ _ hf
      exact hall c ((mem_after_chunks hno).mpr ⟨hc, hws _ _⟩) ((hp c).mpr hf) herase.covered hno
    · intro t ht
      obtain ⟨c, _, hdead, rfl⟩ := mem_chunkSlots.mp (hgone ht)
      exact ⟨_, _, rfl, (hp c).mp hdead⟩

theorem without_chunkSlots {slots : List Slot} (h : ∀ t ∈ slots, ∃ f no, t = .chunk f no) :
    db.without slots =
      { db with chunks := db.chunks.deleteWhere fun c => .chunk c.fileId c.no ∈ slots } := by
  induction slots generalizing db with
  | nil => simp
  | cons slot slots ih =>
      obtain ⟨f, no, rfl⟩ := h slot (List.mem_cons_self ..)
      rw [without_cons, ih fun t ht => h t (List.mem_cons_of_mem _ ht)]
      simp only [Db.write, deleteWhere_deleteWhere]
      congr 1
      exact deleteWhere_congr fun c _ => by simp [ChunkRow.primaryKey, Bool.decide_or]

theorem Reaped.chunkSlots {files : List ℤ} {gone : List Slot} (h : Reaped db files gone) :
    ∀ t ∈ gone, ∃ f no, t = .chunk f no := by
  intro t ht
  obtain ⟨f, no, rfl, _⟩ := h.only t ht
  exact ⟨f, no, rfl⟩

/-- A scan that has reaped a version deletes the rows of its files. -/
theorem Reaped.deleteWhere_eq {files : List ℤ} {gone : List Slot} (h : Reaped db files gone)
    (chunks : Table ChunkRow.primaryKey)
    (hchunks : ∀ c ∈ chunks, c ∈ db.chunks ∨ c.fileId ∉ files) :
    (chunks.deleteWhere fun c => .chunk c.fileId c.no ∈ gone) =
      chunks.deleteWhere fun c => c.fileId ∈ files := by
  refine deleteWhere_congr fun c hc => decide_eq_decide.mpr ⟨?_, ?_⟩
  · intro hmem
    obtain ⟨f, no, heq, hf⟩ := h.only _ hmem
    cases heq
    exact hf
  · intro hf
    exact h.all c ((hchunks c hc).resolve_right (not_not_intro hf)) hf

end Pgvs3
