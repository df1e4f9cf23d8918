import Pgvs3.Verification.Concurrency.Objects

/-! # Multipart transactions under the terms -/

namespace Pgvs3

open Library

variable {hash : Text → Text → ℤ} {sha256 : Bytes → Bytes} {job : Job} {held : List Lock}
  {ws : List Write} {db : Db}

/-! ## Part records -/

theorem mem_write_parts {db : Db} {w : Write} {p : UploadPartRow} (h : ∀ row, w ≠ .putPart row) :
    p ∈ (db.write w).uploadParts ↔ p ∈ db.uploadParts ∧ w ≠ .remove (.part p.uploadId p.partNo) := by
  by_cases hw : w.table = .uploadParts
  · match w, hw, h with
    | .putPart row, _, h => exact (h row rfl).elim
    | .remove (.part uploadId partNo), _, _ =>
        simp only [Db.write, Table.mem_deleteWhere, UploadPartRow.primaryKey,
          decide_eq_false_iff_not, Prod.mk.injEq, ne_eq, Write.remove.injEq, Slot.part.injEq]
        refine and_congr_right fun _ => not_congr ⟨?_, ?_⟩ <;> rintro ⟨rfl, rfl⟩ <;> exact ⟨rfl, rfl⟩
  · rw [write_uploadParts hw]
    refine (and_iff_left ?_).symm
    rintro rfl
    exact hw rfl

theorem mem_after_parts {db : Db} {ws : List Write} {p : UploadPartRow}
    (h : ∀ row, .putPart row ∉ ws) :
    p ∈ (db.after ws).uploadParts ↔
      p ∈ db.uploadParts ∧ .remove (.part p.uploadId p.partNo) ∉ ws := by
  induction ws generalizing db with
  | nil => simp
  | cons w ws ih =>
      have hw : ∀ row, w ≠ .putPart row := fun row hrow => h row (by simp [hrow])
      have hrest : ∀ row, .putPart row ∉ ws := fun row hrow => h row (List.mem_cons_of_mem _ hrow)
      rw [after_cons, ih hrest, mem_write_parts hw, and_assoc, List.mem_cons, not_or, eq_comm]

theorem holds_part_iff {db : Db} {uploadId : Text} {no : ℤ} :
    db.holds (.part uploadId no) = true ↔
      ∃ p ∈ db.uploadParts, p.uploadId = uploadId ∧ p.partNo = no := by
  simp only [Db.holds, Option.isSome_iff_exists, Table.find?_eq_some_iff, UploadPartRow.primaryKey,
    Prod.mk.injEq]

theorem mem_partSlots {uploadId : Text} {db : Db} {t : Slot} :
    t ∈ Sql.partSlots uploadId db ↔
      ∃ p ∈ db.uploadParts, p.uploadId = uploadId ∧ t = .part uploadId p.partNo := by
  simp only [Sql.partSlots, List.mem_map, List.mem_filter, decide_eq_true_eq, Table.mem_def]
  constructor
  · rintro ⟨p, ⟨hp, rfl⟩, rfl⟩
    exact ⟨p, hp, rfl, rfl⟩
  · rintro ⟨p, hp, rfl, rfl⟩
    exact ⟨p, ⟨hp, rfl⟩, rfl⟩

theorem deletable_parts {uploadId : Text} {targets : List Slot}
    (hlock : .row (.upload uploadId) .update ∈ held) (hws : ∀ row, .putPart row ∉ ws)
    (h : ∀ t ∈ targets, ∃ no, t = .part uploadId no) :
    Deletable hash job held ws db targets where
  isRow := by
    intro t ht
    obtain ⟨no, rfl⟩ := h t ht
    rfl
  stays := by
    intro t ht db₁ db₂ _ h₂ _ hgone
    obtain ⟨no, rfl⟩ := h t ht
    by_contra hholds
    rw [Bool.not_eq_false] at hholds
    obtain ⟨p, hp, rfl, rfl⟩ := holds_part_iff.mp hholds
    obtain ⟨hp, hkept⟩ := (mem_after_parts hws).mp hp
    have hold := (h₂.parts _ hlock p rfl).mp hp
    rw [holds_part_iff.mpr ⟨p, (mem_after_parts hws).mpr ⟨hold, hkept⟩, rfl, rfl⟩] at hgone
    simp at hgone
  asked := by
    intro t ht gone db₁ _ _ hholds
    obtain ⟨no, rfl⟩ := h t ht
    obtain ⟨p, hp, rfl, rfl⟩ := holds_part_iff.mp hholds
    obtain ⟨hp, _⟩ := (mem_after_parts hws).mp hp
    have hfind : db₁.uploadParts.find? (p.uploadId, p.partNo) = some p :=
      Table.find?_eq_some_iff.mpr ⟨hp, rfl⟩
    exact .inr (.inr ⟨rfl, List.mem_append_left _ hlock, by simp [hfind]⟩)
  taken := by
    intro t ht held' db₁ hsub _ _
    obtain ⟨no, rfl⟩ := h t ht
    exact .inl (hsub hlock)

/-- What the cascade leaves behind: it has deleted every part record of the upload that was
still there, each under its lock, and nothing else. -/
structure Cascaded (held : List Lock) (db : Db) (ws : List Write) (uploadId : Text)
    (gone : List Slot) : Prop where
  all : ∀ p ∈ (db.after ws).uploadParts, p.uploadId = uploadId → .part uploadId p.partNo ∈ gone
  only : ∀ t ∈ gone, ∃ p ∈ (db.after ws).uploadParts, p.uploadId = uploadId ∧
    t = .part uploadId p.partNo
  locked : ∀ t ∈ gone, .row t .delete ∈ held

theorem goesOn_deleteUpload {uploadId : Text} {next : Sql}
    (hlock : .row (.upload uploadId) .update ∈ held)
    (hthere : ∀ db₁, Rely hash held db db₁ → (db₁.after ws).uploads.find? uploadId ≠ none)
    (hws : ∀ row, .putPart row ∉ ws)
    (hnext : ∀ gone held₁ db₁, held ⊆ held₁ → Rely hash held db db₁ → Admissible db₁ →
      Cascaded held₁ db₁ ws uploadId gone →
      GoesOn hash sha256 job next held₁
        (ws ++ .remove (.upload uploadId) :: gone.map .remove) db₁) :
    GoesOn hash sha256 job (Sql.deleteUpload uploadId next) held ws db := by
  refine goesOn_deleteRow ?_ ?_
  · intro db₁ h₁ _ hnone
    exact (hthere db₁ h₁ hnone).elim
  · intro db₁ _ h₁ _ _
    refine ⟨.inr (.inl hlock), trivial, ?_⟩
    set held₁ := held ++ [.row (.upload uploadId) .delete] with hheld₁
    have hsub₁ : held ⊆ held₁ := List.subset_append_left _ _
    have hws₁ : ∀ row, .putPart row ∉ ws ++ [.remove (.upload uploadId)] := by simpa using hws
    have hsame : ∀ db : Db, (db.after (ws ++ [.remove (.upload uploadId)])).uploadParts =
        (db.after ws).uploadParts := by
      intro db
      rw [after_append]
      exact after_uploadParts (by simp [Write.table, Slot.table])
    refine goesOn_deleteRows fun db₂ h₂ _ => ⟨?_, ?_⟩
    · refine deletable_parts (hsub₁ hlock) hws₁ fun t ht => ?_
      obtain ⟨p, _, _, rfl⟩ := mem_partSlots.mp ht
      exact ⟨_, rfl⟩
    · intro gone db₃ hgone h₃ hdb₃ hdone
      have hcascaded : Cascaded (held₁ ++ deleteLocks gone) db₃ ws uploadId gone := by
        refine ⟨?_, ?_, ?_⟩
        · intro p hp hid
          have hp₃ := (mem_after_parts hws).mp hp
          have hp₂ : p ∈ (db₂.after (ws ++ [.remove (.upload uploadId)])).uploadParts := by
            rw [hsame]
            exact (mem_after_parts hws).mpr
              ⟨(h₃.parts uploadId (hsub₁ hlock) p hid).mp hp₃.1, hp₃.2⟩
          refine (hdone _ (mem_partSlots.mpr ⟨p, hp₂, hid, rfl⟩)).resolve_right ?_
          rw [holds_part_iff.mpr ⟨p, by rwa [hsame], hid, rfl⟩]
          simp
        · intro t ht
          obtain ⟨p, hp, hid, rfl⟩ := mem_partSlots.mp (hgone ht)
          rw [hsame] at hp
          have hp₂ := (mem_after_parts hws).mp hp
          exact ⟨p, (mem_after_parts hws).mpr
            ⟨(h₃.parts uploadId (hsub₁ hlock) p hid).mpr hp₂.1, hp₂.2⟩, hid, rfl⟩
        · intro t ht
          exact List.mem_append_right _ (List.mem_map.mpr ⟨t, ht, rfl⟩)
      have hgoes := hnext gone _ db₃ (fun l hl => List.mem_append_left _ (hsub₁ hl))
        (h₁.trans ((h₂.trans h₃).weaken hsub₁)) hdb₃ hcascaded
      rwa [List.append_cons] at hgoes

/-! ## Part uploads -/

theorem goesOn_insertPart {part : UploadPartRow} {next : Sql}
    (hjob : job.part? = some (part.uploadId, part.partNo))
    (hdepth : ∀ l ∈ held, l.depth = 0 ∨ l.depth = 6)
    (hfirst : (∀ l ∈ held, l.depth = 0) ∨ .row (.part part.uploadId part.partNo) .delete ∈ held)
    (hws : ∀ w ∈ ws, w.table ≠ .uploads)
    (hroom : ∀ db₁, Rely hash held db db₁ →
      (db₁.after ws).holds (.part part.uploadId part.partNo) = false →
      db₁.uploadParts.find? (part.uploadId, part.partNo) = none ∨
        .row (.part part.uploadId part.partNo) .delete ∈ held)
    (hforeign : ∀ db₁, Rely hash held db db₁ → Admissible db₁ →
      db₁.uploads.find? part.uploadId = none →
      Refused sha256 job db₁ (.failed .foreignKeyViolation))
    (hnext : ∀ held₁ db₁, held ⊆ held₁ → .row (.part part.uploadId part.partNo) .update ∈ held₁ →
      .row (.upload part.uploadId) .keyShare ∈ held₁ → Rely hash held db db₁ → Admissible db₁ →
      (db₁.uploadParts.find? (part.uploadId, part.partNo) = none ∨
        .row (.part part.uploadId part.partNo) .delete ∈ held) →
      db₁.uploads.find? part.uploadId ≠ none →
      GoesOn hash sha256 job next held₁ (ws ++ [.putPart part]) db₁) :
    GoesOn hash sha256 job (Sql.insertPart part next) held ws db := by
  have hasked : ∀ db mode, Asked hash held db (.row (.part part.uploadId part.partNo) mode) :=
    fun db mode => hfirst.imp_right .inl
  refine goesOn_insertRow ?_ ?_
  · intro db₁ h₁ hdb₁ hfree
    have hroom₁ := hroom db₁ h₁ hfree
    set slot : Slot := .part part.uploadId part.partNo with hslot
    set held₁ := held ++ [Lock.row slot .update] with hheld₁
    have hsub₁ : held ⊆ held₁ := List.subset_append_left _ _
    have hlock : Lock.row slot .update ∈ held₁ := by simp [hheld₁]
    refine ⟨hasked _ _, ⟨hjob, hroom₁.imp_right (hsub₁ ·)⟩, ?_⟩
    have huploads : ∀ db : Db, (db.after (ws ++ [.putPart part])).uploads = db.uploads := fun db =>
      after_uploads fun w hw => by
        rcases List.mem_append.mp hw with hw | hw
        · exact hws w hw
        · simp [List.mem_singleton.mp hw, Write.table]
    simp only [if_true]
    refine goesOn_lockRow ?_ ?_
    · intro db₂ h₂ hdb₂ hnone
      rw [huploads] at hnone
      exact goesOn_rollback (hforeign db₂ (h₁.trans (h₂.weaken hsub₁)) hdb₂ hnone)
    · intro db₂ up h₂ hdb₂ hsome
      rw [huploads] at hsome
      refine ⟨.inr (.inr ⟨rfl, ?_⟩), trivial, ?_⟩
      · intro l hl
        rcases List.mem_append.mp hl with hl | hl
        · exact hdepth l hl
        · exact .inr (by simp [List.mem_singleton.mp hl, hslot, Lock.depth])
      · refine hnext _ db₂ (fun l hl => List.mem_append_left _ (hsub₁ hl))
          (List.mem_append_left _ hlock) (by simp) (h₁.trans (h₂.weaken hsub₁)) hdb₂ ?_ (by simp [hsome])
        exact hroom₁.imp_left fun hnone =>
          (h₂.part _ _ .update (by decide) hlock).trans hnone
  · intro db₁ _ _ _
    refine ⟨hasked _ _, ?_⟩
    simp only [Bool.false_eq_true, if_false]
    exact goesOn_rollback (.inr ⟨by simp [hjob], rfl⟩)

theorem write_copy {rows : List ChunkRow} {chunks : Table ChunkRow.primaryKey}
    (hins : db.chunks.insertAll? rows = some chunks) :
    db.write (.copy rows) = withChunks db chunks := by
  simp only [Db.write, hins]
  rfl

theorem after_firstPart {rows : List ChunkRow} {chunks : Table ChunkRow.primaryKey}
    {part : UploadPartRow} (hins : db.chunks.insertAll? rows = some chunks)
    (hnone : db.uploadParts.find? part.primaryKey = none) :
    db.after ([.copy rows] ++ [.putPart part]) = recorded (withChunks db chunks) part := by
  simp only [List.singleton_append, after_cons, after_nil, write_copy hins]
  simp [Db.write, recorded, withChunks, hnone]

theorem after_resentPart {rows : List ChunkRow} {chunks : Table ChunkRow.primaryKey}
    {part old : UploadPartRow} {gone : List Slot} (hins : db.chunks.insertAll? rows = some chunks)
    (hold : db.uploadParts.find? part.primaryKey = some old)
    (hreaped : Reaped db [old.fileId] gone) (hfresh : ∀ c ∈ rows, c.fileId ≠ old.fileId) :
    db.after ([.copy rows] ++ [.remove (.part part.uploadId part.partNo)] ++ gone.map .remove ++
      [.putPart part]) = recorded (withChunks db chunks) part := by
  have heq := hreaped.deleteWhere_eq chunks fun c hc =>
    ((Table.mem_insertAll? hins).mp hc).imp_right fun hc => by simpa using hfresh c hc
  rw [List.append_assoc, List.append_assoc, List.singleton_append, List.singleton_append, after_cons,
    after_cons, write_copy hins, after_append]
  refine (congrArg (Db.after · [.putPart part]) (without_chunkSlots hreaped.chunkSlots)).trans ?_
  have hparts : (db.uploadParts.deleteWhere fun p => p.primaryKey = part.primaryKey).upsert part =
      db.uploadParts.upsert part := by
    apply Table.ext
    simp [Table.upsert, Table.deleteWhere, List.filter_filter]
  simp only [after_cons, after_nil, Db.write, withChunks, recorded, hold, heq]
  simp only [Option.map_some, Option.toList_some]
  rw [← hparts]
  rfl

theorem commitPart_no_upload {uploadId : Text} {partNo fileId total : ℤ} {sum : Bytes}
    (h : db.uploads.find? uploadId = none) :
    commitPart db uploadId partNo fileId total sum = .error .foreignKeyViolation := by
  simp only [commitPart]
  cases db.uploadParts.find? (uploadId, partNo) with
  | none => simp only [h, if_true]
  | some p => simp only [h, if_true]

section PartUpload

variable {now partNo fileId : ℤ} {uploadId : Text} {pushes : List Bytes}

theorem refused_uploadPart (hunused : Unused db fileId)
    (hnodup : ((rowsOf fileId pushes.flatten).map ChunkRow.primaryKey).Nodup)
    (hnone : db.uploads.find? uploadId = none) :
    Refused sha256 (.uploadPart now uploadId partNo fileId pushes) db
      (.failed .foreignKeyViolation) := by
  obtain ⟨chunks, hins⟩ := hunused.insertable (fun _ hc => fileId_of_mem_rowsOf hc) hnodup
  left
  have htarget : (WriterTarget.part uploadId partNo).bucketExists db = true := rfl
  have hcommit : publish (withChunks db chunks) now (.part uploadId partNo) fileId
      pushes.flatten.length (sha256 pushes.flatten) = .error .foreignKeyViolation :=
    commitPart_no_upload hnone
  simp only [Job.serial, ingestWriter_eq sha256 hunused.lower hunused.upper now pushes htarget,
    hins, hcommit]

theorem goesOn_firstPart (hunused : Unused db fileId)
    (hnodup : ((rowsOf fileId pushes.flatten).map ChunkRow.primaryKey).Nodup) :
    GoesOn hash sha256 (.uploadPart now uploadId partNo fileId pushes)
      (Sql.insertPart (partRecord sha256 uploadId partNo fileId pushes.flatten)
        (.commit (.stored pushes.flatten.length (sha256 pushes.flatten))))
      [.file fileId] [.copy (rowsOf fileId pushes.flatten)] db := by
  set part := partRecord sha256 uploadId partNo fileId pushes.flatten with hpart
  set ws : List Write := [.copy (rowsOf fileId pushes.flatten)] with hws
  have hsame : ∀ db : Db, (db.after ws).uploadParts = db.uploadParts := fun db =>
    after_uploadParts (by simp [hws, Write.table])
  refine goesOn_insertPart rfl (by simp [Lock.depth]) (.inl (by simp [Lock.depth])) ?_ ?_ ?_ ?_
  · simp [hws, Write.table]
  · intro db₁ _ hfree
    simp only [Db.holds, hsame] at hfree
    exact .inl (by simpa using hfree)
  · intro db₁ h₁ _ hnone
    exact refused_uploadPart (h₁.file fileId (by simp) hunused) hnodup hnone
  · intro held₁ db₁ hsub hpart₁ hupload h₁ _ hfree hthere
    have hnone : db₁.uploadParts.find? (uploadId, partNo) = none := by
      rcases hfree with hnone | hdelete
      · exact hnone
      · simp at hdelete
    refine goesOn_commit fun db₂ h₂ _ => ?_
    have hlock : Lock.file fileId ∈ held₁ := hsub (by simp)
    have hunused₂ := h₂.file fileId hlock (h₁.file fileId (by simp) hunused)
    obtain ⟨chunks, hins⟩ := hunused₂.insertable (fun _ hc => fileId_of_mem_rowsOf hc) hnodup
    have hnone₂ : db₂.uploadParts.find? part.primaryKey = none :=
      (h₂.part _ _ .update (by decide) hpart₁).trans hnone
    have heq : db₂.after (ws ++ [.putPart part]) = recorded (withChunks db₂ chunks) part :=
      after_firstPart hins hnone₂
    have hthere₂ : db₂.uploads.find? uploadId ≠ none := by
      rwa [h₂.upload uploadId .keyShare (by decide) hupload]
    change Commits _ _ _ _ _ _ (db₂.after (ws ++ [.putPart part]))
    rw [heq]
    exact .uploadPart hupload hpart₁ hlock hunused₂ hthere₂ hins

theorem goesOn_resentPart {old : UploadPartRow} (hunused : Unused db fileId)
    (hnodup : ((rowsOf fileId pushes.flatten).map ChunkRow.primaryKey).Nodup)
    (hsome : db.uploadParts.find? (uploadId, partNo) = some old) :
    GoesOn hash sha256 (.uploadPart now uploadId partNo fileId pushes)
      (Sql.deleteChunks (fun c => c.fileId = old.fileId) fun _ =>
        Sql.insertPart (partRecord sha256 uploadId partNo fileId pushes.flatten)
          (.commit (.stored pushes.flatten.length (sha256 pushes.flatten))))
      [.file fileId, .row (.part uploadId partNo) .delete]
      [.copy (rowsOf fileId pushes.flatten), .remove (.part uploadId partNo)] db := by
  set part := partRecord sha256 uploadId partNo fileId pushes.flatten with hpart
  set slot : Slot := .part uploadId partNo with hslot
  set held : List Lock := [.file fileId, .row slot .delete] with hheld
  set ws : List Write := [.copy (rowsOf fileId pushes.flatten), .remove slot] with hws
  have hdelete : Lock.row slot .delete ∈ held := by simp [hheld]
  have hlock : Lock.file fileId ∈ held := by simp [hheld]
  have hold : ∀ db₁, Rely hash held db db₁ →
      db₁.uploadParts.find? (uploadId, partNo) = some old :=
    fun db₁ h₁ => (h₁.part _ _ .delete (by decide) hdelete).trans hsome
  have hne : ∀ c ∈ rowsOf fileId pushes.flatten, c.fileId ≠ old.fileId := by
    intro c hc heq
    rw [fileId_of_mem_rowsOf hc] at heq
    exact hunused.unowned
      (mem_ownedFiles.mpr (.inr ⟨old, (Table.find?_eq_some_iff.mp hsome).1, heq.symm⟩))
  have hcov : ∀ db₁, Rely hash held db db₁ → Covered hash held db₁ old.fileId := by
    intro db₁ h₁
    obtain ⟨hmem, hk⟩ := Table.find?_eq_some_iff.mp (hold db₁ h₁)
    obtain ⟨hidk, hnok⟩ := Prod.mk.inj hk
    refine .inr ⟨old, hmem, ?_, rfl⟩
    rw [hidk, hnok]
    exact hdelete
  refine goesOn_deleteFiles [old.fileId] (fun c => by simp) ?_ ?_ ?_
  · intro db₁ h₁ _ f hf
    rw [List.mem_singleton.mp hf]
    refine ⟨.inr ⟨hcov db₁ h₁, by simp [hheld, hslot, Lock.depth]⟩, ?_⟩
    intro rows hrows c hc
    obtain rfl : rows = rowsOf fileId pushes.flatten := by simpa [hws] using hrows
    exact hne c hc
  · simp [hws, hslot]
  · intro gone db₁ h₁ hdb₁ hreaped
    have hsub : held ⊆ held ++ deleteLocks gone := List.subset_append_left _ _
    have hunused₁ := h₁.file fileId hlock hunused
    refine goesOn_insertPart rfl ?_ (.inr (hsub hdelete)) ?_ ?_ ?_ ?_
    · intro l hl
      simp only [hheld, deleteLocks, List.mem_append, List.mem_cons, List.not_mem_nil, or_false,
        List.mem_map] at hl
      rcases hl with (rfl | rfl) | ⟨t, ht, rfl⟩
      · exact .inl rfl
      · exact .inr rfl
      · obtain ⟨f, no, rfl, _⟩ := hreaped.only t ht
        exact .inr rfl
    · intro w hw
      simp only [hws, List.mem_append, List.mem_cons, List.not_mem_nil, or_false,
        List.mem_map] at hw
      rcases hw with (rfl | rfl) | ⟨t, ht, rfl⟩
      · simp [Write.table]
      · simp [hslot, Write.table, Slot.table]
      · obtain ⟨f, no, rfl, _⟩ := hreaped.only t ht
        simp [Write.table, Slot.table]
    · exact fun _ _ _ => .inr (hsub hdelete)
    · intro db₂ h₂ _ hnone
      exact refused_uploadPart (h₂.file fileId (hsub hlock) hunused₁) hnodup hnone
    · intro held₂ db₂ hsub₂ hpart₂ hupload h₂ _ _ hthere
      refine goesOn_commit fun db₃ h₃ _ => ?_
      have h₁₃ : Rely hash held db₁ db₃ :=
        (h₂.weaken hsub).trans (h₃.weaken fun l hl => hsub₂ (hsub hl))
      have hunused₃ := h₁₃.file fileId hlock hunused₁
      obtain ⟨chunks, hins⟩ := hunused₃.insertable (fun _ hc => fileId_of_mem_rowsOf hc) hnodup
      have hreaped₃ : Reaped db₃ [old.fileId] gone :=
        hreaped.mono (fun f hf => by rw [List.mem_singleton.mp hf]; exact hcov db₁ h₁) h₁₃
      have hold₃ : db₃.uploadParts.find? part.primaryKey = some old := hold db₃ (h₁.trans h₁₃)
      have heq : db₃.after (ws ++ gone.map .remove ++ [.putPart part]) =
          recorded (withChunks db₃ chunks) part := after_resentPart hins hold₃ hreaped₃ hne
      have hthere₃ : db₃.uploads.find? uploadId ≠ none := by
        rwa [h₃.upload uploadId .keyShare (by decide) hupload]
      change Commits _ _ _ _ _ _ (db₃.after (ws ++ gone.map .remove ++ [.putPart part]))
      rw [heq]
      exact .uploadPart hupload hpart₂ (hsub₂ (hsub hlock)) hunused₃ hthere₃ hins

theorem goesOn_uploadPart (hunused : Unused db fileId) :
    GoesOn hash sha256 (.uploadPart now uploadId partNo fileId pushes)
      (Sql.uploadPart sha256 uploadId partNo fileId pushes) [.file fileId] [] db := by
  obtain ⟨stream, hstream, hdecode⟩ :=
    copyStream_spec sha256 hunused.lower hunused.upper pushes
  simp only [Sql.uploadPart, hstream]
  refine goesOn_copyIn hdecode ?_ ?_
  · intro db₁ _ _ hfull
    have hfull : db₁.chunks.insertAll? (rowsOf fileId pushes.flatten) = none := hfull
    left
    have htarget : (WriterTarget.part uploadId partNo).bucketExists db₁ = true := rfl
    simp only [Job.serial, ingestWriter_eq sha256 hunused.lower hunused.upper now pushes htarget,
      hfull]
  · intro db₁ chunks h₁ _ hins
    have hnodup := (Table.insertAll?_eq_some_iff.mp hins).1
    have hunused₁ := h₁.file fileId (by simp) hunused
    have hsame : ∀ db : Db, (db.after ([] ++ [.copy (rowsOf fileId pushes.flatten)])).uploadParts =
        db.uploadParts := fun db => after_uploadParts (by simp [Write.table])
    refine goesOn_deleteRow ?_ ?_
    · intro db₂ h₂ _ _
      exact goesOn_firstPart (h₂.file fileId (by simp) hunused₁) hnodup
    · intro db₂ old h₂ _ hsome
      rw [hsame] at hsome
      exact ⟨.inl (by simp [Lock.depth]), .inr rfl,
        goesOn_resentPart (h₂.file fileId (by simp) hunused₁) hnodup hsome⟩

end PartUpload

end Pgvs3
