import Pgvs3.Verification.Concurrency.Completion

/-! # `expire_uploads` under the terms

The loop only removes rows. The slots it has emptied so far satisfy an invariant that the
others keep: a removed part has no chunk row left, a removed upload no part. -/

namespace Pgvs3

open Library

variable {hash : Text → Text → ℤ} {sha256 : Bytes → Bytes} {job : Job} {held held' : List Lock}
  {gone gone' : List Slot} {db db' : Db}

/-- What an open expiry has removed. -/
structure Expiring (held : List Lock) (db : Db) (gone : List Slot) : Prop where
  tables : ∀ t ∈ gone, t.table ≠ .buckets ∧ t.table ≠ .objects
  upload : ∀ id, .upload id ∈ gone → .row (.upload id) .update ∈ held ∧
    ∀ p ∈ db.uploadParts, p.uploadId = id → .part id p.partNo ∈ gone
  part : ∀ id no, .part id no ∈ gone →
    .row (.upload id) .update ∈ held ∧ .row (.part id no) .delete ∈ held
  rows : ∀ p ∈ db.uploadParts, .part p.uploadId p.partNo ∈ gone →
    ∀ c ∈ db.chunks, c.fileId = p.fileId → .chunk c.fileId c.no ∈ gone
  chunk : ∀ f no, .chunk f no ∈ gone →
    ∃ p ∈ db.uploadParts, p.fileId = f ∧ .row (.upload p.uploadId) .update ∈ held

theorem expiring_nil : Expiring held db [] where
  tables := by simp
  upload := by simp
  part := by simp
  rows := by simp
  chunk := by simp

theorem Expiring.weaken (h : Expiring held db gone) (hsub : held ⊆ held') :
    Expiring held' db gone where
  tables := h.tables
  upload := fun id hid => (h.upload id hid).imp_left (hsub ·)
  part := fun id no hid => (h.part id no hid).imp (hsub ·) (hsub ·)
  rows := h.rows
  chunk := by
    intro f no hf
    obtain ⟨p, hp, hfile, hlock⟩ := h.chunk f no hf
    exact ⟨p, hp, hfile, hsub hlock⟩

theorem Expiring.mono (h : Expiring held db gone) (hrely : Rely hash held db db') :
    Expiring held db' gone where
  tables := h.tables
  upload := by
    intro id hid
    obtain ⟨hlock, hparts⟩ := h.upload id hid
    exact ⟨hlock, fun p hp hpid => hparts p ((hrely.parts id hlock p hpid).mp hp) hpid⟩
  part := h.part
  rows := by
    intro p hp hgone c hc hf
    have hlock := (h.part _ _ hgone).1
    have hp := (hrely.parts _ hlock p rfl).mp hp
    exact h.rows p hp hgone c
      (hrely.grown _ (.inl (.inr ⟨p, hp, hlock, hf.symm⟩)) c hc rfl) hf
  chunk := by
    intro f no hf
    obtain ⟨p, hp, hfile, hlock⟩ := h.chunk f no hf
    exact ⟨p, (hrely.parts _ hlock p rfl).mpr hp, hfile, hlock⟩

theorem Expiring.add_chunks (h : Expiring held db gone) {p : UploadPartRow}
    (hp : p ∈ db.uploadParts) (hlock : .row (.upload p.uploadId) .update ∈ held)
    (hgone' : ∀ t ∈ gone', ∃ no, t = .chunk p.fileId no) : Expiring held db (gone ++ gone') := by
  have hold : ∀ t, (∀ f no, t ≠ .chunk f no) → t ∈ gone ++ gone' → t ∈ gone := by
    intro t hne ht
    rcases List.mem_append.mp ht with ht | ht
    · exact ht
    · obtain ⟨no, rfl⟩ := hgone' t ht
      exact (hne _ _ rfl).elim
  refine ⟨?_, ?_, ?_, ?_, ?_⟩
  · intro t ht
    rcases List.mem_append.mp ht with ht | ht
    · exact h.tables t ht
    · obtain ⟨no, rfl⟩ := hgone' t ht
      simp [Slot.table]
  · intro id hid
    obtain ⟨hlock, hparts⟩ := h.upload id (hold _ (by simp) hid)
    exact ⟨hlock, fun q hq hqid => List.mem_append_left _ (hparts q hq hqid)⟩
  · exact fun id no hid => h.part id no (hold _ (by simp) hid)
  · exact fun q hq hid c hc hf => List.mem_append_left _ (h.rows q hq (hold _ (by simp) hid) c hc hf)
  · intro f no hf
    rcases List.mem_append.mp hf with hf | hf
    · exact h.chunk f no hf
    · obtain ⟨no', heq⟩ := hgone' _ hf
      cases heq
      exact ⟨p, hp, rfl, hlock⟩

theorem Expiring.add_part (h : Expiring held db gone) {p : UploadPartRow}
    (hp : p ∈ db.uploadParts) (hlock : .row (.upload p.uploadId) .update ∈ held)
    (hdelete : .row (.part p.uploadId p.partNo) .delete ∈ held)
    (hrows : ∀ c ∈ db.chunks, c.fileId = p.fileId → .chunk c.fileId c.no ∈ gone) :
    Expiring held db (gone ++ [.part p.uploadId p.partNo]) := by
  refine ⟨?_, ?_, ?_, ?_, ?_⟩
  · intro t ht
    rcases List.mem_append.mp ht with ht | ht
    · exact h.tables t ht
    · simp [List.mem_singleton.mp ht, Slot.table]
  · intro id hid
    obtain ⟨hlock, hparts⟩ := h.upload id (by simpa using hid)
    exact ⟨hlock, fun q hq hqid => List.mem_append_left _ (hparts q hq hqid)⟩
  · intro id no hid
    rcases List.mem_append.mp hid with hid | hid
    · exact h.part id no hid
    · obtain ⟨rfl, rfl⟩ := Slot.part.inj (List.mem_singleton.mp hid)
      exact ⟨hlock, hdelete⟩
  · intro q hq hid c hc hf
    rcases List.mem_append.mp hid with hid | hid
    · exact List.mem_append_left _ (h.rows q hq hid c hc hf)
    · obtain ⟨hid, hno⟩ := Slot.part.inj (List.mem_singleton.mp hid)
      obtain rfl := Table.eq_of_key hq hp (Prod.ext hid hno)
      exact List.mem_append_left _ (hrows c hc hf)
  · exact fun f no hf => h.chunk f no (by simpa using hf)

theorem Expiring.add_upload (h : Expiring held db gone) {id : Text}
    (hlock : .row (.upload id) .update ∈ held)
    (hparts : ∀ p ∈ db.uploadParts, p.uploadId = id → .part id p.partNo ∈ gone) :
    Expiring held db (gone ++ [.upload id]) := by
  refine ⟨?_, ?_, ?_, ?_, ?_⟩
  · intro t ht
    rcases List.mem_append.mp ht with ht | ht
    · exact h.tables t ht
    · simp [List.mem_singleton.mp ht, Slot.table]
  · intro id' hid
    rcases List.mem_append.mp hid with hid | hid
    · obtain ⟨hlock, hparts⟩ := h.upload id' hid
      exact ⟨hlock, fun q hq hqid => List.mem_append_left _ (hparts q hq hqid)⟩
    · obtain rfl := Slot.upload.inj (List.mem_singleton.mp hid)
      exact ⟨hlock, fun q hq hqid => List.mem_append_left _ (hparts q hq hqid)⟩
  · exact fun id no hid => h.part id no (by simpa using hid)
  · exact fun q hq hid c hc hf => List.mem_append_left _ (h.rows q hq (by simpa using hid) c hc hf)
  · exact fun f no hf => h.chunk f no (by simpa using hf)

/-! ## What an expiry sees -/

theorem mem_without_chunks {c : ChunkRow} :
    c ∈ (db.without gone).chunks ↔ c ∈ db.chunks ∧ .chunk c.fileId c.no ∉ gone := by
  rw [without_chunks, Table.mem_deleteWhere, decide_eq_false_iff_not]

theorem mem_without_uploads {u : UploadRow} :
    u ∈ (db.without gone).uploads ↔ u ∈ db.uploads ∧ .upload u.uploadId ∉ gone := by
  rw [without_uploads, Table.mem_deleteWhere, decide_eq_false_iff_not]

theorem mem_without_parts {p : UploadPartRow} :
    p ∈ (db.without gone).uploadParts ↔ p ∈ db.uploadParts ∧ .part p.uploadId p.partNo ∉ gone := by
  rw [without_uploadParts, Table.mem_deleteWhere, decide_eq_false_iff_not]

theorem Expiring.commits (h : Expiring held db gone) {now rows : ℤ} {budget : ExpiryBudget} :
    Commits hash sha256 held db (.expireUploads now budget) (.expired rows) (db.without gone) := by
  have htables : ∀ w ∈ gone.map Write.remove, w.table ≠ .buckets ∧ w.table ≠ .objects := by
    intro w hw
    obtain ⟨t, ht, rfl⟩ := List.mem_map.mp hw
    exact h.tables t ht
  refine .expireUploads ?_ ?_ ?_ ?_ ?_
  · refine ⟨after_buckets fun w hw => (htables w hw).1, after_objects fun w hw => (htables w hw).2,
      after_fileSeq _ _, ?_, ?_, ?_, ?_, ?_⟩
    · exact fun u hu => (mem_without_uploads.mp hu).1
    · rw [without_uploadParts]
      exact List.filter_sublist
    · exact fun c hc => (mem_without_chunks.mp hc).1
    · intro c hc hlost
      have hgone : Slot.chunk c.fileId c.no ∈ gone := by
        by_contra hkept
        exact hlost (mem_without_chunks.mpr ⟨hc, hkept⟩)
      obtain ⟨p, hp, hf, _⟩ := h.chunk _ _ hgone
      exact ⟨p, hp, hf⟩
    · intro p hp hlost c hc hf
      have hgone : Slot.part p.uploadId p.partNo ∈ gone := by
        by_contra hkept
        exact hlost (mem_without_parts.mpr ⟨hp, hkept⟩)
      obtain ⟨hc, hkept⟩ := mem_without_chunks.mp hc
      exact hkept (h.rows p hp hgone c hc hf)
  · intro u hu hlost
    by_contra hlock
    exact hlost (mem_without_uploads.mpr ⟨hu, fun hgone => hlock (h.upload _ hgone).1⟩)
  · intro p hp hlost
    by_contra hlock
    exact hlost (mem_without_parts.mpr ⟨hp, fun hgone => hlock (h.part _ _ hgone)⟩)
  · intro c hc hlost
    have hgone : Slot.chunk c.fileId c.no ∈ gone := by
      by_contra hkept
      exact hlost (mem_without_chunks.mpr ⟨hc, hkept⟩)
    exact h.chunk _ _ hgone
  · intro u hu hlost p hp hid
    have hgone : Slot.upload u.uploadId ∈ gone := by
      by_contra hkept
      exact hlost (mem_without_uploads.mpr ⟨hu, hkept⟩)
    obtain ⟨hp, hkept⟩ := mem_without_parts.mp hp
    exact hkept (hid ▸ (h.upload _ hgone).2 p hp hid)

/-! ## Doomed rows -/

/-- A scan that deleted fewer rows than its limit has left none. -/
theorem doomed_all {fileId remaining : ℤ}
    (hall : ∀ t ∈ Sql.doomedSlots fileId remaining db, t ∈ gone)
    (hlt : (gone.length : ℤ) < remaining) {c : ChunkRow} (hc : c ∈ db.chunks)
    (hf : c.fileId = fileId) : .chunk fileId c.no ∈ gone := by
  have hnodup : (Sql.doomedSlots fileId remaining db).Nodup := by
    refine (nodup_doomedRows db fileId remaining).map_on ?_
    intro m _ n _ heq
    exact (Slot.chunk.inj heq).2
  have hle : (Sql.doomedSlots fileId remaining db).length ≤ gone.length :=
    (List.subperm_of_subset hnodup hall).length_le
  rw [Sql.doomedSlots, List.length_map] at hle
  have hshort : ((doomedRows db fileId remaining).length : ℤ) < remaining := by omega
  have hdoomed := mem_doomedRows_of_lt hshort hc hf
  exact hall _ (List.mem_map.mpr ⟨c.no, hdoomed, rfl⟩)

/-! ## The loop -/

theorem goesOn_lockVictim {now grace : ℤ} {bucket : Option Text} {next : Option UploadRow → Sql}
    {ws : List Write}
    (hnone : ∀ db₁, Rely hash held db db₁ → Admissible db₁ →
      GoesOn hash sha256 job (next none) held ws db₁)
    (hsome : ∀ db₁ up, Rely hash held db db₁ → Admissible db₁ → up ∈ (db₁.after ws).uploads →
      GoesOn hash sha256 job (next (some up)) (held ++ [.row (.upload up.uploadId) .update]) ws db₁) :
    GoesOn hash sha256 job (Sql.lockVictim now grace bucket next) held ws db := by
  refine ready_step fun db₁ h₁ hdb₁ s hs => ?_
  have hs : s.db = db₁.after ws := hs
  cases hvictim : Sql.unlockedVictim? s now grace bucket with
  | none => exact ⟨⟨by simp, by simp⟩, by simpa using hnone db₁ h₁ hdb₁⟩
  | some up =>
      have hmem := List.mem_of_mem_head? hvictim
      rw [List.mem_insertionSort, List.mem_filter, Bool.and_eq_true] at hmem
      obtain ⟨hup, _, hfree⟩ := hmem
      rw [hs] at hup
      refine ⟨⟨?_, by simp [Taken]⟩, by simpa using hsome db₁ up h₁ hdb₁ hup⟩
      -- the victim is one that nobody has locked
      intro l hl
      simp only [List.nil_append, Option.toList_some, List.map_cons, List.map_nil,
        List.mem_singleton] at hl
      exact .inl (hl ▸ hfree)

theorem goesOn_dropUpload {next : Sql} (up : UploadRow) (h : Expiring held db gone)
    (hlock : .row (.upload up.uploadId) .update ∈ held) (hup : up ∈ (db.without gone).uploads)
    (hempty : ∀ p ∈ (db.without gone).uploadParts, p.uploadId ≠ up.uploadId)
    (hnext : ∀ held₁ gone₁ db₁, held ⊆ held₁ → Rely hash held db db₁ → Admissible db₁ →
      Expiring held₁ db₁ gone₁ → GoesOn hash sha256 job next held₁ (gone₁.map .remove) db₁) :
    GoesOn hash sha256 job (Sql.deleteUpload up.uploadId next) held (gone.map .remove) db := by
  obtain ⟨hmem, hkept⟩ := mem_without_uploads.mp hup
  have hsame : ∀ db₁, Rely hash held db db₁ → ∀ p ∈ (db₁.without gone).uploadParts,
      p.uploadId ≠ up.uploadId := by
    intro db₁ h₁ p hp hid
    obtain ⟨hp, hkept⟩ := mem_without_parts.mp hp
    exact hempty p (mem_without_parts.mpr ⟨(h₁.parts _ hlock p hid).mp hp, hkept⟩) hid
  refine goesOn_deleteUpload hlock ?_ (by simp) ?_
  · intro db₁ h₁
    have hfind : db₁.uploads.find? up.uploadId = some up :=
      (h₁.upload up.uploadId .update (by decide) hlock).trans
        (Table.find?_eq_some_iff.mpr ⟨hmem, rfl⟩)
    have hseen : up ∈ (db₁.without gone).uploads :=
      mem_without_uploads.mpr ⟨(Table.find?_eq_some_iff.mp hfind).1, hkept⟩
    exact Table.find?_ne_none_of_mem (t := (db₁.without gone).uploads)
      (by rw [Table.find?_eq_some_iff.mpr ⟨hseen, rfl⟩]; simp) fun _ hu _ => hu
  · intro gone' held₁ db₁ hsub h₁ hdb₁ hcascaded
    obtain rfl : gone' = [] := by
      rw [List.eq_nil_iff_forall_not_mem]
      intro t ht
      obtain ⟨p, hp, hid, _⟩ := hcascaded.only t ht
      exact hsame db₁ h₁ p hp hid
    have hadd := ((h.mono h₁).weaken hsub).add_upload (hsub hlock) fun p hp hid => by
      by_contra hkept
      exact hsame db₁ h₁ p (mem_without_parts.mpr ⟨hp, hid ▸ hkept⟩) hid
    simpa using hnext held₁ _ db₁ hsub h₁ hdb₁ hadd

theorem goesOn_dropPart {up : UploadRow} {part : UploadPartRow} {next : Sql}
    (h : Expiring held db gone) (hlock : .row (.upload up.uploadId) .update ∈ held)
    (hup : up ∈ (db.without gone).uploads) (hpart : part ∈ (db.without gone).uploadParts)
    (hid : part.uploadId = up.uploadId)
    (hall : ∀ c ∈ db.chunks, c.fileId = part.fileId → .chunk c.fileId c.no ∈ gone)
    (hnext : ∀ held₁ gone₁ db₁, held ⊆ held₁ → Rely hash held db db₁ → Admissible db₁ →
      Expiring held₁ db₁ gone₁ → GoesOn hash sha256 job next held₁ (gone₁.map .remove) db₁) :
    GoesOn hash sha256 job
      (Sql.deleteRow (.part part.uploadId part.partNo)
        (fun db => db.uploadParts.find? part.primaryKey) fun _ =>
        Sql.select fun db =>
        if ∃ p ∈ db.uploadParts.rows, p.uploadId = part.uploadId then next
        else Sql.deleteUpload part.uploadId next)
      held (gone.map .remove) db := by
  obtain ⟨hmem, hkept⟩ := mem_without_parts.mp hpart
  set slot : Slot := .part part.uploadId part.partNo with hslot
  have hlock' : Lock.row (.upload part.uploadId) .update ∈ held := by rwa [hid]
  have hthere : ∀ db₁, Rely hash held db db₁ → part ∈ db₁.uploadParts := fun db₁ h₁ =>
    (h₁.parts _ hlock part hid).mpr hmem
  have hfirm : Firm hash held db part.fileId := .inr ⟨part, hmem, hlock', rfl⟩
  refine goesOn_deleteRow ?_ ?_
  · intro db₁ h₁ _ hnone
    have hseen : part ∈ (db₁.without gone).uploadParts :=
      mem_without_parts.mpr ⟨hthere db₁ h₁, hkept⟩
    exact (Table.find?_eq_none_iff.mp hnone part hseen rfl).elim
  · intro db₁ _ h₁ _ _
    set held₁ := held ++ [Lock.row slot .delete] with hheld₁
    have hsub₁ : held ⊆ held₁ := List.subset_append_left _ _
    have hfound : db₁.uploadParts.find? (part.uploadId, part.partNo) = some part :=
      Table.find?_eq_some_iff.mpr ⟨hthere db₁ h₁, rfl⟩
    have hexpiring₁ : Expiring held₁ db₁ (gone ++ [slot]) := by
      refine ((h.mono h₁).weaken hsub₁).add_part (hthere db₁ h₁) (List.mem_append_left _ hlock')
        (by simp [hheld₁, hslot]) ?_
      intro c hc hf
      exact hall c (h₁.grown _ hfirm.covered c hc hf) hf
    refine ⟨.inr (.inr ⟨rfl, hlock', by simp [hfound]⟩), .inl (List.mem_append_left _ hlock'), ?_⟩
    have hws : gone.map Write.remove ++ [.remove slot] = (gone ++ [slot]).map .remove := by simp
    rw [hws]
    refine goesOn_select fun db₂ h₂ hdb₂ => ?_
    have h₂' : Rely hash held db db₂ := h₁.trans (h₂.weaken hsub₁)
    have hexpiring₂ := hexpiring₁.mono h₂
    split
    · exact hnext held₁ _ db₂ hsub₁ h₂' hdb₂ hexpiring₂
    · rename_i hempty
      push Not at hempty
      rw [hid]
      refine goesOn_dropUpload up hexpiring₂ (hsub₁ hlock) ?_ ?_ ?_
      · obtain ⟨hthere', hstays⟩ := mem_without_uploads.mp hup
        have hfind : db₂.uploads.find? up.uploadId = some up :=
          (h₂'.upload up.uploadId .update (by decide) hlock).trans
            (Table.find?_eq_some_iff.mpr ⟨hthere', rfl⟩)
        refine mem_without_uploads.mpr ⟨(Table.find?_eq_some_iff.mp hfind).1, fun hmem => ?_⟩
        simp only [List.mem_append, List.mem_singleton, hslot, reduceCtorEq, or_false] at hmem
        exact hstays hmem
      · intro p hp
        rw [← hid]
        exact hempty p hp
      · intro held₃ gone₃ db₃ hsub₃ h₃ hdb₃ hexpiring₃
        exact hnext held₃ gone₃ db₃ (fun l hl => hsub₃ (hsub₁ hl))
          (h₂'.trans (h₃.weaken hsub₁)) hdb₃ hexpiring₃

/-- One visit to a part: its rows within the budget, its record once no row is left, the
upload once no part is left. -/
theorem goesOn_expirePart {up : UploadRow} {part : UploadPartRow} {remaining : ℤ}
    {proceed : ℕ → Sql} (h : Expiring held db gone)
    (hlock : .row (.upload up.uploadId) .update ∈ held) (hup : up ∈ (db.without gone).uploads)
    (hpart : part ∈ (db.without gone).uploadParts) (hid : part.uploadId = up.uploadId)
    (hproceed : ∀ n held₁ gone₁ db₁, held ⊆ held₁ → Rely hash held db db₁ → Admissible db₁ →
      Expiring held₁ db₁ gone₁ → GoesOn hash sha256 job (proceed n) held₁ (gone₁.map .remove) db₁) :
    GoesOn hash sha256 job
      (Sql.deleteRows (Sql.doomedSlots part.fileId remaining) fun batchRemoved =>
        if (batchRemoved : ℤ) < remaining then
          Sql.deleteRow (.part part.uploadId part.partNo)
            (fun db => db.uploadParts.find? part.primaryKey) fun _ =>
          Sql.select fun db =>
          if ∃ p ∈ db.uploadParts.rows, p.uploadId = part.uploadId then proceed batchRemoved
          else Sql.deleteUpload part.uploadId <| proceed batchRemoved
        else proceed batchRemoved)
      held (gone.map .remove) db := by
  obtain ⟨hmem, hkept⟩ := mem_without_parts.mp hpart
  obtain ⟨huploads, hstays⟩ := mem_without_uploads.mp hup
  have hthere : ∀ db₁, Rely hash held db db₁ → part ∈ db₁.uploadParts := fun db₁ h₁ =>
    (h₁.parts _ hlock part hid).mpr hmem
  have hfirm : ∀ db₁, Rely hash held db db₁ → Firm hash held db₁ part.fileId := fun db₁ h₁ =>
    .inr ⟨part, hthere db₁ h₁, by rwa [hid], rfl⟩
  refine goesOn_deleteRows fun db₁ h₁ _ => ⟨deletable_chunks ?_, ?_⟩
  · intro t ht
    obtain ⟨no, _, rfl⟩ := List.mem_map.mp ht
    exact ⟨_, no, rfl, .inl (hfirm db₁ h₁), by simp [NoCopy]⟩
  · intro gone' db₂ hgone' h₂ hdb₂ hdone
    set held₂ := held ++ deleteLocks gone' with hheld₂
    have hsub₂ : held ⊆ held₂ := List.subset_append_left _ _
    have h₂' : Rely hash held db db₂ := h₁.trans h₂
    have hrows : ∀ t ∈ gone', ∃ no, t = .chunk part.fileId no := by
      intro t ht
      obtain ⟨no, _, rfl⟩ := List.mem_map.mp (hgone' ht)
      exact ⟨no, rfl⟩
    have hexpiring₂ : Expiring held₂ db₂ (gone ++ gone') :=
      ((h.mono h₂').weaken hsub₂).add_chunks (hthere db₂ h₂') (by rw [hid]; exact hsub₂ hlock) hrows
    rw [← List.map_append]
    by_cases hlt : (gone'.length : ℤ) < remaining
    · rw [if_pos hlt]
      -- nobody else has deleted a row of the file, so all of them are gone
      have hall : ∀ c ∈ db₂.chunks, c.fileId = part.fileId → .chunk c.fileId c.no ∈ gone ++ gone' := by
        intro c hc hf
        by_cases hbefore : Slot.chunk c.fileId c.no ∈ gone
        · exact List.mem_append_left _ hbefore
        · have hold := h₂.grown _ (hfirm db₁ h₁).covered c hc hf
          have htargets : ∀ t ∈ Sql.doomedSlots part.fileId remaining (db₁.without gone),
              t ∈ gone' := by
            intro t ht
            refine (hdone t ht).resolve_right ?_
            obtain ⟨no, hno, rfl⟩ := List.mem_map.mp ht
            obtain ⟨d, hd, hdf, rfl⟩ := mem_doomedRows hno
            obtain ⟨hd, hdkept⟩ := mem_without_chunks.mp hd
            have hd₂ := h₂.kept _ (hfirm db₁ h₁) d hd hdf
            have hholds : (db₂.without gone).holds (.chunk part.fileId d.no) = true :=
              holds_chunk_iff.mpr ⟨d, mem_without_chunks.mpr ⟨hd₂, hdkept⟩, hdf, rfl⟩
            intro hnot
            have hnot : (db₂.without gone).holds (.chunk part.fileId d.no) = false := hnot
            rw [hholds] at hnot
            cases hnot
          have hseen : c ∈ (db₁.without gone).chunks := mem_without_chunks.mpr ⟨hold, hbefore⟩
          have hdoomed := doomed_all htargets hlt hseen hf
          rw [hf]
          exact List.mem_append_right _ hdoomed
      refine goesOn_dropPart hexpiring₂ (hsub₂ hlock) ?_ ?_ hid hall ?_
      · have hfind : db₂.uploads.find? up.uploadId = some up :=
          (h₂'.upload up.uploadId .update (by decide) hlock).trans
            (Table.find?_eq_some_iff.mpr ⟨huploads, rfl⟩)
        refine mem_without_uploads.mpr ⟨(Table.find?_eq_some_iff.mp hfind).1, fun hgone => ?_⟩
        rcases List.mem_append.mp hgone with hgone | hgone
        · exact hstays hgone
        · obtain ⟨no, heq⟩ := hrows _ hgone
          cases heq
      · refine mem_without_parts.mpr ⟨hthere db₂ h₂', fun hgone => ?_⟩
        rcases List.mem_append.mp hgone with hgone | hgone
        · exact hkept hgone
        · obtain ⟨no, heq⟩ := hrows _ hgone
          cases heq
      · intro held₃ gone₃ db₃ hsub₃ h₃
        exact hproceed _ held₃ gone₃ db₃ (fun l hl => hsub₃ (hsub₂ hl))
          (h₂'.trans (h₃.weaken hsub₂))
    · rw [if_neg hlt]
      exact hproceed _ held₂ _ db₂ hsub₂ h₂' hdb₂ hexpiring₂

theorem goesOn_expireLoop {now grace maxRows : ℤ} {bucket : Option Text} {budget : ExpiryBudget}
    {now' : ℤ} (visits : ℕ) (removed : ℤ) (h : Expiring held db gone) :
    GoesOn hash sha256 (.expireUploads now' budget)
      (Sql.expireLoop now grace maxRows bucket visits removed) held (gone.map .remove) db := by
  induction visits generalizing removed held gone db with
  | zero => exact goesOn_commit fun db₁ h₁ _ => (h.mono h₁).commits
  | succ visits ih =>
      refine goesOn_lockVictim ?_ ?_
      · intro db₁ h₁ _
        exact goesOn_commit fun db₂ h₂ _ => (h.mono (h₁.trans h₂)).commits
      · intro db₁ up h₁ _ hup
        have hup : up ∈ (db₁.without gone).uploads := hup
        set held₁ := held ++ [Lock.row (.upload up.uploadId) .update] with hheld₁
        have hsub₁ : held ⊆ held₁ := List.subset_append_left _ _
        have hlock : Lock.row (.upload up.uploadId) .update ∈ held₁ := by simp [hheld₁]
        have hexpiring₁ := (h.mono h₁).weaken hsub₁
        refine goesOn_select fun db₂ h₂ _ => ?_
        have hexpiring₂ := hexpiring₁.mono h₂
        have hup₂ : up ∈ (db₂.without gone).uploads := by
          obtain ⟨hmem, hkept⟩ := mem_without_uploads.mp hup
          have hfind : db₂.uploads.find? up.uploadId = some up :=
            (h₂.upload up.uploadId .update (by decide) hlock).trans
              (Table.find?_eq_some_iff.mpr ⟨hmem, rfl⟩)
          exact mem_without_uploads.mpr ⟨(Table.find?_eq_some_iff.mp hfind).1, hkept⟩
        have hview : db₂.after (gone.map .remove) = db₂.without gone := rfl
        rw [hview]
        cases hhead : (recordedParts (db₂.without gone) up.uploadId).head? with
        | none =>
            rw [List.head?_eq_none_iff] at hhead
            refine goesOn_dropUpload _ hexpiring₂ hlock hup₂ ?_ ?_
            · intro p hp hid
              have hmem : p ∈ recordedParts (db₂.without gone) up.uploadId :=
                mem_recordedParts.mpr ⟨hp, hid⟩
              simp [hhead] at hmem
            · intro held₃ gone₃ db₃ _ _ _ hexpiring₃
              exact ih removed hexpiring₃
        | some part =>
            obtain ⟨hpart, hid⟩ := mem_recordedParts.mp (List.mem_of_mem_head? hhead)
            refine goesOn_expirePart hexpiring₂ hlock hup₂ hpart hid ?_
            intro n held₃ gone₃ db₃ _ _ _ hexpiring₃
            dsimp only
            split
            · exact goesOn_commit fun db₄ h₄ _ => (hexpiring₃.mono h₄).commits
            · exact ih _ hexpiring₃

theorem goesOn_expireUploads {now : ℤ} {budget : ExpiryBudget} :
    GoesOn hash sha256 (.expireUploads now budget) (Sql.expireUploads now budget) [] [] db := by
  refine goesOn_select fun db₁ _ _ => ?_
  have hinvalid : expireUploads db₁ now budget = .error .invalidExpiryBudget →
      Refused sha256 (.expireUploads now budget) db₁ (.failed .invalidExpiryBudget) := by
    intro h
    left
    simp only [Job.serial, apply, h]
  obtain ⟨grace, maxRows, bucket⟩ := budget
  cases grace with
  | none => exact goesOn_rollback (hinvalid rfl)
  | some grace =>
      cases maxRows with
      | none => exact goesOn_rollback (hinvalid rfl)
      | some maxRows =>
          simp only
          split
          · rename_i hbudget
            exact goesOn_rollback (hinvalid (by simp only [expireUploads, hbudget, if_true]))
          · exact goesOn_expireLoop 64 0 expiring_nil

end Pgvs3
