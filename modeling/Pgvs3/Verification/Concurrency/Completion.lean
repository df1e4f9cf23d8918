import Pgvs3.Verification.Concurrency.Uploads

/-! # Complete and Abort under the terms -/

namespace Pgvs3

open Library

variable {hash : Text → Text → ℤ} {sha256 : Bytes → Bytes} {job : Job} {held : List Lock}
  {ws : List Write} {db : Db}

/-! ## The cascade -/

theorem Cascaded.mono {db db' : Db} {uploadId : Text} {gone : List Slot}
    (h : Cascaded held db ws uploadId gone) (hlock : .row (.upload uploadId) .update ∈ held)
    (hws : ∀ row, .putPart row ∉ ws) (hrely : Rely hash held db db') :
    Cascaded held db' ws uploadId gone where
  all := by
    intro p hp hid
    obtain ⟨hp, hkept⟩ := (mem_after_parts hws).mp hp
    exact h.all p ((mem_after_parts hws).mpr ⟨(hrely.parts _ hlock p hid).mp hp, hkept⟩) hid
  only := by
    intro t ht
    obtain ⟨p, hp, hid, heq⟩ := h.only t ht
    obtain ⟨hp, hkept⟩ := (mem_after_parts hws).mp hp
    exact ⟨p, (mem_after_parts hws).mpr ⟨(hrely.parts _ hlock p hid).mpr hp, hkept⟩, hid, heq⟩
  locked := h.locked

theorem Cascaded.weaken {held' : List Lock} {uploadId : Text} {gone : List Slot}
    (h : Cascaded held db ws uploadId gone) (hsub : held ⊆ held') :
    Cascaded held' db ws uploadId gone where
  all := h.all
  only := h.only
  locked := fun t ht => hsub (h.locked t ht)

theorem without_partSlots {slots : List Slot} (h : ∀ t ∈ slots, ∃ id no, t = .part id no) :
    db.without slots =
      { db with
        uploadParts := db.uploadParts.deleteWhere fun p => .part p.uploadId p.partNo ∈ slots } := by
  induction slots generalizing db with
  | nil => simp
  | cons slot slots ih =>
      obtain ⟨id, no, rfl⟩ := h slot (List.mem_cons_self ..)
      rw [without_cons, ih fun t ht => h t (List.mem_cons_of_mem _ ht)]
      simp only [Db.write, deleteWhere_deleteWhere]
      congr 1
      exact deleteWhere_congr fun p _ => by simp [UploadPartRow.primaryKey, Bool.decide_or]

theorem Cascaded.after {uploadId : Text} {gone : List Slot}
    (h : Cascaded held db ws uploadId gone) :
    db.after (ws ++ .remove (.upload uploadId) :: gone.map .remove) =
      deleteUpload (db.after ws) uploadId := by
  rw [after_append, after_cons]
  refine (without_partSlots fun t ht => ?_).trans ?_
  · obtain ⟨p, _, _, rfl⟩ := h.only t ht
    exact ⟨_, _, rfl⟩
  · simp only [Db.write, deleteUpload]
    congr 1
    refine deleteWhere_congr fun p hp => decide_eq_decide.mpr ⟨?_, ?_⟩
    · intro hmem
      obtain ⟨q, _, _, heq⟩ := h.only _ hmem
      exact (Slot.part.inj heq).1
    · rintro rfl
      exact h.all p hp rfl

theorem Rely.recordedParts_eq {db db' : Db} (h : Rely hash held db db') {uploadId : Text}
    (hlock : .row (.upload uploadId) .update ∈ held) :
    recordedParts db' uploadId = recordedParts db uploadId := by
  refine sortByKey_congr (nodup_partNos db uploadId) ?_
  have hnodup : ∀ db : Db, (db.uploadParts.rows.filter (fun p => p.uploadId = uploadId)).Nodup :=
    fun db => (nodup_partNos db uploadId).of_map
  refine (List.perm_ext_iff_of_nodup (hnodup db') (hnodup db)).mpr fun p => ?_
  simp only [List.mem_filter, decide_eq_true_eq]
  constructor
  · rintro ⟨hp, hid⟩
    exact ⟨(h.parts uploadId hlock p hid).mp hp, hid⟩
  · rintro ⟨hp, hid⟩
    exact ⟨(h.parts uploadId hlock p hid).mpr hp, hid⟩

/-! ## Complete -/

theorem after_publish {row : ObjectRow} {old : Option ObjectRow} {gone : List Slot}
    (hreaped : Reaped db (deadFiles old) gone) :
    db.after (.putObject row :: gone.map .remove) = published db row old := by
  have heq := hreaped.deleteWhere_eq db.chunks fun c hc => .inl hc
  rw [after_cons]
  refine (without_chunkSlots hreaped.chunkSlots).trans ?_
  simp only [Db.write, published, heq]

/-- Complete refuses unless the listing is that of the recorded parts. -/
theorem refused_completeUpload {now : ℤ} {uploadId bucket key : Text} {listed : List (ℤ × Text)}
    {up : UploadRow} (hup : db.uploads.find? uploadId = some up) (hb : up.bucket = bucket)
    (hk : up.key = key)
    (hlisted : ¬ (recordedParts db uploadId ≠ [] ∧
      sortListed listed = (recordedParts db uploadId).map UploadPartRow.listing)) :
    Refused sha256 (.completeUpload now uploadId bucket key listed) db (.completed .invalidPart) := by
  have hat : UploadAt db uploadId bucket key := ⟨up, hup, hb, hk⟩
  have hreject : ¬ CompleteAccepts db uploadId bucket key listed := fun h => hlisted h.2
  left
  rcases completeUpload_cases sha256 db now uploadId bucket key listed with
    ⟨hno, _⟩ | ⟨_, _, h⟩ | ⟨haccept, _⟩ | ⟨haccept, _⟩
  · exact (hno hat).elim
  · simp only [Job.serial, apply, h]
  · exact (hreject haccept).elim
  · exact (hreject haccept).elim

section Complete

variable {now : ℤ} {uploadId bucket key : Text} {listed : List (ℤ × Text)}

theorem CompleteAccepts.rely {db db' : Db} (h : CompleteAccepts db uploadId bucket key listed)
    (hlock : .row (.upload uploadId) .update ∈ held) (hrely : Rely hash held db db') :
    CompleteAccepts db' uploadId bucket key listed := by
  obtain ⟨⟨up, hup, hat⟩, hlisted⟩ := h
  refine ⟨⟨up, (hrely.upload uploadId .update (by decide) hlock).trans hup, hat⟩, ?_⟩
  rw [hrely.recordedParts_eq hlock]
  exact hlisted

theorem goesOn_completeSwapped {old : Option ObjectRow} {gone : List Slot} {a : Outcome}
    (hlock : .row (.upload uploadId) .update ∈ held) (hdb : Admissible db)
    (haccept : CompleteAccepts db uploadId bucket key listed)
    (hswap : Swapped hash held db bucket key .unconditional old gone)
    (ha : a = .completed (.done bucket key (completeWrite sha256 (recordedParts db uploadId)).etag
      (completeWrite sha256 (recordedParts db uploadId)).size)) :
    GoesOn hash sha256 (.completeUpload now uploadId bucket key listed)
      (Sql.deleteUpload uploadId (.commit a)) held
      (.putObject ((completeWrite sha256 (recordedParts db uploadId)).row now bucket key) ::
        gone.map .remove) db := by
  set row := (completeWrite sha256 (recordedParts db uploadId)).row now bucket key with hrow
  set ws : List Write := .putObject row :: gone.map .remove with hws
  have hchunks : ∀ t ∈ gone, ∃ f no, t = .chunk f no := hswap.reaped.chunkSlots
  have huploads : ∀ db : Db, (db.after ws).uploads = db.uploads := fun db =>
    after_uploads fun w hw => by
      simp only [hws, List.mem_cons, List.mem_map] at hw
      rcases hw with rfl | ⟨t, ht, rfl⟩
      · simp [Write.table]
      · obtain ⟨f, no, rfl⟩ := hchunks t ht
        simp [Write.table, Slot.table]
  have hparts : ∀ p, .putPart p ∉ ws := by simp [hws]
  have hkept : ∀ id no, .remove (.part id no) ∉ ws := by
    intro id no hmem
    simp only [hws, List.mem_cons, List.mem_map, reduceCtorEq, false_or] at hmem
    obtain ⟨t, ht, heq⟩ := hmem
    obtain ⟨f, no', rfl⟩ := hchunks t ht
    cases heq
  refine goesOn_deleteUpload hlock ?_ hparts ?_
  · intro db₁ h₁
    obtain ⟨⟨up, hup, -⟩, -⟩ := haccept.rely hlock h₁
    rw [huploads, hup]
    simp
  · intro gone' held₁ db₁ hsub h₁ _ hcascaded
    refine goesOn_commit fun db₂ h₂ _ => ?_
    have hlock₁ := hsub hlock
    have h₁₂ : Rely hash held db db₂ := h₁.trans (h₂.weaken hsub)
    have hswap₂ := (hswap.mono hdb h₁₂).weaken hsub
    have hcascaded₂ := hcascaded.mono hlock₁ hparts h₂
    have heq : db₂.after (ws ++ .remove (.upload uploadId) :: gone'.map .remove) =
        completed sha256 db₂ now uploadId bucket key := by
      have hfound := hswap₂.found
      subst hfound
      have hpublished : db₂.after ws = published db₂ row (db₂.objects.find? (bucket, key)) :=
        after_publish hswap₂.reaped
      rw [hcascaded₂.after, hpublished, completed, h₁₂.recordedParts_eq hlock]
    rw [heq, ha, ← h₁₂.recordedParts_eq hlock]
    refine .completeUpload hswap₂.locked hlock₁ ?_ (haccept.rely hlock h₁₂)
    intro p hp hid
    exact hcascaded₂.locked _ (hcascaded₂.all p
      ((mem_after_parts hparts).mpr ⟨hp, hkept _ _⟩) hid)

theorem goesOn_completeAccepted {a : Outcome} (hlock : .row (.upload uploadId) .update ∈ held)
    (hdepth : ∀ l ∈ held, l.depth ≤ 2)
    (haccept : CompleteAccepts db uploadId bucket key listed)
    (ha : a = .completed (.done bucket key (completeWrite sha256 (recordedParts db uploadId)).etag
      (completeWrite sha256 (recordedParts db uploadId)).size)) :
    GoesOn hash sha256 (.completeUpload now uploadId bucket key listed)
      (Sql.swapObject hash now bucket key (completeWrite sha256 (recordedParts db uploadId))
        (Sql.deleteUpload uploadId (.commit a))) held [] db := by
  refine goesOn_swapObject hdepth (by simp) (by simp [NoCopy]) ?_ ?_ ?_ ?_
  · intro db₁ h₁ hdb₁
    exact ((haccept.rely hlock h₁).fits hdb₁).1
  · intro db₁ h₁ hdb₁ r hr hf
    refine (haccept.rely hlock h₁).unpublished hdb₁ r hr ?_
    rw [h₁.recordedParts_eq hlock]
    exact hf
  · intro db₁ _ _ hdenied
    simp [completeWrite, PutCondition.allows] at hdenied
  · intro held₁ old gone db₁ hsub h₁ hdb₁ hswap
    rw [← h₁.recordedParts_eq hlock] at ha ⊢
    exact goesOn_completeSwapped (hsub hlock) hdb₁ (haccept.rely hlock h₁) hswap ha

theorem goesOn_completeUpload :
    GoesOn hash sha256 (.completeUpload now uploadId bucket key listed)
      (Sql.completeUpload hash sha256 now uploadId bucket key listed) [] [] db := by
  refine goesOn_lockRow ?_ ?_
  · intro db₁ _ _ hnone
    have hnone : db₁.uploads.find? uploadId = none := hnone
    exact goesOn_rollback
      (.inl (by simp [Job.serial, apply, Pgvs3.completeUpload, hnone]))
  · intro db₁ up _ _ hup
    have hup : db₁.uploads.find? uploadId = some up := hup
    refine ⟨.inl (by simp), trivial, ?_⟩
    set held₁ := [] ++ [Lock.row (.upload uploadId) .update] with hheld₁
    have hlock : Lock.row (.upload uploadId) .update ∈ held₁ := by simp [hheld₁]
    by_cases hrequest : up.bucket ≠ bucket ∨ up.key ≠ key
    · simp only [hrequest, if_true]
      exact goesOn_rollback
        (.inl (by simp [Job.serial, apply, Pgvs3.completeUpload, hup, hrequest]))
    · simp only [hrequest, if_false]
      push Not at hrequest
      obtain ⟨hb, hk⟩ := hrequest
      refine goesOn_select fun db₂ h₂ _ => ?_
      have hup₂ := (h₂.upload uploadId .update (by decide) hlock).trans hup
      rw [after_nil]
      by_cases hshape : sortListed listed = [] ∨
          (sortListed listed).length ≠ (recordedParts db₂ uploadId).length
      · rw [if_pos hshape]
        refine goesOn_rollback (refused_completeUpload hup₂ hb hk ?_)
        rintro ⟨hne, heq⟩
        rw [heq] at hshape
        simp [hne] at hshape
      · rw [if_neg hshape]
        push Not at hshape
        obtain ⟨hne, hlen⟩ := hshape
        cases hcheck : checkParts .start (sortListed listed) (recordedParts db₂ uploadId) with
        | none =>
            refine goesOn_rollback (refused_completeUpload hup₂ hb hk ?_)
            rintro ⟨_, heq⟩
            have hsome := (@checkParts_eq_some_iff .start _ _ _ hlen).mpr ⟨heq, rfl⟩
            rw [hcheck] at hsome
            cases hsome
        | some tally =>
            obtain ⟨heq, rfl⟩ := (checkParts_eq_some_iff hlen).mp hcheck
            have hrows : recordedParts db₂ uploadId ≠ [] := by
              intro hnil
              rw [heq, hnil] at hne
              exact hne rfl
            have hwrite : (⟨((PartTally.start.extend (recordedParts db₂ uploadId)).ids).headD 0,
                (PartTally.start.extend (recordedParts db₂ uploadId)).size,
                sha256 (PartTally.start.extend (recordedParts db₂ uploadId)).hashed,
                some ((PartTally.start.extend (recordedParts db₂ uploadId)).ids,
                  (PartTally.start.extend (recordedParts db₂ uploadId)).ends),
                .unconditional⟩ : ObjectWrite) =
                  completeWrite sha256 (recordedParts db₂ uploadId) := by
              simp [PartTally.extend, PartTally.start, completeWrite]
            have hetag := congrArg ObjectWrite.etag hwrite
            have hsize := congrArg ObjectWrite.size hwrite
            simp only [hwrite, hb, hk]
            refine goesOn_completeAccepted hlock (by simp [hheld₁, Lock.depth])
              ⟨⟨up, hup₂, hb, hk⟩, hrows, heq⟩ ?_
            rw [← hetag, ← hsize]

end Complete

/-! ## Abort -/

theorem mem_stagedFiles {db : Db} {uploadId : Text} {f : ℤ} :
    f ∈ stagedFiles db uploadId ↔ ∃ p ∈ db.uploadParts, p.uploadId = uploadId ∧ p.fileId = f := by
  simp only [stagedFiles, List.mem_map, List.mem_filter, decide_eq_true_eq, Table.mem_def, and_assoc]

theorem Rely.mem_stagedFiles_iff {db db' : Db} (h : Rely hash held db db') {uploadId : Text}
    (hlock : .row (.upload uploadId) .update ∈ held) {f : ℤ} :
    f ∈ stagedFiles db' uploadId ↔ f ∈ stagedFiles db uploadId := by
  rw [mem_stagedFiles, mem_stagedFiles]
  refine exists_congr fun p => ?_
  constructor
  · rintro ⟨hp, hid, hf⟩
    exact ⟨(h.parts uploadId hlock p hid).mp hp, hid, hf⟩
  · rintro ⟨hp, hid, hf⟩
    exact ⟨(h.parts uploadId hlock p hid).mpr hp, hid, hf⟩

theorem after_abort {uploadId : Text} {gone gone' : List Slot}
    (hcascaded : Cascaded held db [] uploadId gone) {files : List ℤ}
    (hfiles : ∀ f, f ∈ stagedFiles db uploadId ↔ f ∈ files) (hreaped : Reaped db files gone') :
    db.after (([] ++ .remove (.upload uploadId) :: gone.map .remove) ++ gone'.map .remove) =
      aborted db uploadId := by
  have heq := hreaped.deleteWhere_eq db.chunks fun c hc => .inl hc
  rw [after_append, hcascaded.after]
  refine (without_chunkSlots hreaped.chunkSlots).trans ?_
  simp only [after_nil, aborted]
  congr 1
  refine heq.trans (deleteWhere_congr fun c _ => decide_eq_decide.mpr (hfiles c.fileId).symm)

theorem goesOn_abortUpload {uploadId bucket key : Text} :
    GoesOn hash sha256 (.abortUpload uploadId bucket key) (Sql.abortUpload uploadId bucket key)
      [] [] db := by
  refine goesOn_lockRow ?_ ?_
  · intro db₁ _ _ hnone
    have hmissing : uploadExists db₁ uploadId bucket key = false := by
      rw [after_nil, Option.filter_eq_none_iff] at hnone
      rw [← Bool.not_eq_true, uploadExists_iff]
      rintro ⟨up, hup, hb, hk⟩
      exact hnone up hup (by simp [hb, hk])
    exact goesOn_rollback (.inl (by simp [Job.serial, apply, Pgvs3.abortUpload, hmissing]))
  · intro db₁ up _ _ hup
    rw [after_nil, Option.filter_eq_some_iff] at hup
    obtain ⟨hup, hmatch⟩ := hup
    obtain ⟨hb, hk⟩ := of_decide_eq_true hmatch
    refine ⟨.inl (by simp), trivial, ?_⟩
    set held₁ := [] ++ [Lock.row (.upload uploadId) .update] with hheld₁
    have hlock : Lock.row (.upload uploadId) .update ∈ held₁ := by simp [hheld₁]
    have hupload : ∀ db₂, Rely hash held₁ db₁ db₂ → db₂.uploads.find? uploadId = some up :=
      fun db₂ h₂ => (h₂.upload uploadId .update (by decide) hlock).trans hup
    refine goesOn_select fun db₂ h₂ _ => goesOn_deleteUpload hlock ?_ (by simp) ?_
    · intro db₃ h₃
      rw [after_nil, hupload db₃ (h₂.trans h₃)]
      simp
    · intro gone held₂ db₃ hsub h₃ _ hcascaded
      have hlock₂ := hsub hlock
      refine goesOn_deleteFiles (stagedFiles db₂ uploadId) (fun c => decide_eq_true_iff)
        ?_ ?_ ?_
      · intro db₄ h₄ _ f hf
        obtain ⟨p, hp, hid, hfile⟩ :=
          mem_stagedFiles.mp (((h₃.trans (h₄.weaken hsub)).mem_stagedFiles_iff hlock).mpr hf)
        exact ⟨.inl (.inr ⟨p, hp, by rwa [hid], hfile⟩), by simp [NoCopy]⟩
      · intro f no hmem
        simp only [List.nil_append, List.mem_cons, Write.remove.injEq, reduceCtorEq, List.mem_map,
          false_or] at hmem
        obtain ⟨t, ht, rfl⟩ := hmem
        obtain ⟨p, _, _, heq⟩ := hcascaded.only _ ht
        cases heq
      · intro gone' db₄ h₄ _ hreaped
        refine goesOn_commit fun db₅ h₅ _ => ?_
        have hsub₂ := List.subset_append_left held₂ (deleteLocks gone')
        have h₃₅ : Rely hash held₂ db₃ db₅ := h₄.trans (h₅.weaken hsub₂)
        have h₂₄ : Rely hash held₁ db₂ db₄ := h₃.trans (h₄.weaken hsub)
        have h₂₅ : Rely hash held₁ db₂ db₅ := h₃.trans (h₃₅.weaken hsub)
        have hcascaded₅ := (hcascaded.mono hlock₂ (by simp) h₃₅).weaken hsub₂
        have hreaped₅ : Reaped db₅ (stagedFiles db₂ uploadId) gone' := by
          refine hreaped.mono (fun f hf => ?_) (h₅.weaken hsub₂)
          obtain ⟨p, hp, hid, hfile⟩ :=
            mem_stagedFiles.mp ((h₂₄.mem_stagedFiles_iff hlock).mpr hf)
          exact .inl (.inr ⟨p, hp, by rwa [hid], hfile⟩)
        rw [after_abort hcascaded₅ (fun f => h₂₅.mem_stagedFiles_iff hlock) hreaped₅]
        refine .abortUpload (hsub₂ hlock₂) ?_ ⟨up, hupload db₅ (h₂.trans h₂₅), hb, hk⟩
        intro p hp hid
        exact hcascaded₅.locked _ (hcascaded₅.all p hp hid)

end Pgvs3
