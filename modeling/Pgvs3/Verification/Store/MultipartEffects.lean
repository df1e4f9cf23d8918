import Pgvs3.Verification.Store.Effects

/-! # What each multipart transaction does to the tables -/

namespace Pgvs3

open Library

/-! ## Part records -/

theorem mem_recordedParts {db : Db} {uploadId : Text} {p : UploadPartRow} :
    p ∈ recordedParts db uploadId ↔ p ∈ db.uploadParts ∧ p.uploadId = uploadId := by
  simp [recordedParts, Table.mem_def]

theorem nodup_partNos (db : Db) (uploadId : Text) :
    ((db.uploadParts.rows.filter (fun p => p.uploadId = uploadId)).map (·.partNo)).Nodup := by
  have hkeys := db.uploadParts.nodup.sublist
    ((List.filter_sublist (l := db.uploadParts.rows)
      (p := fun p => decide (p.uploadId = uploadId))).map UploadPartRow.primaryKey)
  rw [List.Nodup, List.pairwise_map] at hkeys ⊢
  refine hkeys.imp_of_mem ?_
  intro p q hp hq hne heq
  simp only [List.mem_filter, decide_eq_true_eq] at hp hq
  exact hne (Prod.ext (hp.2.trans hq.2.symm) heq)

theorem recordedParts_increasing (db : Db) (uploadId : Text) :
    (recordedParts db uploadId).Pairwise (fun p q => p.partNo < q.partNo) :=
  pairwise_lt_sortByKey (nodup_partNos db uploadId)

/-- The entry that a client lists for a recorded part. -/
def UploadPartRow.listing (p : UploadPartRow) : ℤ × Text := (p.partNo, hex p.sha256)

/-- Running totals, starting from `total`. -/
def cumulate : ℤ → List ℤ → List ℤ
  | _, [] => []
  | total, n :: rest => (total + n) :: cumulate (total + n) rest

/-- What the validation loop has accumulated once it has accepted `rows`. -/
def PartTally.extend (tally : PartTally) (rows : List UploadPartRow) : PartTally where
  ids := tally.ids ++ rows.map (·.fileId)
  ends := tally.ends ++ cumulate tally.size (rows.map (·.size))
  size := tally.size + (rows.map (·.size)).sum
  hashed := tally.hashed ++ rows.flatMap (·.sha256)

/-- The validation loop accepts exactly the listing of the recorded parts. -/
theorem checkParts_eq_some_iff {tally tally' : PartTally} {want : List (ℤ × Text)}
    {rows : List UploadPartRow} (hlen : want.length = rows.length) :
    checkParts tally want rows = some tally' ↔
      want = rows.map UploadPartRow.listing ∧ tally' = tally.extend rows := by
  induction want generalizing tally rows with
  | nil =>
      obtain rfl : rows = [] := List.length_eq_zero_iff.mp hlen.symm
      simp [checkParts, PartTally.extend, cumulate, eq_comm]
  | cons p want ih =>
      cases rows with
      | nil => simp at hlen
      | cons r rows =>
          simp only [List.length_cons, Nat.add_right_cancel_iff] at hlen
          simp only [checkParts]
          by_cases hp : p.1 ≠ r.partNo ∨ p.2 ≠ hex r.sha256
          · rw [if_pos hp]
            constructor
            · intro h
              cases h
            · rintro ⟨h, _⟩
              rw [List.map_cons, List.cons.injEq] at h
              simp [h.1, UploadPartRow.listing] at hp
          · rw [if_neg hp, ih hlen]
            push Not at hp
            have hpr : p = r.listing := Prod.ext hp.1 hp.2
            have hext : (⟨tally.ids ++ [r.fileId], tally.ends ++ [tally.size + r.size],
                tally.size + r.size, tally.hashed ++ r.sha256⟩ : PartTally).extend rows =
                  tally.extend (r :: rows) := by
              simp [PartTally.extend, cumulate, add_assoc]
            rw [hext, List.map_cons, List.cons.injEq]
            simp [hpr]

/-! ## Complete -/

def completeWrite (sha256 : Bytes → Bytes) (rows : List UploadPartRow) : ObjectWrite where
  fileId := (rows.map (·.fileId)).headD 0
  size := (rows.map (·.size)).sum
  etag := sha256 (rows.flatMap (·.sha256))
  parts := some (rows.map (·.fileId), cumulate 0 (rows.map (·.size)))
  condition := .unconditional

/-- The database after Complete has published `rows` of an upload. -/
def completed (sha256 : Bytes → Bytes) (db : Db) (now : ℤ) (uploadId bucket key : Text) : Db :=
  deleteUpload
    (published db ((completeWrite sha256 (recordedParts db uploadId)).row now bucket key)
      (db.objects.find? (bucket, key)))
    uploadId

def UploadAt (db : Db) (uploadId bucket key : Text) : Prop :=
  ∃ up, db.uploads.find? uploadId = some up ∧ up.bucket = bucket ∧ up.key = key

theorem uploadExists_iff {db : Db} {uploadId bucket key : Text} :
    uploadExists db uploadId bucket key = true ↔ UploadAt db uploadId bucket key := by
  unfold uploadExists UploadAt
  cases db.uploads.find? uploadId <;> simp

/-- When Complete may publish: the listing is that of the recorded parts, at least one. -/
def CompleteAccepts (db : Db) (uploadId bucket key : Text) (listed : List (ℤ × Text)) : Prop :=
  UploadAt db uploadId bucket key ∧ recordedParts db uploadId ≠ [] ∧
    sortListed listed = (recordedParts db uploadId).map UploadPartRow.listing

/-- The constraints of `s3p.objects` admit what Complete publishes. -/
def CompleteFits (db : Db) (uploadId bucket key : Text) : Prop :=
  db.buckets.find? bucket ≠ none ∧
    ∀ r ∈ db.objects, r.fileId = ((recordedParts db uploadId).map (·.fileId)).headD 0 →
      r.primaryKey = (bucket, key)

/-- The four outcomes of Complete, with their effect. -/
theorem completeUpload_cases (sha256 : Bytes → Bytes) (db : Db) (now : ℤ)
    (uploadId bucket key : Text) (listed : List (ℤ × Text)) :
    (¬ UploadAt db uploadId bucket key ∧
      completeUpload sha256 db now uploadId bucket key listed = .ok (db, .noSuchUpload)) ∨
    (UploadAt db uploadId bucket key ∧ ¬ CompleteAccepts db uploadId bucket key listed ∧
      completeUpload sha256 db now uploadId bucket key listed = .ok (db, .invalidPart)) ∨
    (CompleteAccepts db uploadId bucket key listed ∧ ¬ CompleteFits db uploadId bucket key ∧
      ∃ e, completeUpload sha256 db now uploadId bucket key listed = .error e) ∨
    (CompleteAccepts db uploadId bucket key listed ∧ CompleteFits db uploadId bucket key ∧
      completeUpload sha256 db now uploadId bucket key listed =
        .ok (completed sha256 db now uploadId bucket key,
          .done bucket key (completeWrite sha256 (recordedParts db uploadId)).etag
            (completeWrite sha256 (recordedParts db uploadId)).size)) := by
  unfold completeUpload
  cases hup : db.uploads.find? uploadId with
  | none =>
      left
      exact ⟨by rintro ⟨up, h, _⟩; simp [hup] at h, rfl⟩
  | some up =>
      by_cases hreq : up.bucket ≠ bucket ∨ up.key ≠ key
      · left
        refine ⟨?_, by simp [hreq]⟩
        rintro ⟨up', h, hb, hk⟩
        rw [hup, Option.some.injEq] at h
        subst h
        simp [hb, hk] at hreq
      · simp only [hreq, if_false]
        push Not at hreq
        obtain ⟨rfl, rfl⟩ := hreq
        have hat : UploadAt db uploadId up.bucket up.key := ⟨up, hup, rfl, rfl⟩
        right
        have hacc : CompleteAccepts db uploadId up.bucket up.key listed ↔
            recordedParts db uploadId ≠ [] ∧
              sortListed listed = (recordedParts db uploadId).map UploadPartRow.listing := by
          simp [CompleteAccepts, hat]
        by_cases hshape : sortListed listed = [] ∨
            (sortListed listed).length ≠ (recordedParts db uploadId).length
        · left
          rw [if_pos hshape]
          refine ⟨hat, ?_, rfl⟩
          rw [hacc]
          rintro ⟨hne, heq⟩
          rw [heq] at hshape
          simp [hne] at hshape
        · rw [if_neg hshape]
          push Not at hshape
          obtain ⟨hne, hlen⟩ := hshape
          have hrows : recordedParts db uploadId ≠ [] := by
            intro h
            rw [h, List.length_nil] at hlen
            exact hne (List.length_eq_zero_iff.mp hlen)
          cases hcheck : checkParts .start (sortListed listed) (recordedParts db uploadId) with
          | none =>
              left
              refine ⟨hat, ?_, rfl⟩
              rw [hacc]
              rintro ⟨_, heq⟩
              have hsome := (@checkParts_eq_some_iff .start _ _ _ hlen).mpr ⟨heq, rfl⟩
              rw [hcheck] at hsome
              cases hsome
          | some tally =>
              right
              obtain ⟨heq, rfl⟩ := (checkParts_eq_some_iff hlen).mp hcheck
              have hwrite : (⟨((PartTally.start.extend (recordedParts db uploadId)).ids).headD 0,
                  (PartTally.start.extend (recordedParts db uploadId)).size,
                  sha256 (PartTally.start.extend (recordedParts db uploadId)).hashed,
                  some ((PartTally.start.extend (recordedParts db uploadId)).ids,
                    (PartTally.start.extend (recordedParts db uploadId)).ends),
                  .unconditional⟩ : ObjectWrite) =
                    completeWrite sha256 (recordedParts db uploadId) := by
                simp [PartTally.extend, PartTally.start, completeWrite]
              simp only [hwrite]
              have hswap : ∀ db', _ ↔ _ := fun db' => @swapObject_ok_iff db db' now up.bucket
                up.key (completeWrite sha256 (recordedParts db uploadId))
              cases hs : swapObject db now up.bucket up.key
                  (completeWrite sha256 (recordedParts db uploadId)) with
              | error e =>
                  left
                  refine ⟨hacc.mpr ⟨hrows, heq⟩, ?_, e, rfl⟩
                  rintro ⟨hb, huniq⟩
                  have := (hswap _).mpr ⟨rfl, hb, huniq, rfl⟩
                  rw [hs] at this
                  cases this
              | ok db₁ =>
                  right
                  obtain ⟨_, hb, huniq, rfl⟩ := (hswap _).mp hs
                  refine ⟨hacc.mpr ⟨hrows, heq⟩, ⟨hb, huniq⟩, ?_⟩
                  simp [completed, completeWrite, PartTally.extend, PartTally.start]

theorem completeUpload_done_iff {sha256 : Bytes → Bytes} {db db' : Db} {now size : ℤ}
    {uploadId bucket key b k : Text} {listed : List (ℤ × Text)} {etag : Bytes} :
    completeUpload sha256 db now uploadId bucket key listed = .ok (db', .done b k etag size) ↔
      CompleteAccepts db uploadId bucket key listed ∧ CompleteFits db uploadId bucket key ∧
      db' = completed sha256 db now uploadId bucket key ∧ b = bucket ∧ k = key ∧
      etag = (completeWrite sha256 (recordedParts db uploadId)).etag ∧
      size = (completeWrite sha256 (recordedParts db uploadId)).size := by
  rcases completeUpload_cases sha256 db now uploadId bucket key listed with
    ⟨hno, h⟩ | ⟨_, hno, h⟩ | ⟨_, hno, e, h⟩ | ⟨hacc, hfit, h⟩
  · simp [h, CompleteAccepts, hno]
  · simp [h, hno]
  · simp [h, hno]
  · rw [h]
    simp only [Except.ok.injEq, Prod.mk.injEq, Completed.done.injEq, hacc, hfit, true_and]
    constructor
    · rintro ⟨rfl, rfl, rfl, rfl, rfl⟩
      exact ⟨rfl, rfl, rfl, rfl, rfl⟩
    · rintro ⟨rfl, rfl, rfl, rfl, rfl⟩
      exact ⟨rfl, rfl, rfl, rfl, rfl⟩

theorem CompleteAccepts.completes {sha256 : Bytes → Bytes} {db : Db} {uploadId bucket key : Text}
    {listed : List (ℤ × Text)} (h : CompleteAccepts db uploadId bucket key listed)
    (hfits : CompleteFits db uploadId bucket key) (now : ℤ) :
    completeUpload sha256 db now uploadId bucket key listed =
      .ok (completed sha256 db now uploadId bucket key,
        .done bucket key (completeWrite sha256 (recordedParts db uploadId)).etag
          (completeWrite sha256 (recordedParts db uploadId)).size) :=
  completeUpload_done_iff.mpr ⟨h, hfits, rfl, rfl, rfl, rfl, rfl⟩

/-- A permutation of the listing of the recorded parts is accepted. -/
theorem sortListed_of_perm {db : Db} {uploadId : Text} {listed : List (ℤ × Text)}
    (h : listed.Perm ((recordedParts db uploadId).map UploadPartRow.listing)) :
    sortListed listed = (recordedParts db uploadId).map UploadPartRow.listing := by
  apply sortByKey_eq_of_perm h
  rw [List.pairwise_map]
  exact recordedParts_increasing db uploadId

/-! ## Expiry -/

/-- What an expiry may do: it only deletes, chunk rows only of recorded parts, and a
part record only when no chunk row of its file is left. -/
structure Expires (db db' : Db) : Prop where
  buckets_eq : db'.buckets = db.buckets
  objects_eq : db'.objects = db.objects
  fileSeq_eq : db'.fileSeq = db.fileSeq
  uploads_sub : ∀ u ∈ db'.uploads, u ∈ db.uploads
  parts_sublist : db'.uploadParts.rows.Sublist db.uploadParts.rows
  chunks_sub : ∀ c ∈ db'.chunks, c ∈ db.chunks
  lost_chunk : ∀ c ∈ db.chunks, c ∉ db'.chunks → ∃ p ∈ db.uploadParts, p.fileId = c.fileId
  lost_part : ∀ p ∈ db.uploadParts, p ∉ db'.uploadParts → ∀ c ∈ db'.chunks, c.fileId ≠ p.fileId

theorem Expires.refl (db : Db) : Expires db db where
  buckets_eq := rfl
  objects_eq := rfl
  fileSeq_eq := rfl
  uploads_sub := fun _ h => h
  parts_sublist := List.Sublist.refl _
  chunks_sub := fun _ h => h
  lost_chunk := fun _ h h' => (h' h).elim
  lost_part := fun _ h h' => (h' h).elim

theorem Expires.trans {db₁ db₂ db₃ : Db} (h : Expires db₁ db₂) (h' : Expires db₂ db₃) :
    Expires db₁ db₃ where
  buckets_eq := h'.buckets_eq.trans h.buckets_eq
  objects_eq := h'.objects_eq.trans h.objects_eq
  fileSeq_eq := h'.fileSeq_eq.trans h.fileSeq_eq
  uploads_sub := fun u hu => h.uploads_sub u (h'.uploads_sub u hu)
  parts_sublist := h'.parts_sublist.trans h.parts_sublist
  chunks_sub := fun c hc => h.chunks_sub c (h'.chunks_sub c hc)
  lost_chunk := by
    intro c hc hc'
    by_cases hmid : c ∈ db₂.chunks
    · obtain ⟨p, hp, hf⟩ := h'.lost_chunk c hmid hc'
      exact ⟨p, h.parts_sublist.subset hp, hf⟩
    · exact h.lost_chunk c hc hmid
  lost_part := by
    intro p hp hp' c hc
    by_cases hmid : p ∈ db₂.uploadParts
    · exact h'.lost_part p hmid hp' c hc
    · exact h.lost_part p hp hmid c (h'.chunks_sub c hc)

theorem expires_deleteUpload {db : Db} {uploadId : Text}
    (h : ∀ p ∈ db.uploadParts, p.uploadId ≠ uploadId) : Expires db (deleteUpload db uploadId) where
  buckets_eq := rfl
  objects_eq := rfl
  fileSeq_eq := rfl
  uploads_sub := fun u hu => (Table.mem_deleteWhere.mp hu).1
  parts_sublist := List.filter_sublist
  chunks_sub := fun _ hc => hc
  lost_chunk := fun _ hc hc' => (hc' hc).elim
  lost_part := by
    intro p hp hp'
    refine (hp' ?_).elim
    exact Table.mem_deleteWhere.mpr ⟨hp, by simpa using h p hp⟩

theorem nodup_chunkNos (db : Db) (fileId : ℤ) :
    ((db.chunks.rows.filter (fun c => c.fileId = fileId)).map (·.no)).Nodup := by
  have hkeys := db.chunks.nodup.sublist
    ((List.filter_sublist (l := db.chunks.rows)
      (p := fun c => decide (c.fileId = fileId))).map ChunkRow.primaryKey)
  rw [List.Nodup, List.pairwise_map] at hkeys ⊢
  refine hkeys.imp_of_mem ?_
  intro c d hc hd hne heq
  simp only [List.mem_filter, decide_eq_true_eq] at hc hd
  exact hne (Prod.ext (hc.2.trans hd.2.symm) heq)

theorem nodup_doomedRows (db : Db) (fileId remaining : ℤ) : (doomedRows db fileId remaining).Nodup :=
  (sortByKey_perm.nodup_iff.mpr (nodup_chunkNos db fileId)).sublist (List.take_sublist _ _)

theorem mem_doomedRows {db : Db} {fileId remaining no : ℤ}
    (h : no ∈ doomedRows db fileId remaining) : ∃ c ∈ db.chunks, c.fileId = fileId ∧ c.no = no := by
  have hmem := List.mem_of_mem_take h
  simp only [mem_sortByKey, List.mem_map, List.mem_filter, decide_eq_true_eq] at hmem
  obtain ⟨c, ⟨hc, hf⟩, hno⟩ := hmem
  exact ⟨c, hc, hf, hno⟩

theorem mem_doomedRows_of_lt {db : Db} {fileId remaining : ℤ}
    (h : ((doomedRows db fileId remaining).length : ℤ) < remaining) {c : ChunkRow}
    (hc : c ∈ db.chunks) (hf : c.fileId = fileId) : c.no ∈ doomedRows db fileId remaining := by
  unfold doomedRows at h ⊢
  rw [List.take_of_length_le]
  · simp only [mem_sortByKey, List.mem_map, List.mem_filter, decide_eq_true_eq]
    exact ⟨c, ⟨hc, hf⟩, rfl⟩
  · rw [List.length_take] at h
    omega

def cutRows (db : Db) (fileId : ℤ) (doomed : List ℤ) : Db :=
  { db with chunks := db.chunks.deleteWhere (fun c => c.fileId = fileId ∧ c.no ∈ doomed) }

def dropRecord (db : Db) (part : UploadPartRow) : Db :=
  { db with uploadParts := db.uploadParts.deleteWhere (fun p => p.primaryKey = part.primaryKey) }

/-- What is left of a visit when no row of the part remains. -/
def dropPart (db : Db) (part : UploadPartRow) : Db :=
  if ∃ p ∈ (dropRecord db part).uploadParts.rows, p.uploadId = part.uploadId then
    dropRecord db part
  else deleteUpload (dropRecord db part) part.uploadId

theorem expirePart_eq (db : Db) (part : UploadPartRow) (remaining : ℤ) :
    expirePart db part remaining =
      (if ((doomedRows db part.fileId remaining).length : ℤ) < remaining then
        dropPart (cutRows db part.fileId (doomedRows db part.fileId remaining)) part
      else cutRows db part.fileId (doomedRows db part.fileId remaining),
      ((doomedRows db part.fileId remaining).length : ℤ)) := by
  unfold expirePart dropPart dropRecord cutRows
  dsimp only
  split
  · split <;> rfl
  · rfl

theorem mem_cutRows {db : Db} {fileId : ℤ} {doomed : List ℤ} {c : ChunkRow} :
    c ∈ (cutRows db fileId doomed).chunks ↔ c ∈ db.chunks ∧ ¬ (c.fileId = fileId ∧ c.no ∈ doomed) := by
  simp [cutRows]

theorem mem_dropRecord {db : Db} {part p : UploadPartRow} :
    p ∈ (dropRecord db part).uploadParts ↔ p ∈ db.uploadParts ∧ p.primaryKey ≠ part.primaryKey := by
  simp [dropRecord]

theorem cutRows_leaves_none {db : Db} {fileId remaining : ℤ}
    (h : ((doomedRows db fileId remaining).length : ℤ) < remaining) :
    ∀ c ∈ (cutRows db fileId (doomedRows db fileId remaining)).chunks, c.fileId ≠ fileId := by
  intro c hc hf
  obtain ⟨hc, hkeep⟩ := mem_cutRows.mp hc
  exact hkeep ⟨hf, mem_doomedRows_of_lt h hc hf⟩

theorem expires_cutRows {db : Db} {part : UploadPartRow} (hpart : part ∈ db.uploadParts)
    (doomed : List ℤ) : Expires db (cutRows db part.fileId doomed) :=
  { Expires.refl db with
    chunks_sub := fun c hc => (mem_cutRows.mp hc).1
    lost_chunk := by
      intro c hc hc'
      by_contra hother
      exact hc' (mem_cutRows.mpr ⟨hc, fun hcut => hother ⟨part, hpart, hcut.1.symm⟩⟩)
    lost_part := fun _ hp hp' => (hp' hp).elim }

theorem expires_dropRecord {db : Db} {part : UploadPartRow} (hpart : part ∈ db.uploadParts)
    (hnone : ∀ c ∈ db.chunks, c.fileId ≠ part.fileId) : Expires db (dropRecord db part) :=
  { Expires.refl db with
    parts_sublist := List.filter_sublist
    lost_part := by
      intro p hp hp' c hc
      have hkey : p.primaryKey = part.primaryKey := by
        by_contra hne
        exact hp' (mem_dropRecord.mpr ⟨hp, hne⟩)
      rw [Table.eq_of_key hp hpart hkey]
      exact hnone c hc }

theorem expires_dropPart {db : Db} {part : UploadPartRow} (hpart : part ∈ db.uploadParts)
    (hnone : ∀ c ∈ db.chunks, c.fileId ≠ part.fileId) : Expires db (dropPart db part) := by
  have hdrop := expires_dropRecord hpart hnone
  unfold dropPart
  split
  · exact hdrop
  · rename_i hempty
    push Not at hempty
    exact hdrop.trans (expires_deleteUpload hempty)

theorem expires_expirePart {db : Db} {part : UploadPartRow} (hpart : part ∈ db.uploadParts)
    (remaining : ℤ) : Expires db (expirePart db part remaining).1 := by
  have hcut := expires_cutRows hpart (doomedRows db part.fileId remaining)
  rw [expirePart_eq]
  dsimp only
  split
  · rename_i hlt
    exact hcut.trans (expires_dropPart hpart (cutRows_leaves_none hlt))
  · exact hcut

theorem expires_expireLoop (now grace maxRows : ℤ) (bucket : Option Text) (visits : ℕ) (db : Db)
    (removed : ℤ) : Expires db (expireLoop now grace maxRows bucket visits db removed).1 := by
  induction visits generalizing db removed with
  | zero => exact Expires.refl db
  | succ visits ih =>
      rw [expireLoop]
      split
      · exact Expires.refl db
      · rename_i up _
        split
        · rename_i hnone
          rw [List.head?_eq_none_iff] at hnone
          refine (expires_deleteUpload ?_).trans (ih _ _)
          intro p hp hid
          have : p ∈ recordedParts db up.uploadId := mem_recordedParts.mpr ⟨hp, hid⟩
          simp [hnone] at this
        · rename_i part hpart
          have hmem := (mem_recordedParts.mp (List.mem_of_mem_head? hpart)).1
          have hone := expires_expirePart hmem (maxRows - removed)
          simp only
          split
          · exact hone
          · exact hone.trans (ih _ _)

theorem expires_expireUploads {db db' : Db} {now rows : ℤ} {budget : ExpiryBudget}
    (h : expireUploads db now budget = .ok (db', rows)) : Expires db db' := by
  unfold expireUploads at h
  split at h
  · split at h
    · cases h
    · simp only [Except.ok.injEq] at h
      rename_i grace maxRows _ _ _
      have hexp := expires_expireLoop now grace maxRows budget.bucket 64 db 0
      rwa [h] at hexp
  · cases h

end Pgvs3
