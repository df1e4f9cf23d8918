import Pgvs3.Verification.Multipart.Complete
import Pgvs3.Verification.Multipart.Expiry

/-! # Expiry works off its backlog

One call of the expiry deletes at most its budget of chunk rows, touches eligible uploads
only and leaves no row without its record. Repeated calls work off every eligible upload. -/

namespace Pgvs3

open Library

variable {now grace : ℤ} {bucket : Option Text} {db db' : Db}

/-! ## What an expiry may delete -/

/-- Only eligible uploads, their part records and the chunk rows of these have gone, and no
record before the rows that it accounts for. -/
structure Confined (now grace : ℤ) (bucket : Option Text) (db db' : Db) : Prop
    extends Expires db db' where
  uploads_sublist : db'.uploads.rows.Sublist db.uploads.rows
  chunks_sublist : db'.chunks.rows.Sublist db.chunks.rows
  lost_upload : ∀ u ∈ db.uploads, u ∉ db'.uploads → eligible now grace bucket u ∧
    ∀ p ∈ db'.uploadParts, p.uploadId ≠ u.uploadId
  lost_record : ∀ p ∈ db.uploadParts, p ∉ db'.uploadParts →
    ∃ u ∈ db.uploads, eligible now grace bucket u ∧ u.uploadId = p.uploadId
  lost_row : ∀ c ∈ db.chunks, c ∉ db'.chunks → ∃ p ∈ db.uploadParts, p.fileId = c.fileId ∧
    ∃ u ∈ db.uploads, eligible now grace bucket u ∧ u.uploadId = p.uploadId

theorem Confined.refl (now grace : ℤ) (bucket : Option Text) (db : Db) :
    Confined now grace bucket db db :=
  { Expires.refl db with
    uploads_sublist := .refl _
    chunks_sublist := .refl _
    lost_upload := fun _ hu hu' => (hu' hu).elim
    lost_record := fun _ hp hp' => (hp' hp).elim
    lost_row := fun _ hc hc' => (hc' hc).elim }

theorem Confined.trans {db'' : Db} (h : Confined now grace bucket db db')
    (h' : Confined now grace bucket db' db'') : Confined now grace bucket db db'' :=
  { h.toExpires.trans h'.toExpires with
    uploads_sublist := h'.uploads_sublist.trans h.uploads_sublist
    chunks_sublist := h'.chunks_sublist.trans h.chunks_sublist
    lost_upload := by
      intro u hu hu'
      by_cases hmid : u ∈ db'.uploads
      · exact h'.lost_upload u hmid hu'
      · obtain ⟨helig, hnone⟩ := h.lost_upload u hu hmid
        exact ⟨helig, fun p hp => hnone p (h'.parts_sublist.subset hp)⟩
    lost_record := by
      intro p hp hp'
      by_cases hmid : p ∈ db'.uploadParts
      · obtain ⟨u, hu, hlost⟩ := h'.lost_record p hmid hp'
        exact ⟨u, h.uploads_sub u hu, hlost⟩
      · exact h.lost_record p hp hmid
    lost_row := by
      intro c hc hc'
      by_cases hmid : c ∈ db'.chunks
      · obtain ⟨p, hp, hf, u, hu, hlost⟩ := h'.lost_row c hmid hc'
        exact ⟨p, h.parts_sublist.subset hp, hf, u, h.uploads_sub u hu, hlost⟩
      · exact h.lost_row c hc hmid }

theorem confined_deleteUpload {up : UploadRow} (hup : up ∈ db.uploads)
    (helig : eligible now grace bucket up) (hnone : ∀ p ∈ db.uploadParts, p.uploadId ≠ up.uploadId) :
    Confined now grace bucket db (deleteUpload db up.uploadId) :=
  { expires_deleteUpload hnone with
    uploads_sublist := List.filter_sublist
    chunks_sublist := .refl _
    lost_upload := by
      intro u hu hu'
      have hid : u.uploadId = up.uploadId := by
        by_contra hne
        exact hu' (Table.mem_deleteWhere.mpr ⟨hu, by simpa using hne⟩)
      obtain rfl : u = up := Table.eq_of_key hu hup hid
      exact ⟨helig, fun p hp => hnone p (Table.mem_deleteWhere.mp hp).1⟩
    lost_record := by
      intro p hp hp'
      exact (hp' (Table.mem_deleteWhere.mpr ⟨hp, by simpa using hnone p hp⟩)).elim
    lost_row := fun _ hc hc' => (hc' hc).elim }

theorem confined_cutRows {up : UploadRow} {part : UploadPartRow} (hup : up ∈ db.uploads)
    (helig : eligible now grace bucket up) (hpart : part ∈ db.uploadParts)
    (hid : part.uploadId = up.uploadId) (doomed : List ℤ) :
    Confined now grace bucket db (cutRows db part.fileId doomed) :=
  { expires_cutRows hpart doomed with
    uploads_sublist := .refl _
    chunks_sublist := List.filter_sublist
    lost_upload := fun _ hu hu' => (hu' hu).elim
    lost_record := fun _ hp hp' => (hp' hp).elim
    lost_row := by
      intro c hc hc'
      have hf : c.fileId = part.fileId := by
        by_contra hne
        exact hc' (mem_cutRows.mpr ⟨hc, fun hcut => hne hcut.1⟩)
      exact ⟨part, hpart, hf.symm, up, hup, helig, hid.symm⟩ }

theorem confined_dropPart {up : UploadRow} {part : UploadPartRow} (hup : up ∈ db.uploads)
    (helig : eligible now grace bucket up) (hpart : part ∈ db.uploadParts)
    (hid : part.uploadId = up.uploadId) (hnone : ∀ c ∈ db.chunks, c.fileId ≠ part.fileId) :
    Confined now grace bucket db (dropPart db part) := by
  have hdrop : Confined now grace bucket db (dropRecord db part) :=
    { expires_dropRecord hpart hnone with
      uploads_sublist := .refl _
      chunks_sublist := .refl _
      lost_upload := fun _ hu hu' => (hu' hu).elim
      lost_record := by
        intro p hp hp'
        have hkey : p.primaryKey = part.primaryKey := by
          by_contra hne
          exact hp' (mem_dropRecord.mpr ⟨hp, hne⟩)
        obtain rfl := Table.eq_of_key hp hpart hkey
        exact ⟨up, hup, helig, hid.symm⟩
      lost_row := fun _ hc hc' => (hc' hc).elim }
  unfold dropPart
  split
  · exact hdrop
  · rename_i hempty
    push Not at hempty
    rw [hid] at hempty ⊢
    exact hdrop.trans (confined_deleteUpload hup helig hempty)

theorem confined_expirePart {up : UploadRow} {part : UploadPartRow} (hup : up ∈ db.uploads)
    (helig : eligible now grace bucket up) (hpart : part ∈ db.uploadParts)
    (hid : part.uploadId = up.uploadId) (remaining : ℤ) :
    Confined now grace bucket db (expirePart db part remaining).1 := by
  have hcut := confined_cutRows hup helig hpart hid (doomedRows db part.fileId remaining)
  rw [expirePart_eq]
  dsimp only
  split
  · rename_i hlt
    exact hcut.trans (confined_dropPart hup helig hpart hid (cutRows_leaves_none hlt))
  · exact hcut

/-! ## The number of rows deleted -/

@[simp] theorem dropPart_chunks (part : UploadPartRow) : (dropPart db part).chunks = db.chunks := by
  unfold dropPart
  split <;> rfl

theorem length_cutRows (fileId remaining : ℤ) :
    (cutRows db fileId (doomedRows db fileId remaining)).chunks.rows.length +
      (doomedRows db fileId remaining).length = db.chunks.rows.length := by
  set doomed := doomedRows db fileId remaining with hdoomed
  have hcut : ((db.chunks.rows.filter fun c => c.fileId = fileId ∧ c.no ∈ doomed).map (·.no)).Perm
      doomed := by
    have hnodup := (nodup_chunkNos db fileId).sublist
      ((List.monotone_filter_right db.chunks.rows (p := fun c => c.fileId = fileId ∧ c.no ∈ doomed)
        (q := fun c => c.fileId = fileId) fun c hc => by
          simp only [decide_eq_true_eq] at hc ⊢
          exact hc.1).map (·.no))
    refine (List.perm_ext_iff_of_nodup hnodup (nodup_doomedRows db fileId remaining)).mpr fun no => ?_
    simp only [List.mem_map, List.mem_filter, decide_eq_true_eq]
    constructor
    · rintro ⟨c, ⟨-, -, hno⟩, rfl⟩
      exact hno
    · intro hno
      obtain ⟨c, hc, hf, rfl⟩ := mem_doomedRows hno
      exact ⟨c, ⟨hc, hf, hno⟩, rfl⟩
  have hlen := hcut.length_eq
  rw [List.length_map] at hlen
  have hsplit := List.length_eq_length_filter_add (l := db.chunks.rows)
    fun c => decide (c.fileId = fileId ∧ c.no ∈ doomed)
  have hrows : (cutRows db fileId doomed).chunks.rows =
      db.chunks.rows.filter fun c => !decide (c.fileId = fileId ∧ c.no ∈ doomed) := rfl
  rw [hrows]
  omega

theorem expirePart_count (part : UploadPartRow) {remaining : ℤ} (h : 0 ≤ remaining) :
    ((expirePart db part remaining).1.chunks.rows.length : ℤ) + (expirePart db part remaining).2 =
      db.chunks.rows.length ∧
    0 ≤ (expirePart db part remaining).2 ∧ (expirePart db part remaining).2 ≤ remaining := by
  have hcount := @length_cutRows db part.fileId remaining
  have hle : (doomedRows db part.fileId remaining).length ≤ remaining.toNat :=
    List.length_take_le _ _
  rw [expirePart_eq]
  refine ⟨?_, Int.natCast_nonneg _, by dsimp only; omega⟩
  dsimp only
  split
  · rw [dropPart_chunks]
    exact_mod_cast hcount
  · exact_mod_cast hcount

/-- The loop deletes what it returns, within the budget. -/
theorem expireLoop_count {maxRows removed : ℤ} (visits : ℕ) (h : removed ≤ maxRows) :
    ((expireLoop now grace maxRows bucket visits db removed).1.chunks.rows.length : ℤ) +
        (expireLoop now grace maxRows bucket visits db removed).2 =
      db.chunks.rows.length + removed ∧
    (expireLoop now grace maxRows bucket visits db removed).2 ≤ maxRows := by
  induction visits generalizing db removed with
  | zero => exact ⟨rfl, h⟩
  | succ visits ih =>
      rw [expireLoop]
      split
      · exact ⟨rfl, h⟩
      · split
        · exact ih h
        · rename_i part _
          obtain ⟨hcount, -, hle⟩ := @expirePart_count db part (maxRows - removed) (by omega)
          dsimp only
          split
          · exact ⟨by dsimp only; omega, by dsimp only; omega⟩
          · obtain ⟨hcount', hle'⟩ := @ih (expirePart db part (maxRows - removed)).1
              (removed + (expirePart db part (maxRows - removed)).2) (by omega)
            exact ⟨by omega, hle'⟩

/-! ## The loop -/

theorem victimUpload?_eligible {up : UploadRow} (h : victimUpload? db now grace bucket = some up) :
    up ∈ db.uploads ∧ eligible now grace bucket up := by
  have hmem := List.mem_of_mem_head? h
  rw [List.mem_insertionSort, List.mem_filter] at hmem
  exact hmem

theorem victimUpload?_isSome (h : ∃ up ∈ db.uploads, eligible now grace bucket up) :
    ∃ up, victimUpload? db now grace bucket = some up := by
  obtain ⟨up, hup, helig⟩ := h
  unfold victimUpload?
  cases hsort : (db.uploads.rows.filter (eligible now grace bucket)).insertionSort olderUpload with
  | nil =>
      have hmem : up ∈ (db.uploads.rows.filter (eligible now grace bucket)).insertionSort
          olderUpload := (List.mem_insertionSort _).mpr (List.mem_filter.mpr ⟨hup, helig⟩)
      rw [hsort] at hmem
      cases hmem
  | cons v rest => exact ⟨v, rfl⟩

theorem expireLoop_visit {maxRows removed : ℤ} {visits : ℕ} {up : UploadRow}
    (hvictim : victimUpload? db now grace bucket = some up) :
    ∃ db₁, Confined now grace bucket db db₁ ∧
      ((up ∈ db.uploads ∧ up ∉ db₁.uploads) ∨
        (∃ p ∈ db.uploadParts, p.uploadId = up.uploadId ∧ p ∉ db₁.uploadParts) ∨
        (∃ p ∈ db.uploadParts, p.uploadId = up.uploadId ∧
          db₁ = cutRows db p.fileId (doomedRows db p.fileId (maxRows - removed)) ∧
          maxRows - removed ≤ (doomedRows db p.fileId (maxRows - removed)).length)) ∧
      ((expireLoop now grace maxRows bucket (visits + 1) db removed).1 = db₁ ∨
        ∃ removed', (expireLoop now grace maxRows bucket (visits + 1) db removed).1 =
          (expireLoop now grace maxRows bucket visits db₁ removed').1) := by
  obtain ⟨hup, helig⟩ := victimUpload?_eligible hvictim
  rw [expireLoop, hvictim]
  dsimp only
  cases hhead : (recordedParts db up.uploadId).head? with
  | none =>
      rw [List.head?_eq_none_iff] at hhead
      have hnone : ∀ p ∈ db.uploadParts, p.uploadId ≠ up.uploadId := by
        intro p hp hid
        have hmem : p ∈ recordedParts db up.uploadId := mem_recordedParts.mpr ⟨hp, hid⟩
        simp [hhead] at hmem
      refine ⟨_, confined_deleteUpload hup helig hnone, .inl ⟨hup, fun hmem => ?_⟩, .inr ⟨_, rfl⟩⟩
      simpa using (Table.mem_deleteWhere.mp hmem).2
  | some part =>
      obtain ⟨hpart, hid⟩ := mem_recordedParts.mp (List.mem_of_mem_head? hhead)
      refine ⟨_, confined_expirePart hup helig hpart hid (maxRows - removed), .inr ?_, ?_⟩
      · rw [expirePart_eq]
        by_cases hlt : ((doomedRows db part.fileId (maxRows - removed)).length : ℤ) <
            maxRows - removed
        · left
          refine ⟨part, hpart, hid, ?_⟩
          rw [if_pos hlt]
          intro hmem
          have hrecord : part ∈ (dropRecord (cutRows db part.fileId
              (doomedRows db part.fileId (maxRows - removed))) part).uploadParts := by
            unfold dropPart at hmem
            split at hmem
            · exact hmem
            · exact (Table.mem_deleteWhere.mp hmem).1
          exact (mem_dropRecord.mp hrecord).2 rfl
        · right
          exact ⟨part, hpart, hid, by rw [if_neg hlt], not_lt.mp hlt⟩
      · dsimp only
        split
        · exact .inl rfl
        · exact .inr ⟨_, rfl⟩

theorem confined_expireLoop (now grace maxRows : ℤ) (bucket : Option Text) (visits : ℕ) (db : Db)
    (removed : ℤ) : Confined now grace bucket db
      (expireLoop now grace maxRows bucket visits db removed).1 := by
  induction visits generalizing db removed with
  | zero => exact .refl ..
  | succ visits ih =>
      cases hvictim : victimUpload? db now grace bucket with
      | none =>
          rw [expireLoop, hvictim]
          exact .refl ..
      | some up =>
          obtain ⟨db₁, hone, -, heq | ⟨removed', heq⟩⟩ := @expireLoop_visit _ _ _ _ maxRows removed
            visits _ hvictim
          · rw [heq]
            exact hone
          · rw [heq]
            exact hone.trans (ih db₁ removed')

/-! ## Progress -/

def eligibleUploads (now grace : ℤ) (bucket : Option Text) (db : Db) : List UploadRow :=
  db.uploads.rows.filter (eligible now grace bucket)

def eligibleParts (now grace : ℤ) (bucket : Option Text) (db : Db) : List UploadPartRow :=
  db.uploadParts.rows.filter fun p =>
    ∃ u ∈ eligibleUploads now grace bucket db, u.uploadId = p.uploadId

def eligibleRows (now grace : ℤ) (bucket : Option Text) (db : Db) : List ChunkRow :=
  db.chunks.rows.filter fun c => ∃ p ∈ eligibleParts now grace bucket db, p.fileId = c.fileId

/-- Eligible uploads, their part records and the chunk rows of these. -/
def backlog (now grace : ℤ) (bucket : Option Text) (db : Db) : ℕ :=
  (eligibleUploads now grace bucket db).length + (eligibleParts now grace bucket db).length +
    (eligibleRows now grace bucket db).length

theorem filter_sublist_filter {α : Type*} {xs ys : List α} {p q : α → Bool} (h : xs.Sublist ys)
    (hpq : ∀ a, p a = true → q a = true) : (xs.filter p).Sublist (ys.filter q) :=
  (h.filter p).trans (List.monotone_filter_right ys hpq)

theorem Confined.eligibleUploads_sublist (h : Confined now grace bucket db db') :
    (eligibleUploads now grace bucket db').Sublist (eligibleUploads now grace bucket db) :=
  h.uploads_sublist.filter _

theorem Confined.eligibleParts_sublist (h : Confined now grace bucket db db') :
    (eligibleParts now grace bucket db').Sublist (eligibleParts now grace bucket db) := by
  refine filter_sublist_filter h.parts_sublist fun p hp => ?_
  obtain ⟨u, hu, hid⟩ := of_decide_eq_true hp
  exact decide_eq_true ⟨u, h.eligibleUploads_sublist.subset hu, hid⟩

theorem Confined.eligibleRows_sublist (h : Confined now grace bucket db db') :
    (eligibleRows now grace bucket db').Sublist (eligibleRows now grace bucket db) := by
  refine filter_sublist_filter h.chunks_sublist fun c hc => ?_
  obtain ⟨p, hp, hf⟩ := of_decide_eq_true hc
  exact decide_eq_true ⟨p, h.eligibleParts_sublist.subset hp, hf⟩

theorem Confined.backlog_le (h : Confined now grace bucket db db') :
    backlog now grace bucket db' ≤ backlog now grace bucket db :=
  Nat.add_le_add (Nat.add_le_add h.eligibleUploads_sublist.length_le
    h.eligibleParts_sublist.length_le) h.eligibleRows_sublist.length_le

theorem length_lt_of_lost {α : Type*} {xs ys : List α} {a : α} (h : xs.Sublist ys) (ha : a ∈ ys)
    (ha' : a ∉ xs) : xs.length < ys.length := by
  refine lt_of_le_of_ne h.length_le fun heq => ha' ?_
  rw [h.eq_of_length heq]
  exact ha

theorem Confined.backlog_lt (h : Confined now grace bucket db db') {up : UploadRow}
    (hup : up ∈ db.uploads) (helig : eligible now grace bucket up)
    (hlost : up ∉ db'.uploads ∨
      ∃ p ∈ db.uploadParts, p.uploadId = up.uploadId ∧ (p ∉ db'.uploadParts ∨
        ∃ c ∈ db.chunks, c.fileId = p.fileId ∧ c ∉ db'.chunks)) :
    backlog now grace bucket db' < backlog now grace bucket db := by
  have huploads := h.eligibleUploads_sublist
  have hparts := h.eligibleParts_sublist
  have hrows := h.eligibleRows_sublist
  have hup' : up ∈ eligibleUploads now grace bucket db := List.mem_filter.mpr ⟨hup, helig⟩
  have hpart' : ∀ p ∈ db.uploadParts, p.uploadId = up.uploadId →
      p ∈ eligibleParts now grace bucket db := fun p hp hid =>
    List.mem_filter.mpr ⟨hp, decide_eq_true ⟨up, hup', hid.symm⟩⟩
  have hle := huploads.length_le
  have hle' := hparts.length_le
  have hle'' := hrows.length_le
  unfold backlog
  rcases hlost with hgone | ⟨p, hp, hid, hgone | ⟨c, hc, hf, hgone⟩⟩
  · have hlt := length_lt_of_lost huploads hup' fun hmem => hgone (List.mem_of_mem_filter hmem)
    omega
  · have hlt := length_lt_of_lost hparts (hpart' p hp hid) fun hmem =>
      hgone (List.mem_of_mem_filter hmem)
    omega
  · have hrow : c ∈ eligibleRows now grace bucket db :=
      List.mem_filter.mpr ⟨hc, decide_eq_true ⟨p, hpart' p hp hid, hf.symm⟩⟩
    have hlt := length_lt_of_lost hrows hrow fun hmem => hgone (List.mem_of_mem_filter hmem)
    omega

theorem backlog_expireLoop_lt {maxRows : ℤ} (hmax : 1 ≤ maxRows) (visits : ℕ)
    (h : ∃ up ∈ db.uploads, eligible now grace bucket up) :
    backlog now grace bucket (expireLoop now grace maxRows bucket (visits + 1) db 0).1 <
      backlog now grace bucket db := by
  obtain ⟨up, hvictim⟩ := victimUpload?_isSome h
  obtain ⟨hup, helig⟩ := victimUpload?_eligible hvictim
  obtain ⟨db₁, hone, hlost, hrest⟩ := @expireLoop_visit now grace bucket db maxRows 0 visits up hvictim
  have hlt : backlog now grace bucket db₁ < backlog now grace bucket db := by
    refine hone.backlog_lt hup helig ?_
    rcases hlost with ⟨-, hgone⟩ | ⟨p, hp, hid, hgone⟩ | ⟨p, hp, hid, rfl, hfull⟩
    · exact .inl hgone
    · exact .inr ⟨p, hp, hid, .inl hgone⟩
    · -- the whole budget went into rows of this part, at least one
      obtain ⟨no, hno⟩ : ∃ no, no ∈ doomedRows db p.fileId (maxRows - 0) := by
        refine List.exists_mem_of_length_pos ?_
        omega
      obtain ⟨c, hc, hf, rfl⟩ := mem_doomedRows hno
      exact .inr ⟨p, hp, hid, .inr ⟨c, hc, hf, fun hmem => (mem_cutRows.mp hmem).2 ⟨hf, hno⟩⟩⟩
  rcases hrest with heq | ⟨removed', heq⟩
  · rw [heq]
    exact hlt
  · rw [heq]
    exact (confined_expireLoop now grace maxRows bucket visits db₁ removed').backlog_le.trans_lt hlt

/-! ## Calls -/

/-- One valid call: bounded, confined and with progress. -/
structure CallSound (db : Db) (now grace maxRows : ℤ) (bucket : Option Text) (db' : Db)
    (removed : ℤ) : Prop where
  counts : (db.chunks.rows.length : ℤ) - db'.chunks.rows.length = removed
  bounded : removed ≤ maxRows
  confined : Confined now grace bucket db db'
  progress : (∃ up ∈ db.uploads, eligible now grace bucket up) →
    backlog now grace bucket db' < backlog now grace bucket db

/-- The uploads that were eligible in `db` are gone from `db'`, with all that they had. -/
structure WorkedOff (now grace : ℤ) (bucket : Option Text) (db db' : Db) : Prop where
  uploads : ∀ up ∈ db'.uploads, ¬ eligible now grace bucket up
  parts : ∀ up ∈ db.uploads, eligible now grace bucket up → ∀ p ∈ db'.uploadParts,
    p.uploadId ≠ up.uploadId
  rows : ∀ up ∈ db.uploads, eligible now grace bucket up → ∀ p ∈ db.uploadParts,
    p.uploadId = up.uploadId → ∀ c ∈ db'.chunks, c.fileId ≠ p.fileId

theorem Confined.workedOff (h : Confined now grace bucket db db')
    (hnone : ∀ up ∈ db'.uploads, ¬ eligible now grace bucket up) :
    WorkedOff now grace bucket db db' := by
  have hparts : ∀ up ∈ db.uploads, eligible now grace bucket up → ∀ p ∈ db'.uploadParts,
      p.uploadId ≠ up.uploadId := by
    intro up hup helig
    exact (h.lost_upload up hup fun hmem => hnone up hmem helig).2
  refine ⟨hnone, hparts, fun up hup helig p hp hid => ?_⟩
  exact h.lost_part p hp fun hmem => hparts up hup helig p hmem hid

section Calls

variable {sha256 : Bytes → Bytes} {maxRows : ℤ} (hgrace : 0 ≤ grace) (hmin : 1 ≤ maxRows)
  (hmax : maxRows ≤ 8192)

include hgrace hmin hmax in
theorem expireUploads_eq (db : Db) :
    expireUploads db now ⟨some grace, some maxRows, bucket⟩ =
      .ok (expireLoop now grace maxRows bucket 64 db 0) := by
  simp only [expireUploads]
  rw [if_neg (by omega)]

include hgrace hmin hmax in
theorem callSound (db : Db) : ∃ db' removed,
    expireUploads db now ⟨some grace, some maxRows, bucket⟩ = .ok (db', removed) ∧
      CallSound db now grace maxRows bucket db' removed := by
  refine ⟨(expireLoop now grace maxRows bucket 64 db 0).1,
    (expireLoop now grace maxRows bucket 64 db 0).2, expireUploads_eq hgrace hmin hmax db, ?_⟩
  obtain ⟨hcount, hle⟩ := @expireLoop_count now grace bucket db maxRows 0 64 (by omega)
  exact ⟨by omega, hle, confined_expireLoop ..,
    fun h => backlog_expireLoop_lt hmin 63 h⟩

include hgrace hmin hmax in
/-- Calls with the clock fixed work the backlog off, by induction on its size. -/
theorem exists_calls (db : Db) : ∃ n, Confined now grace bucket db
      (run sha256 db (List.replicate n (.expireUploads now ⟨some grace, some maxRows, bucket⟩))) ∧
    ∀ up ∈ (run sha256 db (List.replicate n
      (.expireUploads now ⟨some grace, some maxRows, bucket⟩))).uploads,
        ¬ eligible now grace bucket up := by
  by_cases h : ∃ up ∈ db.uploads, eligible now grace bucket up
  · obtain ⟨db', removed, hcall, hsound⟩ := @callSound now grace bucket maxRows hgrace hmin hmax db
    have hlt := hsound.progress h
    obtain ⟨n, hconfined, hnone⟩ := exists_calls db'
    have happly : (apply sha256 db (.expireUploads now ⟨some grace, some maxRows, bucket⟩)).1 =
        db' := by
      simp only [apply, hcall]
    have hrun : run sha256 db (List.replicate (n + 1)
        (.expireUploads now ⟨some grace, some maxRows, bucket⟩)) =
          run sha256 db' (List.replicate n
            (.expireUploads now ⟨some grace, some maxRows, bucket⟩)) := by
      rw [List.replicate_succ, ← happly]
      rfl
    refine ⟨n + 1, ?_, ?_⟩
    · rw [hrun]
      exact hsound.confined.trans hconfined
    · rw [hrun]
      exact hnone
  · push Not at h
    exact ⟨0, .refl .., h⟩
termination_by backlog now grace bucket db

/-- Every valid call is bounded, confined to eligible uploads and makes progress, and calls
with the clock fixed end with no eligible upload and none of its rows left. -/
theorem expiry_works_off_backlog (sha256 : Bytes → Bytes) (db : Db) (now : ℤ) {grace maxRows : ℤ}
    (bucket : Option Text) (hgrace : 0 ≤ grace) (hmin : 1 ≤ maxRows) (hmax : maxRows ≤ 8192) :
    (∃ db' removed, expireUploads db now ⟨some grace, some maxRows, bucket⟩ = .ok (db', removed) ∧
      CallSound db now grace maxRows bucket db' removed) ∧
    ∃ n, WorkedOff now grace bucket db (run sha256 db
      (List.replicate n (.expireUploads now ⟨some grace, some maxRows, bucket⟩))) := by
  obtain ⟨n, hconfined, hnone⟩ := @exists_calls now grace bucket sha256 maxRows hgrace hmin hmax db
  exact ⟨callSound hgrace hmin hmax db, n, hconfined.workedOff hnone⟩

end Calls

theorem expiry_works_off_backlog_abandoned :
    (∃ db' removed, expireUploads (run id Db.empty abandoned) 9 ⟨some 2, some 1, none⟩ =
        .ok (db', removed) ∧ CallSound (run id Db.empty abandoned) 9 2 1 none db' removed) ∧
    ∃ n, WorkedOff 9 2 none (run id Db.empty abandoned) (run id (run id Db.empty abandoned)
      (List.replicate n (.expireUploads 9 ⟨some 2, some 1, none⟩))) :=
  expiry_works_off_backlog id (run id Db.empty abandoned) 9 none (by decide) (by decide) (by decide)

end Pgvs3
