import Pgvs3.Verification.Read.GetBody

/-! # Multipart sessions

A session uploads parts under one upload id while other clients work on other uploads.
What is recorded under the id afterwards are the last acknowledged attempts, over whatever
an earlier session had left. -/

namespace Pgvs3

open Library

variable {sha256 : Bytes → Bytes}

/-! ## Upload records -/

/-- The bucket of every upload exists. -/
def UploadsHaveBuckets (db : Db) : Prop :=
  ∀ up ∈ db.uploads, db.buckets.find? up.bucket ≠ none

theorem ingest_uploads (sha256 : Bytes → Bytes) (db : Db) (now : ℤ) (target : WriterTarget) (pushes : List Bytes)
    (hseq : 0 ≤ db.fileSeq) :
    (ingest sha256 db now target pushes).1.uploads = db.uploads ∧
      (ingest sha256 db now target pushes).1.buckets = db.buckets := by
  rcases ingest_cases sha256 db now target pushes hseq with
    ⟨e, h | h⟩ | ⟨-, -, chunks, db', -, hpub, h⟩
  · rw [h]
    exact ⟨rfl, rfl⟩
  · rw [h]
    exact ⟨rfl, rfl⟩
  · rw [h]
    cases target with
    | object bucket key condition =>
        obtain ⟨-, -, -, rfl⟩ := swapObject_ok_iff.mp hpub
        exact ⟨rfl, rfl⟩
    | part uploadId partNo =>
        obtain ⟨-, rfl⟩ := commitPart_ok_iff.mp hpub
        exact ⟨rfl, rfl⟩

theorem UploadsHaveBuckets.step {db : Db} (h : UploadsHaveBuckets db) (hseq : 0 ≤ db.fileSeq)
    (op : Op) : UploadsHaveBuckets (apply sha256 db op).1 := by
  have hsame : ∀ db' : Db, (∀ up ∈ db'.uploads, up ∈ db.uploads) → db'.buckets = db.buckets →
      UploadsHaveBuckets db' := by
    intro db' hsub hbuckets up hup
    rw [hbuckets]
    exact h up (hsub up hup)
  cases op with
  | createBucket now name =>
      intro up hup
      simp only [apply, createBucket] at hup ⊢
      cases hins : db.buckets.insert? ⟨name, now⟩ with
      | none =>
          rw [hins] at hup
          exact h up hup
      | some buckets =>
          rw [hins] at hup
          have hup : db.buckets.find? up.bucket ≠ none := h up hup
          obtain ⟨b, hb⟩ := Option.ne_none_iff_exists'.mp hup
          simp only
          rw [Table.find?_insert?_of_some hins hb]
          simp
  | deleteBucket name =>
      simp only [apply, deleteBucket]
      split
      · exact h
      · split
        · exact h
        · rename_i hempty
          push Not at hempty
          intro up hup
          simp only
          rw [Table.find?_deleteWhere]
          · exact h up hup
          · intro b hb
            rw [decide_eq_false_iff_not, hb]
            exact hempty.2 up hup
  | put now bucket key condition pushes =>
      obtain ⟨hu, hb⟩ := ingest_uploads sha256 db now (.object bucket key condition)
        pushes hseq
      exact hsame _ (fun up hup => hu ▸ hup) hb
  | delete bucket key =>
      refine hsame _ ?_ ?_ <;> simp only [apply, delete] <;>
        cases db.objects.find? (bucket, key) <;> simp [reap]
  | createUpload now uuid bucket key =>
      simp only [apply]
      cases hcreate : createUpload db now uuid bucket key with
      | error e => exact h
      | ok r =>
          obtain ⟨db', id⟩ := r
          simp only
          rcases createUpload_cases hcreate with
            ⟨-, rfl, -⟩ | ⟨_, -, -, -, rfl, -⟩ | ⟨_, hbucket, hins, rfl, -⟩
          · exact h
          · exact h
          · intro up hup
            rcases (Table.mem_insert? hins).mp hup with hup | rfl
            · exact h up hup
            · exact hbucket
  | uploadPart now uploadId partNo pushes =>
      obtain ⟨hu, hb⟩ := ingest_uploads sha256 db now (.part uploadId partNo) pushes hseq
      exact hsame _ (fun up hup => hu ▸ hup) hb
  | completeUpload now uploadId bucket key listed =>
      simp only [apply]
      rcases completeUpload_cases sha256 db now uploadId bucket key listed with
        ⟨_, hc⟩ | ⟨_, _, hc⟩ | ⟨_, _, e, hc⟩ | ⟨_, _, hc⟩ <;> rw [hc]
      · exact h
      · exact h
      · exact h
      · exact hsame _ (fun up hup => (Table.mem_deleteWhere.mp hup).1) rfl
  | abortUpload uploadId bucket key =>
      simp only [apply, abortUpload]
      split
      · exact hsame _ (fun up hup => (Table.mem_deleteWhere.mp hup).1) rfl
      · exact h
  | expireUploads now budget =>
      simp only [apply]
      cases he : expireUploads db now budget with
      | error e => exact h
      | ok r =>
          have hexp := expires_expireUploads he
          exact hsame _ hexp.uploads_sub hexp.buckets_eq
  | rollback draw =>
      simp only [apply]
      split
      · rename_i heq
        obtain ⟨_, _, rfl⟩ := nextval_ok_iff.mp heq
        exact h
      · exact h

theorem uploadsHaveBuckets_run (sha256 : Bytes → Bytes) (ops : List Op) :
    UploadsHaveBuckets (run sha256 Db.empty ops) := by
  have hempty : UploadsHaveBuckets Db.empty := by simp [UploadsHaveBuckets, Db.empty]
  have ht : Trace (Step sha256) Db.empty ops (run sha256 Db.empty ops) := trace_iff_run.mpr rfl
  refine ht.invariant₂ (I := Owned) (fun _ _ _ => Owned.step) ?_ owned_empty hempty
  rintro db op db' howned h rfl
  exact h.step howned.seq_nonneg op

/-! ## One step of a session -/

/-- No expiry, and nobody completes or aborts the upload. -/
def Quiet (uploadId : Text) (op : Op) : Prop :=
  match op with
  | .completeUpload _ u _ _ _ => u ≠ uploadId
  | .abortUpload u _ _ => u ≠ uploadId
  | .expireUploads _ _ => False
  | _ => True

/-- The part number and the body of a part upload that was acknowledged. -/
def acknowledged (uploadId : Text) (op : Op) (outcome : Outcome) : Option (ℤ × Bytes) :=
  match op, outcome with
  | .uploadPart _ u partNo pushes, .stored _ _ =>
      if u = uploadId then some (partNo, pushes.flatten) else none
  | _, _ => none

theorem find?_part_deleteUpload {db : Db} {uploadId u : Text} (h : u ≠ uploadId) (n : ℤ) :
    (deleteUpload db u).uploadParts.find? (uploadId, n) = db.uploadParts.find? (uploadId, n) := by
  apply Table.find?_deleteWhere
  intro p hp
  have hid : p.uploadId = uploadId := congrArg Prod.fst hp
  rw [decide_eq_false_iff_not, hid]
  exact h.symm

theorem find?_upload_deleteUpload {db : Db} {uploadId u : Text} (h : u ≠ uploadId) :
    (deleteUpload db u).uploads.find? uploadId = db.uploads.find? uploadId := by
  apply Table.find?_deleteWhere
  intro up hup
  rw [decide_eq_false_iff_not, hup]
  exact h.symm

theorem quiet_upload {db : Db} {uploadId : Text} {op : Op} (hq : Quiet uploadId op)
    (hseq : 0 ≤ db.fileSeq) {up : UploadRow} (hup : db.uploads.find? uploadId = some up) :
    (apply sha256 db op).1.uploads.find? uploadId = some up := by
  cases op with
  | createBucket now name =>
      simp only [apply, createBucket]
      split <;> exact hup
  | deleteBucket name =>
      simp only [apply, deleteBucket]
      split
      · exact hup
      · split <;> exact hup
  | put now bucket key condition pushes =>
      have hu := (ingest_uploads sha256 db now (.object bucket key condition) pushes
        hseq).1
      simp only [apply, hu, hup]
  | delete bucket key =>
      simp only [apply, delete]
      cases db.objects.find? (bucket, key) <;> exact hup
  | createUpload now uuid bucket key =>
      simp only [apply]
      cases hcreate : createUpload db now uuid bucket key with
      | error e => exact hup
      | ok r =>
          obtain ⟨db', id⟩ := r
          simp only
          rcases createUpload_cases hcreate with
            ⟨-, rfl, -⟩ | ⟨_, -, -, -, rfl, -⟩ | ⟨_, -, hins, rfl, -⟩
          · exact hup
          · exact hup
          · exact Table.find?_insert?_of_some hins hup
  | uploadPart now u partNo pushes =>
      have hu := (ingest_uploads sha256 db now (.part u partNo) pushes hseq).1
      simp only [apply, hu, hup]
  | completeUpload now u bucket key listed =>
      simp only [apply]
      rcases completeUpload_cases sha256 db now u bucket key listed with
        ⟨_, hc⟩ | ⟨_, _, hc⟩ | ⟨_, _, e, hc⟩ | ⟨_, _, hc⟩ <;> rw [hc]
      · exact hup
      · exact hup
      · exact hup
      · exact (find?_upload_deleteUpload hq).trans hup
  | abortUpload u bucket key =>
      simp only [apply, abortUpload]
      split
      · exact (find?_upload_deleteUpload hq).trans hup
      · exact hup
  | expireUploads now budget => exact hq.elim
  | rollback draw =>
      simp only [apply]
      split
      · rename_i heq
        obtain ⟨_, _, rfl⟩ := nextval_ok_iff.mp heq
        exact hup
      · exact hup

/-- A part record changes only when an upload of that part is acknowledged. -/
theorem quiet_part {db : Db} {uploadId : Text} {op : Op} (hq : Quiet uploadId op)
    (hseq : 0 ≤ db.fileSeq) (n : ℤ) :
    (apply sha256 db op).1.uploadParts.find? (uploadId, n) =
      match acknowledged uploadId op (apply sha256 db op).2 with
      | some a =>
          if a.1 = n then some (partRecord sha256 uploadId n (db.fileSeq + 1) a.2)
          else db.uploadParts.find? (uploadId, n)
      | none => db.uploadParts.find? (uploadId, n) := by
  cases op with
  | createBucket now name =>
      simp only [apply, createBucket, acknowledged]
      split <;> rfl
  | deleteBucket name =>
      simp only [apply, deleteBucket, acknowledged]
      split
      · rfl
      · split <;> rfl
  | put now bucket key condition pushes =>
      simp only [apply, acknowledged]
      rcases ingest_cases sha256 db now (.object bucket key condition) pushes hseq with
        ⟨e, h | h⟩ | ⟨-, -, chunks, db', -, hpub, h⟩ <;> rw [h]
      · rfl
      · obtain ⟨-, -, -, rfl⟩ := swapObject_ok_iff.mp hpub
        rfl
  | delete bucket key =>
      simp only [apply, delete, acknowledged]
      cases db.objects.find? (bucket, key) <;> rfl
  | createUpload now uuid bucket key =>
      simp only [apply, acknowledged]
      cases hcreate : createUpload db now uuid bucket key with
      | error e => rfl
      | ok r =>
          simp only
          rw [(createUpload_still hcreate).2.2.2.1]
  | uploadPart now u partNo pushes =>
      simp only [apply]
      rcases ingest_cases sha256 db now (.part u partNo) pushes hseq with
        ⟨e, h | h⟩ | ⟨-, -, chunks, db', -, hpub, h⟩ <;> rw [h]
      · rfl
      · rfl
      · obtain ⟨-, rfl⟩ := commitPart_ok_iff.mp hpub
        simp only [acknowledged]
        by_cases hu : u = uploadId
        · subst hu
          rw [if_pos rfl]
          dsimp only
          by_cases hn : partNo = n
          · subst hn
            rw [if_pos rfl]
            exact Table.find?_upsert_self
          · rw [if_neg hn]
            refine Table.find?_upsert_of_ne fun heq => hn ?_
            exact congrArg Prod.snd heq
        · rw [if_neg hu]
          refine Table.find?_upsert_of_ne fun heq => hu ?_
          exact congrArg Prod.fst heq
  | completeUpload now u bucket key listed =>
      simp only [apply, acknowledged]
      rcases completeUpload_cases sha256 db now u bucket key listed with
        ⟨_, hc⟩ | ⟨_, _, hc⟩ | ⟨_, _, e, hc⟩ | ⟨_, _, hc⟩ <;> rw [hc]
      · exact find?_part_deleteUpload hq n
  | abortUpload u bucket key =>
      simp only [apply, abortUpload, acknowledged]
      split
      · exact find?_part_deleteUpload hq n
      · rfl
  | expireUploads now budget => exact hq.elim
  | rollback draw =>
      simp only [apply, acknowledged]
      split
      · rename_i heq
        obtain ⟨_, _, rfl⟩ := nextval_ok_iff.mp heq
        rfl
      · rfl

/-! ## A whole session -/

def ackedParts (sha256 : Bytes → Bytes) (uploadId : Text) : Db → List Op → List (ℤ × Bytes)
  | _, [] => []
  | db, op :: ops =>
      (acknowledged uploadId op (apply sha256 db op).2).toList ++
        ackedParts sha256 uploadId (apply sha256 db op).1 ops

/-- The body of the last acknowledged attempt at part `n`. -/
def lastBody (acked : List (ℤ × Bytes)) (n : ℤ) : Option Bytes :=
  (acked.reverse.find? (fun a => a.1 = n)).map Prod.snd

theorem lastBody_append_singleton (acked : List (ℤ × Bytes)) (a : ℤ × Bytes) (n : ℤ) :
    lastBody (acked ++ [a]) n = if a.1 = n then some a.2 else lastBody acked n := by
  unfold lastBody
  rw [List.reverse_append, List.reverse_singleton, List.singleton_append, List.find?_cons]
  by_cases h : a.1 = n <;> simp [h]

theorem lastBody_eq_some_iff {acked : List (ℤ × Bytes)} (h : (acked.map Prod.fst).Nodup) {n : ℤ}
    {body : Bytes} : lastBody acked n = some body ↔ (n, body) ∈ acked := by
  unfold lastBody
  have hrev : (acked.reverse.map Prod.fst).Nodup := by
    rw [List.map_reverse]
    exact List.nodup_reverse.mpr h
  have hfind := @Table.find?_eq_some_iff _ _ Prod.fst _ ⟨acked.reverse, hrev⟩ n
  simp only [Table.find?, Table.mem_def, List.mem_reverse] at hfind
  rw [Option.map_eq_some_iff]
  constructor
  · rintro ⟨a, ha, rfl⟩
    obtain ⟨hmem, rfl⟩ := hfind.mp ha
    exact hmem
  · intro hmem
    exact ⟨(n, body), hfind.mpr ⟨hmem, rfl⟩, rfl⟩

theorem acknowledged_body {uploadId : Text} {op : Op} {outcome : Outcome} {a : ℤ × Bytes}
    (h : acknowledged uploadId op outcome = some a) : op.body? = some a.2 := by
  unfold acknowledged at h
  split at h
  · split at h
    · cases h
      rfl
    · cases h
  · cases h

/-- The store within a session that began at `start`: parts acknowledged in it carry the
bodies of their last attempts under new files, the others are as they were. -/
structure SessionAt (start l : Ledger) (uploadId : Text) (up : UploadRow)
    (acked : List (ℤ × Bytes)) : Prop where
  upload : l.db.uploads.find? uploadId = some up
  reaped_eq : l.reaped = start.reaped
  seq_le : start.db.fileSeq ≤ l.db.fileSeq
  sent : ∀ n body, lastBody acked n = some body → ∃ p,
    l.db.uploadParts.find? (uploadId, n) = some p ∧ l.written p.fileId = body ∧
      start.db.fileSeq < p.fileId
  left : ∀ n, lastBody acked n = none →
    l.db.uploadParts.find? (uploadId, n) = start.db.uploadParts.find? (uploadId, n)

theorem SessionAt.step {start l : Ledger} {uploadId : Text} {up : UploadRow}
    {acked : List (ℤ × Bytes)} (h : SessionAt start l uploadId up acked)
    (hc : Consistent sha256 l) {op : Op} (hq : Quiet uploadId op) :
    SessionAt start (l.apply sha256 op) uploadId up
      (acked ++ (acknowledged uploadId op (apply sha256 l.db op).2).toList) := by
  have hpart := @quiet_part sha256 l.db _ _ hq hc.owned.seq_nonneg
  have hle := (change_apply sha256 l.db op hc.owned.seq_nonneg).fileSeq_le
  have hold : ∀ n body, lastBody acked n = some body → ∃ p,
      l.db.uploadParts.find? (uploadId, n) = some p ∧
        (l.apply sha256 op).written p.fileId = body ∧ start.db.fileSeq < p.fileId := by
    intro n body hlast
    obtain ⟨p, hp, hbody, hnew⟩ := h.sent n body hlast
    have hdrawn : p.fileId ≤ l.db.fileSeq := hc.owned.drawn _
      (mem_ownedFiles.mpr (.inr ⟨p, (Table.find?_eq_some_iff.mp hp).1, rfl⟩))
    exact ⟨p, hp, (l.apply_written_of_le op hdrawn).trans hbody, hnew⟩
  have hreaped : (l.apply sha256 op).reaped = l.reaped := by
    cases op with
    | expireUploads now budget => exact hq.elim
    | _ => rfl
  refine ⟨quiet_upload hq hc.owned.seq_nonneg h.upload, hreaped.trans h.reaped_eq,
    h.seq_le.trans hle, ?_, ?_⟩
  · cases hack : acknowledged uploadId op (apply sha256 l.db op).2 with
    | none =>
        rw [hack] at hpart
        simp only [Option.toList_none, List.append_nil]
        intro n body hlast
        obtain ⟨p, hp, hrest⟩ := hold n body hlast
        exact ⟨p, (hpart n).trans hp, hrest⟩
    | some a =>
        rw [hack] at hpart
        simp only [Option.toList_some, lastBody_append_singleton]
        intro n body hlast
        have hpart := hpart n
        dsimp only at hpart
        by_cases hn : a.1 = n
        · rw [if_pos hn, Option.some.injEq] at hlast
          rw [if_pos hn] at hpart
          have hseq := h.seq_le
          refine ⟨_, hpart, ?_, by dsimp only [partRecord]; omega⟩
          exact (l.apply_written_new (acknowledged_body hack)).trans hlast
        · rw [if_neg hn] at hlast hpart
          obtain ⟨p, hp, hrest⟩ := hold n body hlast
          exact ⟨p, hpart.trans hp, hrest⟩
  · cases hack : acknowledged uploadId op (apply sha256 l.db op).2 with
    | none =>
        rw [hack] at hpart
        simp only [Option.toList_none, List.append_nil]
        exact fun n hlast => (hpart n).trans (h.left n hlast)
    | some a =>
        rw [hack] at hpart
        simp only [Option.toList_some, lastBody_append_singleton]
        intro n hlast
        by_cases hn : a.1 = n
        · simp [hn] at hlast
        · rw [if_neg hn] at hlast
          have hpart := hpart n
          dsimp only at hpart
          rw [if_neg hn] at hpart
          exact hpart.trans (h.left n hlast)

theorem SessionAt.run {start l : Ledger} {uploadId : Text} {up : UploadRow}
    {acked : List (ℤ × Bytes)} (h : SessionAt start l uploadId up acked)
    (hc : Consistent sha256 l) {ops : List Op} (hq : ∀ op ∈ ops, Quiet uploadId op) :
    SessionAt start (l.run sha256 ops) uploadId up
      (acked ++ ackedParts sha256 uploadId l.db ops) := by
  induction ops generalizing l acked with
  | nil => simpa [ackedParts, Ledger.run] using h
  | cons op ops ih =>
      have hrest := ih (h.step hc (hq op (by simp))) (hc.step op)
        fun o ho => hq o (List.mem_cons_of_mem _ ho)
      rw [List.append_assoc] at hrest
      exact hrest

theorem sessionAt_start {l : Ledger} {uploadId : Text} {up : UploadRow}
    (hup : l.db.uploads.find? uploadId = some up) : SessionAt l l uploadId up [] where
  upload := hup
  reaped_eq := rfl
  seq_le := le_rfl
  sent := by simp [lastBody]
  left := fun _ _ => rfl

/-! ## What is recorded at the end -/

section Recorded

variable {start l : Ledger} {uploadId : Text} {up : UploadRow} {acked bodies : List (ℤ × Bytes)}

/-- `bodies` are the last acknowledged attempts, one for each part number. -/
structure LastAttempts (acked bodies : List (ℤ × Bytes)) : Prop where
  nodup : (bodies.map Prod.fst).Nodup
  mem_iff : ∀ n body, lastBody acked n = some body ↔ (n, body) ∈ bodies

def lastAttempts : List (ℤ × Bytes) → List (ℤ × Bytes)
  | [] => []
  | a :: acked => if a.1 ∈ acked.map Prod.fst then lastAttempts acked else a :: lastAttempts acked

theorem mem_lastAttempts_fst {n : ℤ} :
    n ∈ (lastAttempts acked).map Prod.fst ↔ n ∈ acked.map Prod.fst := by
  induction acked with
  | nil => rfl
  | cons a acked ih =>
      rw [lastAttempts]
      split
      · rename_i hlater
        rw [ih, List.map_cons, List.mem_cons]
        exact ⟨.inr, fun h => h.elim (fun heq => heq ▸ hlater) id⟩
      · rw [List.map_cons, List.map_cons, List.mem_cons, List.mem_cons, ih]

theorem lastBody_cons (a : ℤ × Bytes) (n : ℤ) : lastBody (a :: acked) n =
    (lastBody acked n).or (if a.1 = n then some a.2 else none) := by
  unfold lastBody
  rw [List.reverse_cons, List.find?_append, List.find?_singleton]
  by_cases ha : a.1 = n <;> cases acked.reverse.find? (fun b => b.1 = n) <;> simp [ha]

theorem lastBody_eq_none_iff {n : ℤ} : lastBody acked n = none ↔ n ∉ acked.map Prod.fst := by
  simp only [lastBody, Option.map_eq_none_iff, List.find?_eq_none, List.mem_reverse,
    decide_eq_true_eq, List.mem_map, not_exists, not_and]

theorem lastAttempts_spec (acked : List (ℤ × Bytes)) : LastAttempts acked (lastAttempts acked) := by
  induction acked with
  | nil => exact ⟨List.nodup_nil, by simp [lastBody, lastAttempts]⟩
  | cons a acked ih =>
      obtain ⟨hnodup, hmem⟩ := ih
      rw [lastAttempts]
      split
      · rename_i hlater
        refine ⟨hnodup, fun n body => ?_⟩
        rw [lastBody_cons, ← hmem]
        cases hlast : lastBody acked n with
        | some b => simp
        | none =>
            have hn : a.1 ≠ n := fun heq => lastBody_eq_none_iff.mp hlast (heq ▸ hlater)
            simp [hn]
      · rename_i hfirst
        refine ⟨?_, fun n body => ?_⟩
        · rw [List.map_cons, List.nodup_cons, mem_lastAttempts_fst]
          exact ⟨hfirst, hnodup⟩
        · rw [lastBody_cons, List.mem_cons, ← hmem]
          cases hlast : lastBody acked n with
          | some b =>
              have hn : n ≠ a.1 := by
                rintro rfl
                rw [← lastBody_eq_none_iff, hlast] at hfirst
                cases hfirst
              simp [Prod.ext_iff, hn]
          | none => simp [Prod.ext_iff, eq_comm]

theorem lastAttempts_of_nodup (h : (acked.map Prod.fst).Nodup) : LastAttempts acked acked :=
  ⟨h, fun _ _ => lastBody_eq_some_iff h⟩

/-- Once the session has sent every part number that was left behind, the recorded parts in
order are its last attempts in order. -/
theorem SessionAt.recorded (h : SessionAt start l uploadId up acked)
    (hbodies : LastAttempts acked bodies)
    (hleft : ∀ p ∈ start.db.uploadParts, p.uploadId = uploadId → p.partNo ∈ bodies.map Prod.fst) :
    (recordedParts l.db uploadId).map (fun p => (p.partNo, l.written p.fileId)) =
      sortByKey Prod.fst bodies := by
  have hincreasing : ((recordedParts l.db uploadId).map
      (fun p => (p.partNo, l.written p.fileId))).Pairwise (fun a b => a.1 < b.1) := by
    rw [List.pairwise_map]
    exact recordedParts_increasing l.db uploadId
  symm
  refine sortByKey_eq_of_perm ?_ hincreasing
  rw [List.perm_ext_iff_of_nodup (hbodies.nodup.of_map _)
    (hincreasing.imp fun hab heq => absurd (congrArg Prod.fst heq) hab.ne)]
  rintro ⟨n, body⟩
  rw [← hbodies.mem_iff]
  simp only [List.mem_map, mem_recordedParts, Prod.mk.injEq]
  constructor
  · intro hlast
    obtain ⟨p, hp, hbody, -⟩ := h.sent n body hlast
    obtain ⟨hmem, hkey⟩ := Table.find?_eq_some_iff.mp hp
    exact ⟨p, ⟨hmem, congrArg Prod.fst hkey⟩, congrArg Prod.snd hkey, hbody⟩
  · rintro ⟨p, ⟨hmem, hid⟩, rfl, hbody⟩
    have hfind : l.db.uploadParts.find? (uploadId, p.partNo) = some p :=
      Table.find?_eq_some_iff.mpr ⟨hmem, Prod.ext hid rfl⟩
    cases hlast : lastBody acked p.partNo with
    | none =>
        rw [h.left _ hlast] at hfind
        obtain ⟨hstart, -⟩ := Table.find?_eq_some_iff.mp hfind
        obtain ⟨⟨n, b⟩, hb, hn⟩ := List.mem_map.mp (hleft p hstart hid)
        have hsome := (hbodies.mem_iff n b).mpr hb
        dsimp only at hn
        rw [hn, hlast] at hsome
        cases hsome
    | some b =>
        obtain ⟨q, hq, hqb, -⟩ := h.sent _ b hlast
        rw [hfind, Option.some.injEq] at hq
        subst hq
        rw [← hqb, hbody]

theorem SessionAt.recorded_new (h : SessionAt start l uploadId up acked)
    (hbodies : LastAttempts acked bodies)
    (hleft : ∀ p ∈ start.db.uploadParts, p.uploadId = uploadId → p.partNo ∈ bodies.map Prod.fst)
    {p : UploadPartRow} (hp : p ∈ recordedParts l.db uploadId) :
    start.db.fileSeq < p.fileId := by
  have hmem : (p.partNo, l.written p.fileId) ∈ sortByKey Prod.fst bodies := by
    rw [← h.recorded hbodies hleft]
    exact List.mem_map.mpr ⟨p, hp, rfl⟩
  rw [mem_sortByKey, ← hbodies.mem_iff] at hmem
  obtain ⟨q, hq, -, hnew⟩ := h.sent _ _ hmem
  obtain ⟨hp, hid⟩ := mem_recordedParts.mp hp
  obtain ⟨hq, hkey⟩ := Table.find?_eq_some_iff.mp hq
  have hpk : p.primaryKey = (uploadId, p.partNo) := Prod.ext hid rfl
  rwa [Table.eq_of_key hp hq (hpk.trans hkey.symm)]

end Recorded

end Pgvs3
