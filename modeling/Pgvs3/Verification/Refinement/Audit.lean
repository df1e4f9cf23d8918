import Pgvs3.Library.Inspection
import Pgvs3.Verification.Refinement.Refusals

/-! # The audit of the store

What the replies of a transaction depend on beside its rows: an expiry only removes, and locks
stale uploads only; the file of an ingest is unused until it commits. -/

namespace Pgvs3

open Library

variable {hash : Text → Text → ℤ} {sha256 : Bytes → Bytes} {db db' : Db}

/-! ## What to look for -/

/-- A slot that an expiry may lock: that of a stale upload. -/
def StaleUpload (now : ℤ) (budget : ExpiryBudget) (u : UploadRow) : Prop :=
  ∃ grace, budget.grace = some grace ∧ eligible now grace budget.bucket u = true

/-- An expiry only removes, locks stale uploads only, and commits under a valid budget. An
ingest gives up with an error. -/
def storePattern (job : Job) : Pattern Db Write Lock Outcome where
  statement s takes writes := ∀ now budget, job = .expireUploads now budget →
    (∀ w ∈ writes, ∃ t, w = .remove t) ∧
      ∀ id, .row (.upload id) .update ∈ takes →
        ∃ u ∈ s.db.uploads, u.uploadId = id ∧ StaleUpload now budget u
  commits _ := ∀ now budget, job = .expireUploads now budget →
    ∃ grace maxRows, budget.Valid grace maxRows
  refuses a := job.fileId? ≠ none → ∃ e, a = .failed e

/-- The file of an open ingest is unused, and an open expiry has locked stale uploads only. -/
structure StoreKnows (job : Job) (held : List Lock) (ws : List Write) (db : Db) : Prop where
  file : ∀ f, job.fileId? = some f → .file f ∈ held ∧ Unused db f
  removes : ∀ now budget, job = .expireUploads now budget → ∀ w ∈ ws, ∃ t, w = .remove t
  stale : ∀ now budget, job = .expireUploads now budget → ∀ u ∈ db.uploads,
    .row (.upload u.uploadId) .update ∈ held → StaleUpload now budget u

def storeAudit : Audit Db Write Lock Job Outcome := ⟨storePattern, StoreKnows⟩

section Fits

variable {p : Pattern Db Write Lock Outcome}

theorem fits_any (hstatement : ∀ s takes writes, p.statement s takes writes)
    (hcommits : ∀ a, p.commits a) (hrefuses : ∀ a, p.refuses a) (code : Sql) : code.Fits p := by
  induction code with
  | step needs takes writes next ih => exact fun s => ⟨hstatement s _ _, ih s⟩
  | commit a => exact hcommits a
  | rollback a => exact hrefuses a

def Deletes (p : Pattern Db Write Lock Outcome) : Prop :=
  ∀ s (slots : List Slot), p.statement s (slots.map (Lock.row · .delete)) (slots.map .remove)

theorem fits_deleteEach (hdelete : Deletes p) {next : ℕ → Sql} (h : ∀ n, (next n).Fits p)
    (left : ℕ) (targets : List Slot) (count : ℕ) :
    (Sql.deleteEach left targets count next).Fits p := by
  induction left generalizing targets count with
  | zero => exact h count
  | succ left ih => exact fun s => ⟨hdelete s _, ih _ _⟩

theorem fits_deleteRows (hdelete : Deletes p) {rows : Db → List Slot} {next : ℕ → Sql}
    (h : ∀ n, (next n).Fits p) : (Sql.deleteRows rows next).Fits p :=
  fun s => ⟨hdelete s [], fits_deleteEach hdelete h _ _ _⟩

theorem fits_deleteRow {ρ : Type} {slot : Slot} {find : Db → Option ρ} {next : Option ρ → Sql}
    (hdelete : Deletes p) (h : ∀ found, (next found).Fits p) :
    (Sql.deleteRow slot find next).Fits p := by
  intro s
  refine ⟨?_, h _⟩
  cases hfind : (find s.db).isSome with
  | true => simpa [hfind] using hdelete s [slot]
  | false => simpa [hfind] using hdelete s []

end Fits

/-! ## Ingests -/

section Ingests

variable {p : Pattern Db Write Lock Outcome}
  (hstatement : ∀ s takes writes, p.statement s takes writes) (hcommits : ∀ a, p.commits a)
  (hrefuses : ∀ e, p.refuses (.failed e))

include hstatement in
theorem fits_lockRow {ρ : Type} {slot : Slot} {mode : LockMode} {find : Db → Option ρ}
    {next : Option ρ → Sql} (h : ∀ found, (next found).Fits p) :
    (Sql.lockRow slot mode find next).Fits p :=
  fun s => ⟨hstatement s _ _, h _⟩

include hstatement hrefuses in
theorem fits_foreignKey {ρ : Type} {slot : Slot} {find : Db → Option ρ} {next : Sql}
    (h : next.Fits p) : (Sql.foreignKey slot find next).Fits p := by
  refine fits_lockRow hstatement fun found => ?_
  cases found with
  | none => exact hrefuses _
  | some r => exact h

include hstatement hrefuses in
theorem fits_copyIn {stream : Bytes} {next : Sql} (h : next.Fits p) :
    (Sql.copyIn stream next).Fits p := by
  unfold Sql.copyIn
  cases copyDecode stream with
  | none => exact fun s => ⟨hstatement s _ _, hrefuses _⟩
  | some rows =>
      intro s
      refine ⟨hstatement s _ _, ?_⟩
      dsimp only
      split
      · exact h
      · exact hrefuses _

include hstatement hrefuses in
theorem fits_upsertObject {row : ObjectRow} {next : Sql} (h : next.Fits p) :
    (Sql.upsertObject row next).Fits p := by
  intro s
  refine ⟨hstatement s _ _, ?_⟩
  dsimp only
  split
  · exact hrefuses _
  · split
    · exact h
    · exact fits_foreignKey hstatement hrefuses h

include hstatement hrefuses in
theorem fits_swapObject {now : ℤ} {bucket key : Text} {write : ObjectWrite} {next : Sql}
    (h : next.Fits p) : (Sql.swapObject hash now bucket key write next).Fits p := by
  intro s
  refine ⟨hstatement s _ _, fits_lockRow hstatement fun old => ?_⟩
  split
  · refine fits_upsertObject hstatement hrefuses ?_
    cases old with
    | none => exact h
    | some r => exact fits_deleteRows (fun s _ => hstatement s _ _) fun _ => h
  · exact hrefuses _

include hstatement hcommits hrefuses in
theorem fits_put {now : ℤ} {bucket key : Text} {condition : PutCondition} {f : ℤ}
    {pushes : List Bytes} : (Sql.put hash sha256 now bucket key condition f pushes).Fits p := by
  refine fits_lockRow hstatement fun found => ?_
  cases found with
  | none => exact hrefuses _
  | some b =>
      exact fits_copyIn hstatement hrefuses (fits_swapObject hstatement hrefuses (hcommits _))

include hstatement hcommits hrefuses in
theorem fits_uploadPart {id : Text} {partNo f : ℤ} {pushes : List Bytes} :
    (Sql.uploadPart sha256 id partNo f pushes).Fits p := by
  have hinsert : ∀ part : UploadPartRow, ∀ a, (Sql.insertPart part (.commit a)).Fits p := by
    intro part a s
    refine ⟨hstatement s _ _, ?_⟩
    dsimp only
    split
    · exact fits_foreignKey hstatement hrefuses (hcommits a)
    · exact hrefuses _
  refine fits_copyIn hstatement hrefuses (fits_deleteRow (fun s _ => hstatement s _ _) fun old => ?_)
  cases old with
  | none => exact hinsert _ _
  | some r => exact fits_deleteRows (fun s _ => hstatement s _ _) fun _ => hinsert _ _

end Ingests

/-! ## Expiries -/

section Expiries

variable {now : ℤ} {budget : ExpiryBudget}

theorem expiry_deletes : Deletes (storePattern (.expireUploads now budget)) := by
  rintro s slots _ _ ⟨⟩
  refine ⟨fun w hw => ?_, fun id hid => ?_⟩
  · obtain ⟨t, -, rfl⟩ := List.mem_map.mp hw
    exact ⟨t, rfl⟩
  · obtain ⟨t, -, ht⟩ := List.mem_map.mp hid
    cases ht

theorem fits_deleteUpload {id : Text} {next : Sql}
    (h : next.Fits (storePattern (.expireUploads now budget))) :
    (Sql.deleteUpload id next).Fits (storePattern (.expireUploads now budget)) :=
  fits_deleteRow expiry_deletes fun _ => fits_deleteRows expiry_deletes fun _ => h

theorem fits_expireLoop {grace maxRows : ℤ} (hvalid : budget.Valid grace maxRows) (visits : ℕ)
    (removed : ℤ) :
    (Sql.expireLoop now grace maxRows budget.bucket visits removed).Fits
      (storePattern (.expireUploads now budget)) := by
  have hcommit : ∀ a : Outcome, (Code.commit a : Sql).Fits (storePattern (.expireUploads now budget)) := by
    rintro a _ _ ⟨⟩
    exact ⟨grace, maxRows, hvalid⟩
  induction visits generalizing removed with
  | zero => exact hcommit _
  | succ visits ih =>
      intro s
      constructor
      · -- the victim is stale
        rintro _ _ ⟨⟩
        refine ⟨by simp, fun id hid => ?_⟩
        obtain ⟨u, hu, heq⟩ := List.mem_map.mp hid
        have hmem := List.mem_of_mem_head? (Option.mem_toList.mp hu)
        rw [List.mem_insertionSort, List.mem_filter, Bool.and_eq_true] at hmem
        obtain ⟨hu, hstale, -⟩ := hmem
        refine ⟨u, hu, ?_, grace, hvalid.1, hstale⟩
        cases heq
        rfl
      · dsimp only
        cases Sql.unlockedVictim? s now grace budget.bucket with
        | none => exact hcommit _
        | some up =>
            intro s
            refine ⟨expiry_deletes s [], ?_⟩
            dsimp only
            cases (recordedParts s.db up.uploadId).head? with
            | none => exact fits_deleteUpload (ih _)
            | some part =>
                have hproceed : ∀ removed : ℤ, (if removed = maxRows then
                    Code.commit (.expired removed)
                  else Sql.expireLoop now grace maxRows budget.bucket visits removed).Fits
                    (storePattern (.expireUploads now budget)) := by
                  intro removed
                  split
                  · exact hcommit _
                  · exact ih removed
                refine fits_deleteRows expiry_deletes fun n => ?_
                split
                · refine fits_deleteRow expiry_deletes fun _ s => ⟨expiry_deletes s [], ?_⟩
                  dsimp only
                  split
                  · exact hproceed _
                  · exact fits_deleteUpload (hproceed _)
                · exact hproceed _

theorem fits_expireUploads :
    (Sql.expireUploads now budget).Fits (storePattern (.expireUploads now budget)) := by
  have hrefuse : ∀ a : Outcome,
      (Code.rollback a : Sql).Fits (storePattern (.expireUploads now budget)) :=
    fun a hnone => (hnone rfl).elim
  intro s
  refine ⟨expiry_deletes s [], ?_⟩
  dsimp only
  cases hgrace : budget.grace with
  | none => exact hrefuse _
  | some grace =>
      cases hmax : budget.maxRows with
      | none => exact hrefuse _
      | some maxRows =>
          dsimp only
          split
          · exact hrefuse _
          · exact fits_expireLoop ⟨hgrace, hmax, by omega, by omega, by omega⟩ 64 0

end Expiries

theorem storePattern_fits (job : Job) : (job.code hash sha256).Fits (storePattern job) := by
  have hany : job.fileId? = none → (∀ now budget, job ≠ .expireUploads now budget) →
      ∀ code : Sql, code.Fits (storePattern job) := fun hnone hjob =>
    fits_any (fun _ _ _ now budget h => (hjob now budget h).elim)
      (fun _ now budget h => (hjob now budget h).elim) fun _ hfile => (hfile hnone).elim
  cases job with
  | put =>
      exact fits_put (fun _ _ _ _ _ h => by cases h) (fun _ _ _ h => by cases h)
        fun e _ => ⟨e, rfl⟩
  | uploadPart =>
      exact fits_uploadPart (fun _ _ _ _ _ h => by cases h) (fun _ _ _ h => by cases h)
        fun e _ => ⟨e, rfl⟩
  | expireUploads => exact fits_expireUploads
  | _ => exact hany rfl (by simp) _

theorem mem_uploads_of_removes {ws : List Write} (h : ∀ w ∈ ws, ∃ t, w = .remove t)
    {u : UploadRow} (hu : u ∈ (db.after ws).uploads) : u ∈ db.uploads := by
  induction ws generalizing db with
  | nil => exact hu
  | cons w ws ih =>
      obtain ⟨t, rfl⟩ := h w (List.mem_cons_self ..)
      rw [after_cons] at hu
      have hwrite := ih (fun w' hw' => h w' (List.mem_cons_of_mem _ hw')) hu
      have hone : u ∈ (db.without [t]).uploads := hwrite
      rw [without_uploads] at hone
      exact (Table.mem_deleteWhere.mp hone).1

theorem storeAudit_lawful : storeAudit.Lawful (store hash sha256) (terms hash sha256) where
  code := storePattern_fits
  start job db db' held hdb hstart := by
    rcases Job.start_cases hstart with ⟨hnone, rfl, rfl⟩ | ⟨f, hfile, hroom, rfl, rfl, rfl⟩
    · refine ⟨fun f hf => ?_, by simp, by simp⟩
      rw [hnone] at hf
      cases hf
    · refine ⟨fun g hg => ?_, by simp, by simp⟩
      rw [hfile, Option.some.injEq] at hg
      subst hg
      exact ⟨by simp, unused_drawn hdb hroom⟩
  rely job held ws db db' hrely h := by
    refine ⟨fun f hf => ?_, h.removes, fun now budget hjob u hu hlock => ?_⟩
    · obtain ⟨hheld, hunused⟩ := h.file f hf
      exact ⟨hheld, hrely.file f hheld hunused⟩
    · have hfind := hrely.upload u.uploadId .update (by decide) hlock
      rw [Table.find?_eq_some_iff.mpr ⟨hu, rfl⟩] at hfind
      exact h.stale now budget hjob u (Table.find?_eq_some_iff.mp hfind.symm).1 hlock
  statement job held ws db s takes writes hs hstatement h := by
    refine ⟨fun f hf => ?_, fun now budget hjob w hw => ?_, fun now budget hjob u hu hlock => ?_⟩
    · obtain ⟨hheld, hunused⟩ := h.file f hf
      exact ⟨List.mem_append_left _ hheld, hunused⟩
    · rcases List.mem_append.mp hw with hw | hw
      · exact h.removes now budget hjob w hw
      · exact (hstatement now budget hjob).1 w hw
    · rcases List.mem_append.mp hlock with hlock | hlock
      · exact h.stale now budget hjob u hu hlock
      · obtain ⟨v, hv, hid, hstale⟩ := (hstatement now budget hjob).2 _ hlock
        have hs : s.db = db.after ws := hs
        rw [hs] at hv
        have hv := mem_uploads_of_removes (h.removes now budget hjob) hv
        obtain rfl := Table.eq_of_key hv hu hid
        exact hstale

theorem StoreReaches.audited {labels : List (Label Job)} {w : StoreWorld}
    (h : StoreReaches hash sha256 labels w) : w.Audited storeAudit :=
  World.audited_run (terms_lawful hash sha256) storeAudit_lawful
    (World.sound_idle admissible_empty) (World.audited_idle _) h

end Pgvs3
