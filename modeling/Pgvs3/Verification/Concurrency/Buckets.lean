import Pgvs3.Verification.Concurrency.Statements

/-! # Bucket transactions and CreateMultipartUpload under the terms -/

namespace Pgvs3

open Library

variable {hash : Text → Text → ℤ} {sha256 : Bytes → Bytes} {job : Job} {held : List Lock}
  {ws : List Write} {db : Db}

theorem insert?_eq_upsert {α κ : Type*} {key : α → κ} [DecidableEq κ] {t : Table key} {a : α}
    (h : t.find? (key a) = none) : t.insert? a = some (t.upsert a) := by
  have hne := Table.find?_eq_none_iff.mp h
  refine Table.insert?_eq_some_iff.mpr ⟨hne, ?_⟩
  have hall : t.rows.filter (fun b => key b ≠ key a) = t.rows :=
    List.filter_eq_self.mpr fun b hb => by simpa using hne b hb
  simp only [Table.upsert, hall]

theorem insert?_eq_none {α κ : Type*} {key : α → κ} [DecidableEq κ] {t : Table key} {a : α}
    (h : t.find? (key a) ≠ none) : t.insert? a = none := by
  rw [← Option.not_isSome_iff_eq_none]
  intro hsome
  obtain ⟨t', hins⟩ := Option.isSome_iff_exists.mp hsome
  exact h (Table.find?_eq_none_iff.mpr (Table.insert?_eq_some_iff.mp hins).1)

/-! ## Buckets -/

theorem goesOn_createBucket {now : ℤ} {name : Text} :
    GoesOn hash sha256 (.createBucket now name) (Sql.createBucket now name) [] [] db := by
  refine goesOn_insertRow ?_ ?_
  · intro db₁ _ _ hroom
    refine ⟨.inl (by simp), trivial, ?_⟩
    have hlock : Lock.row (.bucket name) .update ∈ [] ++ [Lock.row (.bucket name) .update] := by
      simp
    refine goesOn_commit fun db₂ h₂ _ => ?_
    have hnone : db₁.buckets.find? name = none := by
      simpa [Db.holds] using hroom
    have hnone₂ := (h₂.bucket name .update (by decide) hlock).trans hnone
    exact .createBucket hlock (insert?_eq_upsert hnone₂)
  · intro db₁ _ _ hthere
    have hfound : db₁.buckets.find? name ≠ none := by
      simpa [Db.holds, Option.isSome_iff_ne_none] using hthere
    have hnone := insert?_eq_none (a := (⟨name, now⟩ : BucketRow)) hfound
    refine ⟨.inl (by simp), goesOn_rollback (.inl ?_)⟩
    simp [Job.serial, apply, Pgvs3.createBucket, hnone]

theorem goesOn_deleteBucket {name : Text} :
    GoesOn hash sha256 (.deleteBucket name) (Sql.deleteBucket name) [] [] db := by
  refine goesOn_lockRow ?_ ?_
  · intro db₁ _ _ hnone
    have hnone : db₁.buckets.find? name = none := hnone
    exact goesOn_rollback (.inl (by simp [Job.serial, apply, Pgvs3.deleteBucket, hnone]))
  · intro db₁ b _ _ hthere
    refine ⟨.inl (by simp), trivial, ?_⟩
    have hthere : db₁.buckets.find? name = some b := hthere
    set held₁ := [] ++ [Lock.row (.bucket name) .update] with hheld₁
    have hlock : Lock.row (.bucket name) .update ∈ held₁ := by simp [hheld₁]
    have hbucket : ∀ db₂, Rely hash held₁ db₁ db₂ → db₂.buckets.find? name = some b :=
      fun db₂ h₂ => (h₂.bucket name .update (by decide) hlock).trans hthere
    refine goesOn_select fun db₂ h₂ _ => ?_
    cases hocc : Sql.occupied db₂ name with
    | true =>
        have hocc' := of_decide_eq_true hocc
        simp only [after_nil, hocc, if_true]
        refine goesOn_rollback (.inl ?_)
        simp [Job.serial, apply, Pgvs3.deleteBucket, hbucket db₂ h₂, hocc']
    | false =>
        simp only [after_nil, hocc, Bool.false_eq_true, if_false]
        refine goesOn_deleteRow ?_ ?_
        · intro db₃ h₃ _ hgone
          have hgone : db₃.buckets.find? name = none := hgone
          rw [hbucket db₃ (h₂.trans h₃)] at hgone
          cases hgone
        · intro db₃ _ h₃ _ _
          refine ⟨.inr hlock, trivial, goesOn_select fun db₄ h₄ _ => ?_⟩
          have h₄ : Rely hash held₁ db₂ db₄ := h₃.trans (h₄.weaken (List.subset_append_left _ _))
          have hvacant : ∀ db₅, Rely hash held₁ db₂ db₅ → Sql.occupied db₅ name = false :=
            fun db₅ h₅ => h₅.vacant name hlock hocc
          -- no child has come in since, so the foreign keys hold
          have hkept : Sql.occupied (db₄.after ([] ++ [.remove (.bucket name)])) name = false :=
            hvacant db₄ h₄
          rw [hkept, if_neg (by decide)]
          refine goesOn_commit fun db₅ h₅ _ => ?_
          have h₅ := h₄.trans (h₅.weaken (List.subset_append_left _ _))
          exact .deleteBucket (List.mem_append_left _ hlock) (by simp [hbucket db₅ (h₂.trans h₅)])
            (hvacant db₅ h₅)

/-! ## CreateMultipartUpload -/

theorem goesOn_createUpload {now : ℤ} {uuid bucket key : Text} :
    GoesOn hash sha256 (.createUpload now uuid bucket key) (Sql.createUpload now uuid bucket key)
      [] [] db := by
  refine goesOn_lockRow ?_ ?_
  · intro db₁ _ _ hnone
    have hnone : db₁.buckets.find? bucket = none := hnone
    exact goesOn_rollback
      (.inl (by simp [Job.serial, apply, Pgvs3.createUpload, hnone]))
  · intro db₁ b _ _ hthere
    refine ⟨by simp [Asked], trivial, ?_⟩
    have hthere : db₁.buckets.find? bucket = some b := hthere
    set held₁ := [] ++ [Lock.row (.bucket bucket) .keyShare] with hheld₁
    have hlock : Lock.row (.bucket bucket) .keyShare ∈ held₁ := by simp [hheld₁]
    have hdepth : ∀ l ∈ held₁, l.depth ≤ 1 := by simp [hheld₁, Lock.depth]
    have hbucket : ∀ db₂, Rely hash held₁ db₁ db₂ → db₂.buckets.find? bucket = some b :=
      fun db₂ h₂ => (h₂.bucket bucket .keyShare (by decide) hlock).trans hthere
    refine ready_step fun db₂ h₂ hdb₂ s hs => ?_
    have h₂ : Rely hash held₁ db₁ db₂ := h₂
    have hdb₂ : Admissible db₂ := hdb₂
    have hs : s.db = db₂ := hs
    rw [hs]
    cases hat : uploadAt? db₂ bucket key with
    | some up =>
        -- an upload of the key is there, and stays as it is
        simp only [Option.isSome_some, true_or, if_true, List.append_nil]
        refine ⟨⟨?_, by simp [Taken]⟩, goesOn_commit fun db₃ h₃ hdb₃ => ?_⟩
        · intro l hl
          rw [List.nil_append, List.mem_singleton] at hl
          exact .inr (hl ▸ .inl hdepth)
        · obtain ⟨hup, hb, hk⟩ := (uploadAt?_eq_some_iff hdb₂).mp hat
          have hsame : db₃.uploads.find? up.uploadId = some up :=
            (h₃.upload up.uploadId .update (by decide) (by simp)).trans
              (Table.find?_eq_some_iff.mpr ⟨hup, rfl⟩)
          have h₃ := h₂.trans (h₃.weaken (List.subset_append_left _ _))
          exact .reattach (by simp [hbucket db₃ h₃])
            ((uploadAt?_eq_some_iff hdb₃).mpr ⟨(Table.find?_eq_some_iff.mp hsame).1, hb, hk⟩)
    | none =>
        cases hid : db₂.holds (.upload uuid) with
        | true =>
            simp only [if_true, List.append_nil]
            refine ⟨⟨?_, by simp⟩, goesOn_rollback (.inl ?_)⟩
            · intro l hl
              rw [List.mem_singleton.mp hl]
              exact .inr (.inl hdepth)
            · have hfound : db₂.uploads.find? uuid ≠ none := by
                simpa [Db.holds, Option.isSome_iff_ne_none] using hid
              have hinsert := insert?_eq_none (a := (⟨uuid, bucket, key, now⟩ : UploadRow)) hfound
              unfold uploadAt? at hat
              simp only [Job.serial, apply, Pgvs3.createUpload, hbucket db₂ h₂, hat, hinsert]
              simp
        | false =>
            simp only [Bool.false_eq_true, if_false, Option.isSome_none, or_self]
            set new : UploadRow := ⟨uuid, bucket, key, now⟩ with hnew
            set held₂ := held₁ ++ [Lock.row (.uploadKey bucket key) .update,
              .row (.upload uuid) .update] with hheld₂
            refine ⟨⟨?_, by simp [Taken]⟩, goesOn_lockRow ?_ ?_⟩
            · intro l hl
              simp only [List.nil_append, List.mem_cons, List.not_mem_nil, or_false] at hl
              rcases hl with rfl | rfl
              · exact .inr hdepth
              · exact .inr (.inl hdepth)
            · intro db₃ h₃ _ hgone
              have hgone : db₃.buckets.find? bucket = none := hgone
              rw [hbucket db₃ (h₂.trans (h₃.weaken (List.subset_append_left _ _)))] at hgone
              cases hgone
            · intro db₃ _ h₃ _ _
              refine ⟨?_, trivial, goesOn_commit fun db₄ h₄ _ => ?_⟩
              · intro l hl
                rcases List.mem_append.mp hl with hl | hl
                · exact (hdepth l hl).trans (by decide)
                · simp only [List.mem_cons, List.not_mem_nil, or_false] at hl
                  rcases hl with rfl | rfl <;> simp [Lock.depth]
              · have h₄ : Rely hash held₂ db₂ db₄ :=
                  h₃.trans (h₄.weaken (List.subset_append_left _ _))
                have hnone : db₂.uploads.find? uuid = none := by
                  simpa [Db.holds] using hid
                have hnone₄ : db₄.uploads.find? uuid = none :=
                  (h₄.upload uuid .update (by decide) (by simp [hheld₂])).trans hnone
                have hat₄ := h₄.uploadKey bucket key (by simp [hheld₂]) hat
                have h₄ := h₂.trans (h₄.weaken (List.subset_append_left _ _))
                exact .createUpload (by simp [hheld₁, hheld₂]) (by simp [hheld₂]) (by simp [hheld₂])
                  (by simp [hbucket db₄ h₄]) hat₄ (insert?_eq_upsert (a := new) hnone₄)

end Pgvs3
