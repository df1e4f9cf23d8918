import Pgvs3.Verification.Concurrency.Terms

/-! # The rules of the statements

One rule for each kind of statement: what has to be shown of the rows it may meet for the
transaction to go on under the terms. -/

namespace Pgvs3

open Library

variable {hash : Text → Text → ℤ} {sha256 : Bytes → Bytes} {job : Job} {held : List Lock}
  {ws : List Write} {db : Db}

/-- A transaction of the store may go on with `rest`. -/
abbrev GoesOn (hash : Text → Text → ℤ) (sha256 : Bytes → Bytes) (job : Job) (rest : Sql)
    (held : List Lock) (ws : List Write) (db : Db) : Prop :=
  Ready (store hash sha256) (terms hash sha256) job rest held ws db

theorem goesOn_commit {a : Outcome}
    (h : ∀ db', Rely hash held db db' → Admissible db' →
      Commits hash sha256 held db' job a (db'.after ws)) :
    GoesOn hash sha256 job (.commit a) held ws db :=
  ready_commit h

theorem goesOn_rollback {a : Outcome} (h : Refused sha256 job db a) :
    GoesOn hash sha256 job (.rollback a) held ws db :=
  ready_rollback h

theorem goesOn_select {next : Db → Sql}
    (h : ∀ db', Rely hash held db db' → Admissible db' →
      GoesOn hash sha256 job (next (db'.after ws)) held ws db') :
    GoesOn hash sha256 job (Sql.select next) held ws db := by
  refine ready_step fun db' hrely hdb s hs => ⟨⟨by simp, by simp⟩, ?_⟩
  rw [List.append_nil, List.append_nil, hs]
  exact h db' hrely hdb

theorem goesOn_lockObjectKey {bucket key : Text} {next : Sql}
    (hasked : ∀ l ∈ held, l.depth ≤ 2)
    (h : ∀ db', Rely hash held db db' → Admissible db' →
      GoesOn hash sha256 job next (held ++ [.key (hash bucket key)]) ws db') :
    GoesOn hash sha256 job (Sql.lockObjectKey hash bucket key next) held ws db := by
  refine ready_step fun db' hrely hdb s hs => ⟨⟨?_, ?_⟩, ?_⟩
  · intro l hl
    simp only [List.nil_append, List.mem_singleton] at hl
    exact .inr (hl ▸ hasked)
  · intro l hl
    rw [List.mem_singleton.mp hl]
    trivial
  · rw [List.append_nil]
    exact h db' hrely hdb

theorem goesOn_lockRow {ρ : Type} {slot : Slot} {mode : LockMode} {find : Db → Option ρ}
    {next : Option ρ → Sql}
    (hnone : ∀ db', Rely hash held db db' → Admissible db' → find (db'.after ws) = none →
      GoesOn hash sha256 job (next none) held ws db')
    (hsome : ∀ db' r, Rely hash held db db' → Admissible db' → find (db'.after ws) = some r →
      Asked hash held db' (.row slot mode) ∧
        Taken hash job (held ++ [.row slot mode]) db' (.row slot mode) ∧
        GoesOn hash sha256 job (next (some r)) (held ++ [.row slot mode]) ws db') :
    GoesOn hash sha256 job (Sql.lockRow slot mode find next) held ws db := by
  refine ready_step fun db' hrely hdb s hs => ?_
  rw [List.append_nil]
  have hs : s.db = db'.after ws := hs
  cases hfind : find s.db with
  | none =>
      rw [hs] at hfind
      exact ⟨⟨by simp, by simp⟩, by simpa using hnone db' hrely hdb hfind⟩
  | some r =>
      rw [hs] at hfind
      obtain ⟨hasked, htaken, hnext⟩ := hsome db' r hrely hdb hfind
      refine ⟨⟨?_, ?_⟩, by simpa using hnext⟩
      · simpa using Or.inr hasked
      · simpa using htaken

theorem goesOn_deleteRow {ρ : Type} {slot : Slot} {find : Db → Option ρ} {next : Option ρ → Sql}
    (hnone : ∀ db', Rely hash held db db' → Admissible db' → find (db'.after ws) = none →
      GoesOn hash sha256 job (next none) held ws db')
    (hsome : ∀ db' r, Rely hash held db db' → Admissible db' → find (db'.after ws) = some r →
      Asked hash held db' (.row slot .delete) ∧
        Taken hash job (held ++ [.row slot .delete]) db' (.row slot .delete) ∧
        GoesOn hash sha256 job (next (some r)) (held ++ [.row slot .delete])
          (ws ++ [.remove slot]) db') :
    GoesOn hash sha256 job (Sql.deleteRow slot find next) held ws db := by
  refine ready_step fun db' hrely hdb s hs => ?_
  have hs : s.db = db'.after ws := hs
  cases hfind : find s.db with
  | none =>
      rw [hs] at hfind
      exact ⟨⟨by simp, by simp⟩, by simpa using hnone db' hrely hdb hfind⟩
  | some r =>
      rw [hs] at hfind
      obtain ⟨hasked, htaken, hnext⟩ := hsome db' r hrely hdb hfind
      refine ⟨⟨?_, ?_⟩, by simpa using hnext⟩
      · simpa using Or.inr hasked
      · simpa using htaken

theorem goesOn_insertRow {slot : Slot} {write : Write} {next : Bool → Sql}
    (hroom : ∀ db', Rely hash held db db' → Admissible db' → (db'.after ws).holds slot = false →
      Asked hash held db' (.row slot .update) ∧
        Taken hash job (held ++ [.row slot .update]) db' (.row slot .update) ∧
        GoesOn hash sha256 job (next true) (held ++ [.row slot .update]) (ws ++ [write]) db')
    (htaken : ∀ db', Rely hash held db db' → Admissible db' → (db'.after ws).holds slot = true →
      Asked hash held db' (.row slot .present) ∧ GoesOn hash sha256 job (next false) held ws db') :
    GoesOn hash sha256 job (Sql.insertRow slot write next) held ws db := by
  refine ready_step fun db' hrely hdb s hs => ?_
  have hs : s.db = db'.after ws := hs
  cases hholds : s.db.holds slot with
  | false =>
      rw [hs] at hholds
      obtain ⟨hasked, htaken, hnext⟩ := hroom db' hrely hdb hholds
      refine ⟨⟨?_, ?_⟩, by simpa using hnext⟩
      · simpa using Or.inr hasked
      · simpa using htaken
  | true =>
      rw [hs] at hholds
      obtain ⟨hasked, hnext⟩ := htaken db' hrely hdb hholds
      refine ⟨⟨?_, by simp⟩, by simpa using hnext⟩
      simpa using Or.inr hasked

/-! ## Scans that delete -/

/-- A row, as opposed to an entry of an index. -/
def Slot.isRow : Slot → Bool
  | .uploadKey _ _ => false
  | _ => true

theorem find?_deleteWhere_isSome {α κ : Type*} {key : α → κ} [DecidableEq κ] {t : Table key}
    {k : κ} {p : α → Bool} (h : ∀ a, key a = k → p a = false) :
    ((t.deleteWhere p).find? k).isSome = (t.find? k).isSome := by
  rw [Table.find?_deleteWhere h]

theorem holds_write_remove {db : Db} {slot t : Slot} (hrow : t.isRow = true) (hne : t ≠ slot) :
    (db.write (.remove slot)).holds t = db.holds t := by
  cases slot <;> cases t <;> try rfl
  case bucket.bucket => exact find?_deleteWhere_isSome fun a ha => by simp_all
  case object.object =>
    exact find?_deleteWhere_isSome fun a ha => by
      rw [decide_eq_false_iff_not, ha]
      rintro heq
      exact hne (by cases heq; rfl)
  case chunk.chunk =>
    exact find?_deleteWhere_isSome fun a ha => by
      rw [decide_eq_false_iff_not, ha]
      rintro heq
      exact hne (by cases heq; rfl)
  case upload.upload => exact find?_deleteWhere_isSome fun a ha => by simp_all
  case upload.uploadKey => simp [Slot.isRow] at hrow
  case part.part =>
    exact find?_deleteWhere_isSome fun a ha => by
      rw [decide_eq_false_iff_not, ha]
      rintro heq
      exact hne (by cases heq; rfl)

theorem holds_without {db : Db} {slots : List Slot} {t : Slot} (hrow : t.isRow = true)
    (hne : t ∉ slots) : (db.without slots).holds t = db.holds t := by
  induction slots generalizing db with
  | nil => rfl
  | cons slot slots ih =>
      rw [List.mem_cons, not_or] at hne
      rw [without_cons, ih hne.2, holds_write_remove hrow hne.1]

theorem find?_deleteWhere_self {α κ : Type*} {key : α → κ} [DecidableEq κ] (t : Table key) (k : κ) :
    ((t.deleteWhere fun a => key a = k).find? k).isSome = false := by
  rw [Option.isSome_eq_false_iff, Option.isNone_iff_eq_none, Table.find?_eq_none_iff]
  intro a ha
  simpa using (Table.mem_deleteWhere.mp ha).2

theorem not_holds_removed (db : Db) {t : Slot} (hrow : t.isRow = true) :
    (db.write (.remove t)).holds t = false := by
  cases t with
  | bucket name => exact find?_deleteWhere_self db.buckets name
  | object bucket key => exact find?_deleteWhere_self db.objects (bucket, key)
  | chunk fileId no => exact find?_deleteWhere_self db.chunks (fileId, no)
  | upload uploadId => exact find?_deleteWhere_self db.uploads uploadId
  | uploadKey bucket key => simp [Slot.isRow] at hrow
  | part uploadId partNo => exact find?_deleteWhere_self db.uploadParts (uploadId, partNo)

theorem not_holds_without {db : Db} {slots : List Slot} {t : Slot} (hrow : t.isRow = true)
    (h : t ∈ slots ∨ db.holds t = false) : (db.without slots).holds t = false := by
  induction slots generalizing db with
  | nil => simpa using h
  | cons slot slots ih =>
      rw [without_cons]
      apply ih
      by_cases heq : t = slot
      · exact .inr (heq ▸ not_holds_removed db hrow)
      · rw [holds_write_remove hrow heq]
        simpa [heq] using h

theorem mem_eraseIdx_or_eq {α : Type*} {l : List α} {i : ℕ} {a : α} (h : a ∈ l) :
    a ∈ l.eraseIdx i ∨ l[i]? = some a := by
  obtain ⟨j, hj, rfl⟩ := List.mem_iff_getElem.mp h
  by_cases hij : j = i
  · subst hij
    exact .inr (List.getElem?_eq_getElem hj)
  · exact .inl (List.mem_eraseIdx_iff_getElem.mpr ⟨j, hj, hij, rfl⟩)

def deleteLocks (slots : List Slot) : List Lock := slots.map (.row · .delete)

/-- What a scan has to be shown: nobody puts back a row that is gone, and each row there is
may be deleted. -/
structure Deletable (hash : Text → Text → ℤ) (job : Job) (held : List Lock) (ws : List Write)
    (db : Db) (targets : List Slot) : Prop where
  isRow : ∀ t ∈ targets, t.isRow = true
  stays : ∀ t ∈ targets, ∀ db₁ db₂, Rely hash held db db₁ → Rely hash held db₁ db₂ →
    Admissible db₁ → (db₁.after ws).holds t = false → (db₂.after ws).holds t = false
  asked : ∀ t ∈ targets, ∀ gone db₁, gone ⊆ targets → Rely hash held db db₁ →
    (db₁.after ws).holds t = true → Asked hash (held ++ deleteLocks gone) db₁ (.row t .delete)
  taken : ∀ t ∈ targets, ∀ held' db₁, held ⊆ held' → Rely hash held db db₁ →
    (db₁.after ws).holds t = true → Taken hash job held' db₁ (.row t .delete)

theorem goesOn_deleteEach {targets : List Slot} {next : ℕ → Sql}
    (hdel : Deletable hash job held ws db targets)
    (hnext : ∀ gone db₁, gone ⊆ targets → Rely hash held db db₁ →
      Admissible db₁ → (∀ t ∈ targets, t ∈ gone ∨ (db₁.after ws).holds t = false) →
      GoesOn hash sha256 job (next gone.length) (held ++ deleteLocks gone)
        (ws ++ gone.map .remove) db₁)
    {left : ℕ} {rest gone : List Slot} {db₁ : Db} (hleft : rest.length = left)
    (hrest : rest ⊆ targets) (hgone : gone ⊆ targets) (hrely : Rely hash held db db₁)
    (hdb₁ : Admissible db₁)
    (hdone : ∀ t ∈ targets, t ∈ rest ∨ t ∈ gone ∨ (db₁.after ws).holds t = false) :
    GoesOn hash sha256 job (Sql.deleteEach left rest gone.length next) (held ++ deleteLocks gone)
      (ws ++ gone.map .remove) db₁ := by
  induction left generalizing rest gone db₁ with
  | zero =>
      obtain rfl := List.length_eq_zero_iff.mp hleft
      exact hnext gone db₁ hgone hrely hdb₁ fun t ht => (hdone t ht).resolve_left (by simp)
  | succ left ih =>
      refine ready_step fun db₂ hrely₂ hdb₂ s hs => ?_
      have hs : s.db = (db₂.after ws).without gone := by
        rw [hs]
        exact after_append _ _ _
      have hrely₁₂ : Rely hash held db₁ db₂ := hrely₂.weaken (List.subset_append_left _ _)
      have hrely₂ : Rely hash held db db₂ := hrely.trans hrely₁₂
      have hlt : s.pick % rest.length < rest.length := Nat.mod_lt _ (by omega)
      set i := s.pick % rest.length with hi
      have hvisit : rest[i]? = some rest[i] := List.getElem?_eq_getElem hlt
      set t := rest[i] with ht
      have htarget : t ∈ targets := hrest (List.getElem_mem hlt)
      have hlen : (rest.eraseIdx i).length = left := by
        rw [List.length_eraseIdx_of_lt hlt]
        omega
      have hsub : rest.eraseIdx i ⊆ targets := fun u hu => hrest (List.mem_of_mem_eraseIdx hu)
      -- what was dealt with stays so, and the visited target is dealt with now
      have hkeep : ∀ u ∈ targets, u ∈ rest.eraseIdx i ∨ u = t ∨ u ∈ gone ∨
          (db₂.after ws).holds u = false := by
        intro u hu
        rcases hdone u hu with hu' | hu' | hu'
        · rcases mem_eraseIdx_or_eq (i := i) hu' with hu' | hu'
          · exact .inl hu'
          · rw [hvisit, Option.some.injEq] at hu'
            exact .inr (.inl hu'.symm)
        · exact .inr (.inr (.inl hu'))
        · exact .inr (.inr (.inr (hdel.stays u hu _ _ hrely hrely₁₂ hdb₁ hu')))
      cases hholds : s.db.holds t with
      | false =>
          have hvisited : Sql.visited rest s = [] := by
            simp [Sql.visited, ← hi, hvisit, hholds]
          refine ⟨⟨by simp [hvisited], by simp [hvisited]⟩, ?_⟩
          have hdone' : ∀ u ∈ targets, u ∈ rest.eraseIdx i ∨ u ∈ gone ∨
              (db₂.after ws).holds u = false := by
            intro u hu
            rcases hkeep u hu with hu' | rfl | hu' | hu'
            · exact .inl hu'
            · by_cases hmem : t ∈ gone
              · exact .inr (.inl hmem)
              · rw [hs, holds_without (hdel.isRow t hu) hmem] at hholds
                exact .inr (.inr hholds)
            · exact .inr (.inl hu')
            · exact .inr (.inr hu')
          simpa [hvisited, ← hi] using ih hlen hsub hgone hrely₂ hdb₂ hdone'
      | true =>
          have hvisited : Sql.visited rest s = [t] := by
            simp [Sql.visited, ← hi, hvisit, hholds]
          have hmem : t ∉ gone := by
            intro hmem
            rw [hs, not_holds_without (hdel.isRow t htarget) (.inl hmem)] at hholds
            simp at hholds
          rw [hs, holds_without (hdel.isRow t htarget) hmem] at hholds
          have hasked := hdel.asked t htarget gone db₂ hgone hrely₂ hholds
          have htaken := hdel.taken t htarget (held ++ deleteLocks gone ++ [.row t .delete]) db₂
            (by simp) hrely₂ hholds
          refine ⟨⟨?_, ?_⟩, ?_⟩
          · simpa [hvisited] using Or.inr hasked
          · simpa [hvisited] using htaken
          · have hdone' : ∀ u ∈ targets, u ∈ rest.eraseIdx i ∨ u ∈ gone ++ [t] ∨
                (db₂.after ws).holds u = false := by
              intro u hu
              rcases hkeep u hu with hu' | rfl | hu' | hu'
              · exact .inl hu'
              · exact .inr (.inl (by simp))
              · exact .inr (.inl (List.mem_append_left _ hu'))
              · exact .inr (.inr hu')
            have hgone' : gone ++ [t] ⊆ targets := by
              intro u hu
              rcases List.mem_append.mp hu with hu | hu
              · exact hgone hu
              · exact List.mem_singleton.mp hu ▸ htarget
            simpa [hvisited, ← hi, deleteLocks] using ih hlen hsub hgone' hrely₂ hdb₂ hdone'

theorem goesOn_deleteRows {rows : Db → List Slot} {next : ℕ → Sql}
    (h : ∀ db₁, Rely hash held db db₁ → Admissible db₁ →
      Deletable hash job held ws db₁ (rows (db₁.after ws)) ∧
        ∀ gone db₂, gone ⊆ rows (db₁.after ws) → Rely hash held db₁ db₂ → Admissible db₂ →
          (∀ t ∈ rows (db₁.after ws), t ∈ gone ∨ (db₂.after ws).holds t = false) →
          GoesOn hash sha256 job (next gone.length) (held ++ deleteLocks gone)
            (ws ++ gone.map .remove) db₂) :
    GoesOn hash sha256 job (Sql.deleteRows rows next) held ws db := by
  refine goesOn_select fun db₁ hrely hdb₁ => ?_
  obtain ⟨hdel, hnext⟩ := h db₁ hrely hdb₁
  simpa [deleteLocks] using goesOn_deleteEach hdel hnext rfl (List.Subset.refl _)
    (List.nil_subset _) (Rely.refl hash held db₁) hdb₁ fun t ht => .inl ht

end Pgvs3
