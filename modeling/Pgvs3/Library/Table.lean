import Mathlib.Data.List.Nodup
import Mathlib.Data.List.Perm.Subperm
import Mathlib.Tactic

/-! # Keyed tables

A table is a list of rows no two of which share their key, as a relational table
with a primary key is. Every operation rebuilds the proof of uniqueness. -/

namespace Library

/-- Rows with pairwise distinct keys. -/
structure Table {α κ : Type*} (key : α → κ) where
  rows : List α
  nodup : (rows.map key).Nodup

namespace Table

variable {α κ : Type*} {key : α → κ}

@[ext] theorem ext {s t : Table key} (h : s.rows = t.rows) : s = t := by
  cases s
  cases t
  subst h
  rfl

instance : Membership α (Table key) := ⟨fun t a => a ∈ t.rows⟩

instance [DecidableEq α] : DecidableEq (Table key) := fun s t =>
  decidable_of_iff (s.rows = t.rows) ⟨Table.ext, fun h => h ▸ rfl⟩

instance [DecidableEq α] (t : Table key) (a : α) : Decidable (a ∈ t) :=
  inferInstanceAs (Decidable (a ∈ t.rows))

theorem mem_def {t : Table key} {a : α} : a ∈ t ↔ a ∈ t.rows := Iff.rfl

theorem eq_of_key {t : Table key} {a b : α} (ha : a ∈ t) (hb : b ∈ t)
    (h : key a = key b) : a = b :=
  List.inj_on_of_nodup_map t.nodup ha hb h

/-! ## Operations -/

def empty : Table key := ⟨[], by simp⟩

@[simp] theorem not_mem_empty (a : α) : ¬ a ∈ (empty : Table key) := by
  simp [mem_def, empty]

def find? [DecidableEq κ] (t : Table key) (k : κ) : Option α :=
  t.rows.find? (fun a => key a = k)

theorem find?_eq_some_iff [DecidableEq κ] {t : Table key} {k : κ} {a : α} :
    t.find? k = some a ↔ a ∈ t ∧ key a = k := by
  constructor
  · intro h
    exact ⟨List.mem_of_find?_eq_some h, by simpa using List.find?_some h⟩
  · rintro ⟨ha, rfl⟩
    cases hf : t.find? (key a) with
    | none =>
        have hn := List.find?_eq_none.mp hf a ha
        simp at hn
    | some b =>
        have hb : b ∈ t := List.mem_of_find?_eq_some hf
        have hk : key b = key a := by simpa using List.find?_some hf
        rw [eq_of_key hb ha hk]

theorem find?_eq_none_iff [DecidableEq κ] {t : Table key} {k : κ} :
    t.find? k = none ↔ ∀ a ∈ t, key a ≠ k := by
  simp only [find?, List.find?_eq_none, decide_eq_true_eq, mem_def, ne_eq]

def deleteWhere (t : Table key) (p : α → Bool) : Table key :=
  ⟨t.rows.filter (fun a => !p a), t.nodup.sublist (List.filter_sublist.map key)⟩

@[simp] theorem mem_deleteWhere {t : Table key} {p : α → Bool} {a : α} :
    a ∈ t.deleteWhere p ↔ a ∈ t ∧ p a = false := by
  simp [mem_def, deleteWhere]

/-- Add a row, failing on a duplicate key. -/
def insert? [DecidableEq κ] (t : Table key) (a : α) : Option (Table key) :=
  if h : key a ∈ t.rows.map key then none
  else some ⟨t.rows ++ [a], by
    rw [List.map_append, List.map_singleton]
    exact t.nodup.append (List.nodup_singleton _) (by simpa using h)⟩

theorem insert?_eq_some_iff [DecidableEq κ] {t t' : Table key} {a : α} :
    t.insert? a = some t' ↔ (∀ b ∈ t, key b ≠ key a) ∧ t'.rows = t.rows ++ [a] := by
  unfold insert?
  split
  · rename_i h
    obtain ⟨b, hb, hk⟩ := List.mem_map.mp h
    constructor
    · intro he
      cases he
    · rintro ⟨hn, _⟩
      exact (hn b hb hk).elim
  · rename_i h
    constructor
    · intro he
      cases he
      exact ⟨fun b hb hk => h (List.mem_map.mpr ⟨b, hb, hk⟩), rfl⟩
    · rintro ⟨_, he⟩
      exact congrArg some (Table.ext he.symm)

theorem mem_insert? [DecidableEq κ] {t t' : Table key} {a b : α}
    (h : t.insert? a = some t') : b ∈ t' ↔ b ∈ t ∨ b = a := by
  simp [mem_def, (insert?_eq_some_iff.mp h).2]

theorem insert?_isSome [DecidableEq κ] {t : Table key} {a : α}
    (h : ∀ b ∈ t, key b ≠ key a) : ∃ t', t.insert? a = some t' := by
  refine ⟨⟨t.rows ++ [a], ?_⟩, insert?_eq_some_iff.mpr ⟨h, rfl⟩⟩
  rw [List.map_append, List.map_singleton]
  refine t.nodup.append (List.nodup_singleton _) ?_
  intro k hk hka
  obtain ⟨b, hb, rfl⟩ := List.mem_map.mp hk
  exact h b hb (List.mem_singleton.mp hka)

/-- Add several rows in turn, failing on the first duplicate key. -/
def insertAll? [DecidableEq κ] : Table key → List α → Option (Table key)
  | t, [] => some t
  | t, a :: rest => (t.insert? a).bind (fun t' => insertAll? t' rest)

theorem insertAll?_eq_some_iff [DecidableEq κ] {t t' : Table key} {rows : List α} :
    t.insertAll? rows = some t' ↔
      (rows.map key).Nodup ∧ (∀ a ∈ rows, ∀ b ∈ t, key b ≠ key a) ∧
        t'.rows = t.rows ++ rows := by
  induction rows generalizing t with
  | nil =>
      constructor
      · intro h
        cases h
        simp
      · rintro ⟨_, _, h⟩
        exact congrArg some (Table.ext (by simpa using h.symm))
  | cons a rest ih =>
      simp only [insertAll?, Option.bind_eq_some_iff, insert?_eq_some_iff]
      constructor
      · rintro ⟨u, ⟨hfresh, hu⟩, hrest⟩
        obtain ⟨hnodup, hdisj, ht'⟩ := ih.mp hrest
        have hmem : ∀ b, b ∈ u ↔ b ∈ t ∨ b = a := by
          intro b
          simp [mem_def, hu]
        refine ⟨?_, ?_, by simp [ht', hu]⟩
        · refine List.nodup_cons.mpr ⟨?_, hnodup⟩
          intro ha
          obtain ⟨b, hb, hk⟩ := List.mem_map.mp ha
          exact hdisj b hb a ((hmem a).mpr (.inr rfl)) hk.symm
        · intro c hc b hb
          rcases List.mem_cons.mp hc with rfl | hc
          · exact hfresh b hb
          · exact hdisj c hc b ((hmem b).mpr (.inl hb))
      · rintro ⟨hnodup, hdisj, ht'⟩
        obtain ⟨hna, hnodup⟩ := List.nodup_cons.mp hnodup
        have hfresh : ∀ b ∈ t, key b ≠ key a := fun b hb => hdisj a (by simp) b hb
        obtain ⟨u, hu⟩ := insert?_isSome hfresh
        refine ⟨u, insert?_eq_some_iff.mp hu, ih.mpr ⟨hnodup, ?_, ?_⟩⟩
        · intro c hc b hb hk
          rcases (mem_insert? hu).mp hb with hb | rfl
          · exact hdisj c (by simp [hc]) b hb hk
          · exact hna (List.mem_map.mpr ⟨c, hc, hk.symm⟩)
        · simp [ht', (insert?_eq_some_iff.mp hu).2]

theorem exists_insertAll? [DecidableEq κ] {t : Table key} {rows : List α}
    (hnodup : (rows.map key).Nodup) (hfresh : ∀ a ∈ rows, ∀ b ∈ t, key b ≠ key a) :
    ∃ t', t.insertAll? rows = some t' := by
  have hall : ((t.rows ++ rows).map key).Nodup := by
    rw [List.map_append]
    refine List.Nodup.append t.nodup hnodup ?_
    rintro k hk hk'
    obtain ⟨b, hb, rfl⟩ := List.mem_map.mp hk
    obtain ⟨a, ha, heq⟩ := List.mem_map.mp hk'
    exact hfresh a ha b hb heq.symm
  exact ⟨⟨t.rows ++ rows, hall⟩, insertAll?_eq_some_iff.mpr ⟨hnodup, hfresh, rfl⟩⟩

theorem mem_insertAll? [DecidableEq κ] {t t' : Table key} {rows : List α} {b : α}
    (h : t.insertAll? rows = some t') : b ∈ t' ↔ b ∈ t ∨ b ∈ rows := by
  simp [mem_def, (insertAll?_eq_some_iff.mp h).2.2]

/-- Add a row, replacing the row of the same key if there is one. -/
def upsert [DecidableEq κ] (t : Table key) (a : α) : Table key :=
  ⟨t.rows.filter (fun b => key b ≠ key a) ++ [a], by
    rw [List.map_append, List.map_singleton]
    refine List.Nodup.append (t.nodup.sublist (List.filter_sublist.map key))
      (List.nodup_singleton _) ?_
    intro k hk hka
    obtain ⟨b, hb, rfl⟩ := List.mem_map.mp hk
    have hne := (List.mem_filter.mp hb).2
    rw [List.mem_singleton] at hka
    simp [hka] at hne⟩

@[simp] theorem mem_upsert [DecidableEq κ] {t : Table key} {a b : α} :
    b ∈ t.upsert a ↔ (b ∈ t ∧ key b ≠ key a) ∨ b = a := by
  simp [mem_def, upsert]

@[simp] theorem find?_upsert_self [DecidableEq κ] {t : Table key} {a : α} :
    (t.upsert a).find? (key a) = some a :=
  find?_eq_some_iff.mpr ⟨mem_upsert.mpr (.inr rfl), rfl⟩

theorem find?_upsert_of_ne [DecidableEq κ] {t : Table key} {a : α} {k : κ}
    (h : key a ≠ k) : (t.upsert a).find? k = t.find? k := by
  apply Option.ext
  intro b
  rw [find?_eq_some_iff, find?_eq_some_iff, mem_upsert]
  constructor
  · rintro ⟨⟨hb, _⟩ | rfl, hk⟩
    · exact ⟨hb, hk⟩
    · exact (h hk).elim
  · rintro ⟨hb, hk⟩
    exact ⟨.inl ⟨hb, fun he => h (he.symm.trans hk)⟩, hk⟩

theorem find?_deleteWhere [DecidableEq κ] {t : Table key} {p : α → Bool} {k : κ}
    (h : ∀ a, key a = k → p a = false) : (t.deleteWhere p).find? k = t.find? k := by
  apply Option.ext
  intro a
  rw [find?_eq_some_iff, find?_eq_some_iff, mem_deleteWhere]
  constructor
  · rintro ⟨⟨ha, _⟩, hk⟩
    exact ⟨ha, hk⟩
  · rintro ⟨ha, hk⟩
    exact ⟨⟨ha, h a hk⟩, hk⟩

theorem find?_insert?_of_some [DecidableEq κ] {t t' : Table key} {a b : α} {k : κ}
    (h : t.insert? a = some t') (hb : t.find? k = some b) : t'.find? k = some b := by
  obtain ⟨hmem, hk⟩ := find?_eq_some_iff.mp hb
  exact find?_eq_some_iff.mpr ⟨(mem_insert? h).mpr (.inl hmem), hk⟩

theorem perm_of_mem [DecidableEq κ] {t : Table key} {a : α} (h : a ∈ t) :
    t.rows.Perm (a :: t.rows.filter (fun b => key b ≠ key a)) := by
  have hnodup : (a :: t.rows.filter (fun b => key b ≠ key a)).Nodup := by
    refine List.nodup_cons.mpr ⟨fun hmem => ?_, (t.nodup.of_map _).filter _⟩
    simpa using (List.mem_filter.mp hmem).2
  refine (List.perm_ext_iff_of_nodup (t.nodup.of_map _) hnodup).mpr fun b => ?_
  rw [List.mem_cons, List.mem_filter]
  constructor
  · intro hb
    by_cases hk : key b = key a
    · exact .inl (eq_of_key hb h hk)
    · exact .inr ⟨hb, by simpa using hk⟩
  · rintro (rfl | ⟨hb, _⟩)
    · exact h
    · exact hb

/-! ## Tables as finite maps -/

theorem find?_upsert [DecidableEq κ] (t : Table key) (a : α) :
    (t.upsert a).find? = Function.update t.find? (key a) (some a) := by
  funext k
  by_cases hk : k = key a
  · subst hk
    rw [find?_upsert_self, Function.update_self]
  · rw [find?_upsert_of_ne (Ne.symm hk), Function.update_of_ne hk]

theorem find?_insert? [DecidableEq κ] {t t' : Table key} {a : α} (h : t.insert? a = some t') :
    t'.find? = Function.update t.find? (key a) (some a) := by
  funext k
  apply Option.ext
  intro b
  rw [find?_eq_some_iff, mem_insert? h]
  by_cases hk : k = key a
  · subst hk
    rw [Function.update_self, Option.some.injEq]
    constructor
    · rintro ⟨hb | rfl, hbk⟩
      · exact ((insert?_eq_some_iff.mp h).1 b hb hbk).elim
      · rfl
    · rintro rfl
      exact ⟨.inr rfl, rfl⟩
  · rw [Function.update_of_ne hk, find?_eq_some_iff]
    constructor
    · rintro ⟨hb | rfl, hbk⟩
      · exact ⟨hb, hbk⟩
      · exact (hk hbk.symm).elim
    · rintro ⟨hb, hbk⟩
      exact ⟨.inl hb, hbk⟩

theorem find?_deleteKey [DecidableEq κ] (t : Table key) (k : κ) :
    (t.deleteWhere fun b => key b = k).find? = Function.update t.find? k none := by
  funext l
  by_cases hl : l = k
  · subst hl
    rw [Function.update_self, find?_eq_none_iff]
    intro b hb
    simpa using (mem_deleteWhere.mp hb).2
  · rw [Function.update_of_ne hl]
    refine find?_deleteWhere fun a ha => ?_
    rw [decide_eq_false_iff_not, ha]
    exact hl

end Table

end Library
