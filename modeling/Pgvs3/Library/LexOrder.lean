import Mathlib.Data.List.Lex
import Mathlib.Order.Cover
import Mathlib.Tactic

/-! # Prefixes in the lexicographic order

The lists with a given prefix are an interval: they begin at the prefix itself, and they end
where the last item of the prefix is replaced by its successor. -/

namespace Library

variable {α : Type*} [LinearOrder α] {p a b c : List α} {x y : α}

theorem cons_le_cons_iff : x :: a ≤ y :: b ↔ x < y ∨ x = y ∧ a ≤ b := by
  rw [← not_lt, List.cons_lt_cons_iff, ← not_lt]
  rcases lt_trichotomy x y with h | rfl | h
  · simp [h, h.ne', lt_asymm h]
  · simp
  · simp [h, h.ne', lt_asymm h]

theorem nil_le (a : List α) : [] ≤ a := not_lt.mp (List.not_lt_nil a)

theorem le_of_isPrefix (h : p <+: a) : p ≤ a := by
  obtain ⟨rest, rfl⟩ := h
  induction p with
  | nil => exact nil_le _
  | cons x p ih => exact cons_le_cons_iff.mpr (.inr ⟨rfl, ih⟩)

theorem isPrefix_of_between (ha : p <+: a) (hc : p <+: c) (hab : a ≤ b) (hbc : b ≤ c) :
    p <+: b := by
  induction p generalizing a b c with
  | nil => exact List.nil_prefix
  | cons x p ih =>
      obtain ⟨a, rfl⟩ := ha
      obtain ⟨c, rfl⟩ := hc
      cases b with
      | nil => exact absurd hab (not_le_of_gt (List.nil_lt_cons _ _))
      | cons y b =>
          rw [List.cons_append, cons_le_cons_iff] at hab hbc
          have hxy : x = y := by
            rcases hab with h₁ | ⟨h₁, -⟩
            · rcases hbc with h₂ | ⟨h₂, -⟩
              · exact absurd h₁ (lt_asymm h₂)
              · exact h₂.symm
            · exact h₁
          subst hxy
          have hab := (hab.resolve_left (lt_irrefl _)).2
          have hbc := (hbc.resolve_left (lt_irrefl _)).2
          obtain ⟨rest, hrest⟩ := ih (List.prefix_append p a) (List.prefix_append p c) hab hbc
          exact ⟨rest, by rw [List.cons_append, hrest]⟩

/-- The interval of a prefix ends at the successor of its last item. -/
theorem isPrefix_iff_of_covBy (hxy : x ⋖ y) :
    p ++ [x] <+: a ↔ p ++ [x] ≤ a ∧ a < p ++ [y] := by
  constructor
  · intro h
    refine ⟨le_of_isPrefix h, ?_⟩
    obtain ⟨rest, rfl⟩ := h
    induction p with
    | nil => exact List.cons_lt_cons_iff.mpr (.inl hxy.lt)
    | cons z p ih => exact List.cons_lt_cons_iff.mpr (.inr ⟨rfl, ih⟩)
  · rintro ⟨hle, hlt⟩
    induction p generalizing a with
    | nil =>
        cases a with
        | nil => exact absurd hle (not_le_of_gt (List.nil_lt_cons _ _))
        | cons z a =>
            simp only [List.nil_append, cons_le_cons_iff, List.cons_lt_cons_iff] at hle hlt
            have hzy : z < y := by
              rcases hlt with h | ⟨-, h⟩
              · exact h
              · exact absurd h (List.not_lt_nil a)
            have hxz : x ≤ z := by
              rcases hle with h | ⟨h, -⟩
              · exact h.le
              · exact h.le
            obtain rfl : x = z := by
              by_contra hne
              exact hxy.2 (lt_of_le_of_ne hxz hne) hzy
            exact ⟨a, rfl⟩
    | cons w p ih =>
        cases a with
        | nil => exact absurd hle (not_le_of_gt (List.nil_lt_cons _ _))
        | cons z a =>
            simp only [List.cons_append, cons_le_cons_iff, List.cons_lt_cons_iff] at hle hlt
            have hwz : w = z := by
              rcases hle with h₁ | ⟨h₁, -⟩
              · rcases hlt with h₂ | ⟨h₂, -⟩
                · exact absurd h₁ (lt_asymm h₂)
                · exact h₂.symm
              · exact h₁
            subst hwz
            obtain ⟨rest, hrest⟩ := ih (hle.resolve_left (lt_irrefl _)).2
              (hlt.resolve_left (lt_irrefl _)).2
            exact ⟨rest, by rw [List.cons_append, List.cons_append, hrest]⟩

end Library
