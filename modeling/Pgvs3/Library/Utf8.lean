import Mathlib.Data.Char
import Mathlib.Data.List.Lex
import Mathlib.Order.Lex
import Mathlib.Tactic

/-! # Text as UTF-8 bytes

Comparing the bytes of two texts compares their scalar values. -/

namespace Library

def utf8Char (c : Char) : List ℕ := (String.utf8EncodeChar c).map UInt8.toNat

def utf8 (t : List Char) : List ℕ := t.flatMap utf8Char

@[simp] theorem utf8_nil : utf8 [] = [] := rfl

@[simp] theorem utf8_cons (c : Char) (t : List Char) : utf8 (c :: t) = utf8Char c ++ utf8 t := rfl

theorem utf8Char_eq (c : Char) :
    utf8Char c = if c.toNat ≤ 127 then [c.toNat]
      else if c.toNat ≤ 2047 then [c.toNat / 64 + 192, c.toNat % 64 + 128]
      else if c.toNat ≤ 65535 then
        [c.toNat / 4096 + 224, c.toNat / 64 % 64 + 128, c.toNat % 64 + 128]
      else [c.toNat / 262144 + 240, c.toNat / 4096 % 64 + 128, c.toNat / 64 % 64 + 128,
        c.toNat % 64 + 128] := by
  have hmax : c.toNat < 1114112 := by
    have := c.valid
    unfold UInt32.isValidChar Nat.isValidChar at this
    change c.val.toNat < 1114112
    omega
  have hval : c.val.toNat = c.toNat := rfl
  unfold utf8Char String.utf8EncodeChar
  simp only [hval]
  split
  · simp
    omega
  · split
    · simp
      omega
    · split
      · simp
        omega
      · simp
        omega

theorem utf8Char_ne_nil (c : Char) : utf8Char c ≠ [] := by
  rw [utf8Char_eq]
  split_ifs <;> simp

/-- A smaller scalar value has smaller bytes, whatever follows. -/
theorem utf8Char_append_lt {c d : Char} (h : c < d) (s t : List ℕ) :
    utf8Char c ++ s < utf8Char d ++ t := by
  have hlt : c.toNat < d.toNat := h
  rw [utf8Char_eq, utf8Char_eq]
  split_ifs <;>
    simp only [List.cons_append, List.nil_append, List.cons_lt_cons_iff] <;> omega

theorem append_lt_append_left {s t : List ℕ} (h : s < t) (p : List ℕ) : p ++ s < p ++ t := by
  induction p with
  | nil => exact h
  | cons x p ih => exact List.cons_lt_cons_iff.mpr (.inr ⟨rfl, ih⟩)

theorem utf8_strictMono : StrictMono utf8 := by
  intro s t h
  induction s generalizing t with
  | nil =>
      cases t with
      | nil => exact absurd h (lt_irrefl _)
      | cons d t =>
          obtain ⟨x, rest, hd⟩ := List.exists_cons_of_ne_nil (utf8Char_ne_nil d)
          rw [utf8_nil, utf8_cons, hd]
          exact List.nil_lt_cons _ _
  | cons c s ih =>
      cases t with
      | nil => simp at h
      | cons d t =>
          rcases List.cons_lt_cons_iff.mp h with hlt | ⟨rfl, hlt⟩
          · exact utf8Char_append_lt hlt _ _
          · exact append_lt_append_left (ih hlt) _

theorem utf8_lt_iff {s t : List Char} : utf8 s < utf8 t ↔ s < t := utf8_strictMono.lt_iff_lt

theorem utf8_le_iff {s t : List Char} : utf8 s ≤ utf8 t ↔ s ≤ t := utf8_strictMono.le_iff_le

theorem utf8_injective : Function.Injective utf8 := utf8_strictMono.injective

/-! ## Cutting at a byte offset -/

/-- The text after the first `n` bytes, if that is a character boundary of it. -/
def dropBytes : ℕ → List Char → Option (List Char)
  | n, [] => if n = 0 then some [] else none
  | n, c :: t =>
      if n = 0 then some (c :: t)
      else if (utf8Char c).length ≤ n then dropBytes (n - (utf8Char c).length) t
      else none

theorem dropBytes_append (s t : List Char) : dropBytes (utf8 s).length (s ++ t) = some t := by
  induction s with
  | nil => cases t <;> simp [dropBytes]
  | cons c s ih =>
      have hpos := List.length_pos_of_ne_nil (utf8Char_ne_nil c)
      rw [utf8_cons, List.length_append, List.cons_append, dropBytes, if_neg (by omega),
        if_pos (by omega), Nat.add_sub_cancel_left, ih]

end Library
