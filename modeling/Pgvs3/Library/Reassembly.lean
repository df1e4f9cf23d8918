import Mathlib.Data.List.Perm.Basic
import Mathlib.Data.List.Nodup
import Mathlib.Tactic

/-! # Reassembly of numbered items

Items arrive in any order and are released in the order of their numbers. What has been
released at any time does not depend on the order of arrival. -/

namespace Library

variable {α κ : Type*} {succ : κ → κ} {no : α → κ}

/-- `items` carry the numbers from `first` up to and without `next`. -/
def Chain (succ : κ → κ) (no : α → κ) : κ → List α → κ → Prop
  | first, [], next => next = first
  | first, a :: items, next => no a = first ∧ Chain succ no (succ first) items next

theorem chain_append {first next : κ} {xs ys : List α} :
    Chain succ no first (xs ++ ys) next ↔
      ∃ mid, Chain succ no first xs mid ∧ Chain succ no mid ys next := by
  induction xs generalizing first with
  | nil => simp [Chain]
  | cons a xs ih => simp [Chain, ih, and_assoc]

theorem Chain.append {first mid next : κ} {xs ys : List α} (h : Chain succ no first xs mid)
    (h' : Chain succ no mid ys next) : Chain succ no first (xs ++ ys) next :=
  chain_append.mpr ⟨mid, h, h'⟩

theorem Chain.next_unique {first next next' : κ} {items : List α}
    (h : Chain succ no first items next) (h' : Chain succ no first items next') :
    next = next' := by
  induction items generalizing first with
  | nil => exact Eq.trans h (Eq.symm h')
  | cons a items ih => exact ih h.2 h'.2

/-- Consecutive items among those of a longer chain are its first ones. -/
theorem Chain.isPrefix {first next stop : κ} {taken full : List α}
    (h : Chain succ no first taken next) (hfull : Chain succ no first full stop)
    (hsub : ∀ a ∈ taken, a ∈ full) (hnodup : (taken.map no).Nodup)
    (hnodup' : (full.map no).Nodup) : taken <+: full := by
  induction taken generalizing first full with
  | nil => exact List.nil_prefix
  | cons a taken ih =>
      cases full with
      | nil => exact absurd (hsub a (by simp)) (by simp)
      | cons b full =>
          rw [List.map_cons, List.nodup_cons] at hnodup hnodup'
          have hab : no a = no b := h.1.trans hfull.1.symm
          obtain rfl : a = b := by
            rcases List.mem_cons.mp (hsub a (by simp)) with heq | hmem
            · exact heq
            · exact (hnodup'.1 (hab ▸ List.mem_map_of_mem hmem)).elim
          refine (List.cons_prefix_cons).mpr ⟨rfl, ?_⟩
          refine ih h.2 hfull.2 ?_ hnodup.2 hnodup'.2
          intro c hc
          rcases List.mem_cons.mp (hsub c (by simp [hc])) with rfl | hmem
          · exact (hnodup.1 (List.mem_map_of_mem hc)).elim
          · exact hmem

/-- Of the items in `got`, those in `taken` are released from number `first` on; the
next one due is `next`, and `early` waits for it. -/
structure Reassembled (succ : κ → κ) (no : α → κ) (first : κ) (got taken early : List α)
    (next : κ) : Prop where
  perm : got.Perm (taken ++ early)
  chain : Chain succ no first taken next
  missing : ∀ a ∈ early, no a ≠ next

namespace Reassembled

variable {first next next' : κ} {got got' taken taken' early early' : List α}

/-- What is released depends on the set of items that arrived, not on their order. -/
theorem unique (h : Reassembled succ no first got taken early next)
    (h' : Reassembled succ no first got' taken' early' next') (hperm : got.Perm got')
    (hnodup : (got.map no).Nodup) : taken = taken' ∧ next = next' := by
  have hboth : (taken ++ early).Perm (taken' ++ early') :=
    h.perm.symm.trans (hperm.trans h'.perm)
  have hnodup : ((taken ++ early).map no).Nodup := (h.perm.map no).nodup_iff.mp hnodup
  obtain ⟨-, hchain, hmissing⟩ := h
  obtain ⟨-, hchain', hmissing'⟩ := h'
  induction taken generalizing first taken' with
  | nil =>
      obtain rfl : next = first := hchain
      cases taken' with
      | nil => exact ⟨rfl, Eq.symm hchain'⟩
      | cons b taken' =>
          have hb : b ∈ early := hboth.mem_iff.mpr (by simp)
          exact (hmissing b hb hchain'.1).elim
  | cons a taken ih =>
      cases taken' with
      | nil =>
          obtain rfl : next' = first := hchain'
          have ha : a ∈ early' := hboth.mem_iff.mp (by simp)
          exact (hmissing' a ha hchain.1).elim
      | cons b taken' =>
          have hb : b ∈ a :: taken ++ early := hboth.mem_iff.mpr (by simp)
          obtain rfl : a = b :=
            List.inj_on_of_nodup_map hnodup (by simp) hb (hchain.1.trans hchain'.1.symm)
          rw [List.cons_append, List.cons_append] at hboth
          rw [List.cons_append, List.map_cons, List.nodup_cons] at hnodup
          obtain ⟨rfl, rfl⟩ := ih hboth.cons_inv hnodup.2 hchain.2 hchain'.2
          exact ⟨rfl, rfl⟩

theorem nil (first : κ) : Reassembled succ no first [] [] [] first :=
  ⟨List.Perm.nil, rfl, by simp⟩

theorem wait (h : Reassembled succ no first got taken early next) {a : α} (ha : no a ≠ next) :
    Reassembled succ no first (got ++ [a]) taken (early ++ [a]) next where
  perm := by
    rw [← List.append_assoc]
    exact h.perm.append_right [a]
  chain := h.chain
  missing := by
    intro b hb
    rcases List.mem_append.mp hb with hb | hb
    · exact h.missing b hb
    · rw [List.mem_singleton.mp hb]
      exact ha

theorem release (h : Reassembled succ no first got taken early next) {a : α} (ha : no a = next)
    (hdrain : Reassembled succ no (succ next) early taken' early' next') :
    Reassembled succ no first (got ++ [a]) (taken ++ a :: taken') early' next' where
  perm := by
    refine (h.perm.append_right [a]).trans ?_
    rw [List.append_assoc, List.append_assoc]
    refine List.Perm.append_left taken ?_
    exact List.perm_append_comm.trans (hdrain.perm.cons a)
  chain := h.chain.append ⟨ha, hdrain.chain⟩
  missing := hdrain.missing

theorem isPrefix {full : List α} {stop : κ} (h : Reassembled succ no first got taken early next)
    (hsub : ∀ a ∈ got, a ∈ full) (hgot : (got.map no).Nodup)
    (hfull : Chain succ no first full stop) (hnodup : (full.map no).Nodup) : taken <+: full := by
  have htaken : (taken.map no).Nodup := by
    have hall := (h.perm.map no).nodup_iff.mp hgot
    rw [List.map_append] at hall
    exact hall.of_append_left
  refine h.chain.isPrefix hfull ?_ htaken hnodup
  intro a ha
  exact hsub a (h.perm.mem_iff.mpr (List.mem_append_left _ ha))

end Reassembled

end Library
