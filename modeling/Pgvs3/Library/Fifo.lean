import Pgvs3.Library.Transition
import Mathlib.Data.Set.Card
import Mathlib.Tactic

/-! # First in, first out

A bounded map in which every key has stayed since some moment. A new key beyond the capacity
drives out the key whose stay began first; an overwrite does not renew a stay. -/

namespace Library

variable {κ ν : Type*}

inductive MapOp (κ ν : Type*) where
  | put (key : κ) (value : ν)
  | drop (key : κ)

/-- The value of every resident key and the moment at which its stay began. -/
structure Residents (κ ν : Type*) where
  entry : κ → Option (ν × ℕ)
  now : ℕ

namespace Residents

def empty : Residents κ ν := ⟨fun _ => none, 0⟩

def keys (r : Residents κ ν) : Set κ := {k | r.entry k ≠ none}

def Eldest (r : Residents κ ν) (k : κ) : Prop :=
  ∃ v t, r.entry k = some (v, t) ∧ ∀ j w u, r.entry j = some (w, u) → t ≤ u

variable [DecidableEq κ]

def set (r : Residents κ ν) (k : κ) (e : Option (ν × ℕ)) : Residents κ ν :=
  ⟨Function.update r.entry k e, r.now + 1⟩

/-- Who is resident after an operation, for a capacity `cap`. -/
inductive Step (cap : ℕ) (r : Residents κ ν) : MapOp κ ν → Residents κ ν → Prop where
  | overwrite {k : κ} {v w : ν} {t : ℕ} (h : r.entry k = some (w, t)) :
      Step cap r (.put k v) (r.set k (some (v, t)))
  | enter {k : κ} {v : ν} (h : r.entry k = none)
      (hroom : (r.set k (some (v, r.now))).keys.ncard ≤ cap) :
      Step cap r (.put k v) (r.set k (some (v, r.now)))
  | evict {k old : κ} {v : ν} (h : r.entry k = none)
      (hfull : cap < (r.set k (some (v, r.now))).keys.ncard)
      (hold : (r.set k (some (v, r.now))).Eldest old) :
      Step cap r (.put k v) ((r.set k (some (v, r.now))).set old none)
  | drop {k : κ} : Step cap r (.drop k) (r.set k none)

@[simp] theorem entry_set_self (r : Residents κ ν) (k : κ) (e : Option (ν × ℕ)) :
    (r.set k e).entry k = e := Function.update_self ..

theorem entry_set_of_ne (r : Residents κ ν) {j k : κ} (h : j ≠ k) (e : Option (ν × ℕ)) :
    (r.set k e).entry j = r.entry j := Function.update_of_ne h ..

@[simp] theorem now_set (r : Residents κ ν) (k : κ) (e : Option (ν × ℕ)) :
    (r.set k e).now = r.now + 1 := rfl

end Residents

/-! ## The queue -/

/-- The resident keys in the order in which their stays began. -/
structure Queued (order : List κ) (r : Residents κ ν) : Prop where
  nodup : order.Nodup
  mem_iff : ∀ k, k ∈ order ↔ r.entry k ≠ none
  sorted : order.Pairwise fun j k => ∀ v t w u,
    r.entry j = some (v, t) → r.entry k = some (w, u) → t < u
  past : ∀ k v t, r.entry k = some (v, t) → t < r.now

namespace Queued

variable {order : List κ} {r : Residents κ ν}

theorem empty : Queued [] (Residents.empty : Residents κ ν) where
  nodup := List.nodup_nil
  mem_iff := by simp [Residents.empty]
  sorted := List.Pairwise.nil
  past := by simp [Residents.empty]

theorem ncard (h : Queued order r) : r.keys.ncard = order.length := by
  classical
  have hkeys : r.keys = (order.toFinset : Set κ) := by
    ext k
    simp [Residents.keys, h.mem_iff]
  rw [hkeys, Set.ncard_coe_finset, List.toFinset_card_of_nodup h.nodup]

theorem eldest_iff {old : κ} {rest : List κ} (h : Queued (old :: rest) r) {k : κ} :
    r.Eldest k ↔ k = old := by
  obtain ⟨⟨w, u⟩, hold⟩ := Option.ne_none_iff_exists'.mp ((h.mem_iff old).mp (List.mem_cons_self ..))
  have hsorted := List.pairwise_cons.mp h.sorted
  constructor
  · rintro ⟨v, t, hk, hle⟩
    have hmem : k ∈ old :: rest := (h.mem_iff k).mpr (by simp [hk])
    rcases List.mem_cons.mp hmem with rfl | hrest
    · rfl
    · have := hsorted.1 k hrest w u v t hold hk
      have := hle old w u hold
      omega
  · rintro rfl
    refine ⟨w, u, hold, fun j v t hj => ?_⟩
    have hmem : j ∈ k :: rest := (h.mem_iff j).mpr (by simp [hj])
    rcases List.mem_cons.mp hmem with rfl | hrest
    · rw [hold, Option.some.injEq, Prod.mk.injEq] at hj
      exact hj.2.le
    · exact (hsorted.1 j hrest w u v t hold hj).le

variable [DecidableEq κ]

theorem overwrite (h : Queued order r) {k : κ} {v w : ν} {t : ℕ} (hk : r.entry k = some (w, t)) :
    Queued order (r.set k (some (v, t))) := by
  have hentry : ∀ j x u, (r.set k (some (v, t))).entry j = some (x, u) →
      ∃ y, r.entry j = some (y, u) := by
    intro j x u hj
    by_cases hjk : j = k
    · subst hjk
      rw [Residents.entry_set_self, Option.some.injEq, Prod.mk.injEq] at hj
      exact ⟨w, hj.2 ▸ hk⟩
    · rw [Residents.entry_set_of_ne r hjk] at hj
      exact ⟨x, hj⟩
  refine ⟨h.nodup, fun j => ?_, ?_, ?_⟩
  · by_cases hjk : j = k
    · subst hjk
      simp [h.mem_iff, hk]
    · rw [h.mem_iff, Residents.entry_set_of_ne r hjk]
  · refine h.sorted.imp fun {i j} hij x a y b hi hj => ?_
    obtain ⟨x', hi⟩ := hentry i x a hi
    obtain ⟨y', hj⟩ := hentry j y b hj
    exact hij x' a y' b hi hj
  · intro j x u hj
    obtain ⟨y, hj⟩ := hentry j x u hj
    exact (h.past j y u hj).trans (Nat.lt_succ_self _)

theorem enter (h : Queued order r) {k : κ} (v : ν) (hk : r.entry k = none) :
    Queued (order ++ [k]) (r.set k (some (v, r.now))) := by
  have hfresh : k ∉ order := fun hmem => (h.mem_iff k).mp hmem hk
  have hold : ∀ j ∈ order, (r.set k (some (v, r.now))).entry j = r.entry j := fun j hj =>
    Residents.entry_set_of_ne r (ne_of_mem_of_not_mem hj hfresh) _
  refine ⟨?_, fun j => ?_, ?_, ?_⟩
  · refine List.nodup_append.mpr ⟨h.nodup, List.nodup_singleton _, fun a ha b hb heq => ?_⟩
    rw [heq, List.mem_singleton.mp hb] at ha
    exact hfresh ha
  · by_cases hjk : j = k
    · simp [hjk]
    · rw [Residents.entry_set_of_ne r hjk, ← h.mem_iff]
      simp [hjk]
  · refine List.pairwise_append.mpr ⟨?_, List.pairwise_singleton _ _, ?_⟩
    · refine h.sorted.imp_of_mem fun {i j} hi hj hij => ?_
      rw [hold i hi, hold j hj]
      exact hij
    · intro i hi j hj x a y b hx hy
      obtain rfl := List.mem_singleton.mp hj
      rw [hold i hi] at hx
      rw [Residents.entry_set_self, Option.some.injEq, Prod.mk.injEq] at hy
      exact hy.2 ▸ h.past i x a hx
  · intro j x u hj
    by_cases hjk : j = k
    · subst hjk
      rw [Residents.entry_set_self, Option.some.injEq, Prod.mk.injEq] at hj
      exact hj.2 ▸ Nat.lt_succ_self _
    · rw [Residents.entry_set_of_ne r hjk] at hj
      exact (h.past j x u hj).trans (Nat.lt_succ_self _)

theorem drop (h : Queued order r) (k : κ) :
    Queued (order.filter fun j => j ≠ k) (r.set k none) := by
  have hentry : ∀ j x u, (r.set k none).entry j = some (x, u) → r.entry j = some (x, u) := by
    intro j x u hj
    by_cases hjk : j = k
    · subst hjk
      simp at hj
    · rwa [Residents.entry_set_of_ne r hjk] at hj
  refine ⟨h.nodup.filter _, fun j => ?_, ?_, ?_⟩
  · by_cases hjk : j = k
    · simp [hjk]
    · rw [Residents.entry_set_of_ne r hjk, ← h.mem_iff]
      simp [hjk]
  · exact (h.sorted.filter _).imp fun {i j} hij x a y b hx hy =>
      hij x a y b (hentry i x a hx) (hentry j y b hy)
  · intro j x u hj
    exact (h.past j x u (hentry j x u hj)).trans (Nat.lt_succ_self _)

theorem evict {old : κ} {rest : List κ} (h : Queued (old :: rest) r) :
    Queued rest (r.set old none) := by
  have hfresh := (List.nodup_cons.mp h.nodup).1
  have hrest : (old :: rest).filter (fun j => j ≠ old) = rest := by
    rw [List.filter_cons_of_neg (by simp), List.filter_eq_self]
    intro j hj
    simpa using fun heq : j = old => hfresh (heq ▸ hj)
  exact hrest ▸ h.drop old

theorem exists_step (h : Queued order r) (cap : ℕ) (op : MapOp κ ν) :
    ∃ r', Residents.Step cap r op r' := by
  cases op with
  | drop k => exact ⟨_, .drop⟩
  | put k v =>
      cases hk : r.entry k with
      | some e => exact ⟨_, .overwrite (w := e.1) (t := e.2) hk⟩
      | none =>
          by_cases hroom : (r.set k (some (v, r.now))).keys.ncard ≤ cap
          · exact ⟨_, .enter hk hroom⟩
          · have hentered := h.enter v hk
            cases horder : order ++ [k] with
            | nil => simp at horder
            | cons old rest =>
                exact ⟨_, .evict hk (not_le.mp hroom) ((horder ▸ hentered).eldest_iff.mpr rfl)⟩

/-- A key that was just put is resident, unless there is no room for even one. -/
theorem put_resident (h : Queued order r) {cap : ℕ} (hcap : 1 ≤ cap) {k : κ} {v : ν}
    {r' : Residents κ ν} (hstep : Residents.Step cap r (.put k v) r') :
    (r'.entry k).map Prod.fst = some v := by
  cases hstep with
  | overwrite => simp
  | enter => simp
  | @evict _ old _ hk hfull hold =>
      have hentered := h.enter v hk
      cases order with
      | nil =>
          rw [hentered.ncard] at hfull
          simp at hfull
          omega
      | cons head rest =>
          have hhead := hentered.eldest_iff.mp hold
          subst hhead
          have hne : k ≠ old := fun heq => (h.mem_iff old).mp (List.mem_cons_self ..) (heq ▸ hk)
          rw [Residents.entry_set_of_ne _ hne]
          simp

end Queued

end Library
