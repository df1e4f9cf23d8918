import Pgvs3.Model.Listing
import Pgvs3.Library.LexOrder
import Pgvs3.Library.Sorting
import Mathlib.Data.List.DropRight

/-! # The bound of a prefix

`prefix_end` replaces the last character of the prefix that has a successor. Characters after
it are dropped, and a prefix without such a character has the bound of the empty prefix. -/

namespace Pgvs3

open Library

/-! ## The successor of a character -/

/-- `char::from_u32` refuses the code point that follows the character: it is a surrogate,
or beyond U+10FFFF. -/
def NoSuccessor (c : Char) : Prop := charFromU32 (c.toNat + 1) = none

instance : DecidablePred NoSuccessor := fun _ => inferInstanceAs (Decidable (_ = _))

theorem covBy_of_charFromU32 {c d : Char} (h : charFromU32 (c.toNat + 1) = some d) : c ⋖ d := by
  unfold charFromU32 at h
  split at h
  · rename_i hvalid
    have hd : d.toNat = c.toNat + 1 := by
      rw [← Option.some.inj h, Char.ofNat, dif_pos hvalid]
      rfl
    refine ⟨?_, fun e hce hed => ?_⟩
    · change c.toNat < d.toNat
      omega
    · have hce : c.toNat < e.toNat := hce
      have hed : e.toNat < d.toNat := hed
      omega
  · cases h

/-! ## The bound -/

theorem prefixEnd_snoc (init : Text) (c : Char) : prefixEnd (init ++ [c]) =
    match charFromU32 (c.toNat + 1) with
    | some next => init ++ [next]
    | none => prefixEnd init := by
  rw [prefixEnd, List.reverse_append, List.reverse_singleton, List.singleton_append, incrementLast]
  cases charFromU32 (c.toNat + 1) with
  | none => rfl
  | some next => simp

/-- The prefix without the characters at its end that have no successor. -/
def stem (start : Text) : Text := start.rdropWhile fun c => decide (NoSuccessor c)

/-- The bound of the empty prefix. -/
def lastText : Text := [Char.ofNat 0x10FFFF]

/-- Among the keys from the prefix on, the bound selects those that begin with its stem. -/
theorem lt_prefixEnd_iff {start key : Text} (h : start ≤ key) :
    key < prefixEnd start ↔ stem start <+: key ∧ (stem start = [] → key < lastText) := by
  induction start using List.reverseRecOn with
  | nil => simp [stem, prefixEnd, incrementLast, lastText]
  | append_singleton init c ih =>
      rw [prefixEnd_snoc]
      cases hnext : charFromU32 (c.toNat + 1) with
      | none =>
          have hstem : stem (init ++ [c]) = stem init :=
            List.rdropWhile_concat_pos _ _ _ (decide_eq_true hnext)
          rw [hstem]
          exact ih ((le_of_isPrefix (List.prefix_append init [c])).trans h)
      | some next =>
          have hstem : stem (init ++ [c]) = init ++ [c] :=
            List.rdropWhile_concat_neg _ _ _ (by simp [NoSuccessor, hnext])
          rw [hstem, isPrefix_iff_of_covBy (covBy_of_charFromU32 hnext)]
          simp [h]

theorem stem_isPrefix (start : Text) : stem start <+: start := List.rdropWhile_prefix _ _

/-- The bound hides a key that begins with the prefix. -/
def Hidden (start key : Text) : Prop :=
  stem start = [] ∧ start <+: key ∧ lastText ≤ key

/-- The bound lets a key pass that does not begin with the prefix. -/
def Overrun (start key : Text) : Prop :=
  start < key ∧ ¬ start <+: key ∧ stem start <+: key ∧ (stem start = [] → key < lastText)

theorem within_bounds_iff {start key : Text} :
    (utf8 start ≤ utf8 key ∧ utf8 key < utf8 (prefixEnd start)) ↔
      start ≤ key ∧ stem start <+: key ∧ (stem start = [] → key < lastText) := by
  rw [utf8_le_iff, utf8_lt_iff]
  exact and_congr_right lt_prefixEnd_iff

theorem bounds_exact_iff {start key : Text} :
    ((utf8 start ≤ utf8 key ∧ utf8 key < utf8 (prefixEnd start)) ↔ start <+: key) ↔
      ¬ Hidden start key ∧ ¬ Overrun start key := by
  rw [within_bounds_iff]
  by_cases hkey : start <+: key
  · have hle := le_of_isPrefix hkey
    have hstem := (stem_isPrefix start).trans hkey
    simp [Hidden, Overrun, hkey, hle, hstem]
  · have hlt : start ≤ key ↔ start < key :=
      ⟨fun h => lt_of_le_of_ne h fun heq => hkey (heq ▸ List.prefix_rfl), le_of_lt⟩
    simp [Hidden, Overrun, hkey, hlt]

/-! ## The rows of a listing -/

theorem mem_selectKeys {db : Db} {bucket start stop after : Text} {q : Listed} :
    q ∈ selectKeys db bucket start stop after ↔
      ∃ r ∈ db.objects, r.bucket = bucket ∧ utf8 start ≤ utf8 r.key ∧ utf8 r.key < utf8 stop ∧
        utf8 after < utf8 r.key ∧ r.listed = q := by
  simp [selectKeys, Table.mem_def, and_assoc]

theorem nodup_selected {db : Db} {bucket start stop after : Text} : (((db.objects.rows.filter fun r =>
    r.bucket = bucket ∧ utf8 start ≤ utf8 r.key ∧ utf8 r.key < utf8 stop ∧
      utf8 after < utf8 r.key).map ObjectRow.listed).map fun q => utf8 q.key).Nodup := by
  rw [List.map_map]
  have hkeys := db.objects.nodup.sublist ((List.filter_sublist (l := db.objects.rows)
    (p := fun r => decide (r.bucket = bucket ∧ utf8 start ≤ utf8 r.key ∧ utf8 r.key < utf8 stop ∧
      utf8 after < utf8 r.key))).map ObjectRow.primaryKey)
  rw [List.Nodup, List.pairwise_map] at hkeys ⊢
  refine hkeys.imp_of_mem ?_
  intro r q hr hq hne heq
  have hr := (List.mem_filter.mp hr).2
  have hq := (List.mem_filter.mp hq).2
  simp only [decide_eq_true_eq] at hr hq
  exact hne (Prod.ext (hr.1.trans hq.1.symm) (utf8_injective heq))

theorem selectKeys_increasing {db : Db} {bucket start stop after : Text} : (selectKeys db bucket start stop after).Pairwise
    fun q q' => utf8 q.key < utf8 q'.key :=
  pairwise_lt_sortByKey nodup_selected

theorem mem_list {db : Db} {bucket start stop after : Text} {limit : ℕ} {q : Listed}
    (h : q ∈ list db bucket start stop after limit) : utf8 start ≤ utf8 q.key ∧
      utf8 q.key < utf8 stop := by
  obtain ⟨r, -, -, hstart, hstop, -, rfl⟩ := mem_selectKeys.mp (List.mem_of_mem_take h)
  exact ⟨hstart, hstop⟩

theorem dropBytes_of_isPrefix {start key : Text} (h : start <+: key) :
    ∃ rest, dropBytes (utf8 start).length key = some rest ∧ start ++ rest = key := by
  obtain ⟨rest, rfl⟩ := h
  exact ⟨rest, dropBytes_append start rest, rfl⟩

/-- The bound selects exactly the keys with the prefix, and these are cut behind it, except
where it hides a key or overruns the prefix. -/
theorem prefix_bound_exact_iff (start key : Text) :
    (((utf8 start ≤ utf8 key ∧ utf8 key < utf8 (prefixEnd start)) ↔ start <+: key) ∧
      ∀ db bucket after limit, ∀ r ∈ list db bucket start (prefixEnd start) after limit,
        r.key = key → start <+: r.key ∧
          ∃ rest, dropBytes (utf8 start).length r.key = some rest ∧ start ++ rest = r.key) ↔
      ¬ Hidden start key ∧ ¬ Overrun start key := by
  rw [bounds_exact_iff]
  constructor
  · exact And.left
  · intro h
    refine ⟨h, fun db bucket after limit r hr hkey => ?_⟩
    subst hkey
    have hpre := (bounds_exact_iff.mpr h).mp (mem_list hr)
    exact ⟨hpre, dropBytes_of_isPrefix hpre⟩

/-- U+E000 follows U+D7FF in byte order, and `prefix_end` carries past it. -/
theorem prefix_bound_overruns :
    ¬ ((utf8 ['a', Char.ofNat 0xD7FF] ≤ utf8 ['a', Char.ofNat 0xE000] ∧
      utf8 ['a', Char.ofNat 0xE000] < utf8 (prefixEnd ['a', Char.ofNat 0xD7FF])) ↔
        ['a', Char.ofNat 0xD7FF] <+: ['a', Char.ofNat 0xE000]) := by
  decide

end Pgvs3
