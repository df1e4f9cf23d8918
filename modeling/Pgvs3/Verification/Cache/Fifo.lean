import Pgvs3.Model.Cache
import Pgvs3.Library.Fifo

/-! # The metadata cache

The map and the queue of `MetaCache` are a bounded map that forgets first in, first out. -/

namespace Pgvs3

open Library

variable {cap : ℕ} {c : MetaCache} {r : Residents (Text × Text) Meta}

def MetaCache.step (cap : ℕ) (c : MetaCache) : MapOp (Text × Text) Meta → MetaCache
  | .put (bucket, key) m => c.put cap bucket key m
  | .drop (bucket, key) => c.invalidate bucket key

def MetaCache.after (cap : ℕ) (ops : List (MapOp (Text × Text) Meta)) : MetaCache :=
  ops.foldl (MetaCache.step cap) MetaCache.empty

/-- The queue orders the residents, and the map holds their values. -/
structure MetaCache.Mirrors (c : MetaCache) (r : Residents (Text × Text) Meta) : Prop where
  queued : Queued c.order r
  value : ∀ k, (c.map.find? k).map Prod.snd = (r.entry k).map Prod.fst

namespace MetaCache.Mirrors

theorem empty : MetaCache.empty.Mirrors Residents.empty where
  queued := Queued.empty
  value := fun _ => rfl

theorem find?_eq_none_iff (h : c.Mirrors r) {k : Text × Text} :
    c.map.find? k = none ↔ r.entry k = none := by
  rw [← Option.map_eq_none_iff (f := Prod.snd), h.value, Option.map_eq_none_iff]

theorem mem_order_iff (h : c.Mirrors r) {k : Text × Text} :
    k ∈ c.order ↔ c.map.find? k ≠ none := by
  rw [h.queued.mem_iff]
  exact not_congr h.find?_eq_none_iff.symm

theorem length_map (h : c.Mirrors r) : c.map.rows.length = c.order.length := by
  have hperm : (c.map.rows.map Prod.fst).Perm c.order := by
    refine (List.perm_ext_iff_of_nodup c.map.nodup h.queued.nodup).mpr fun k => ?_
    rw [h.mem_order_iff, ne_eq, Table.find?_eq_none_iff, not_forall]
    simp [Table.mem_def]
  simpa using hperm.length_eq

/-! ## One operation -/

theorem value_upsert (h : c.Mirrors r) (k : Text × Text) (m : Meta) (t : ℕ) (j : Text × Text) :
    ((c.map.upsert (k, m)).find? j).map Prod.snd =
      ((r.set k (some (m, t))).entry j).map Prod.fst := by
  by_cases hj : j = k
  · subst hj
    have hself : (c.map.upsert (j, m)).find? j = some (j, m) := Table.find?_upsert_self
    simp [hself]
  · rw [Residents.entry_set_of_ne r hj, ← h.value j, Table.find?_upsert_of_ne (Ne.symm hj)]

theorem value_remove (h : c.Mirrors r) (k j : Text × Text) :
    ((c.map.deleteWhere fun e => e.1 = k).find? j).map Prod.snd =
      ((r.set k none).entry j).map Prod.fst := by
  by_cases hj : j = k
  · subst hj
    have hnone : (c.map.deleteWhere fun e => e.1 = j).find? j = none := by
      rw [Table.find?_eq_none_iff]
      intro e he
      simpa using (Table.mem_deleteWhere.mp he).2
    simp [hnone]
  · rw [Residents.entry_set_of_ne r hj, ← h.value j, Table.find?_deleteWhere]
    rintro e rfl
    simpa using hj

theorem step (h : c.Mirrors r) (hlen : c.order.length ≤ cap) {op : MapOp (Text × Text) Meta}
    {r' : Residents (Text × Text) Meta} (hstep : Residents.Step cap r op r') :
    (c.step cap op).Mirrors r' ∧ (c.step cap op).order.length ≤ cap := by
  cases hstep with
  | @overwrite k v w t hk =>
      have hthere : c.map.find? k ≠ none := fun hnone => by
        simp [h.find?_eq_none_iff.mp hnone] at hk
      have hput : c.step cap (.put k v) = ⟨c.map.upsert (k, v), c.order⟩ := by
        simp [MetaCache.step, put, hthere]
      rw [hput]
      exact ⟨⟨h.queued.overwrite hk, h.value_upsert k v t⟩, hlen⟩
  | @enter k v hk hroom =>
      have hentered : (⟨c.map.upsert (k, v), c.order ++ [k]⟩ : MetaCache).Mirrors
          (r.set k (some (v, r.now))) := ⟨h.queued.enter v hk, h.value_upsert k v r.now⟩
      have hroom' : (c.map.upsert (k, v)).rows.length ≤ cap := by
        rwa [hentered.queued.ncard, ← hentered.length_map] at hroom
      have hput : c.step cap (.put k v) = ⟨c.map.upsert (k, v), c.order ++ [k]⟩ := by
        simp [MetaCache.step, put, h.find?_eq_none_iff.mpr hk, hroom']
      rw [hput]
      exact ⟨hentered, hentered.length_map ▸ hroom'⟩
  | @evict k old v hk hfull hold =>
      have hentered : (⟨c.map.upsert (k, v), c.order ++ [k]⟩ : MetaCache).Mirrors
          (r.set k (some (v, r.now))) := ⟨h.queued.enter v hk, h.value_upsert k v r.now⟩
      have hfull' : cap < (c.map.upsert (k, v)).rows.length := by
        rwa [hentered.queued.ncard, ← hentered.length_map] at hfull
      cases horder : c.order ++ [k] with
      | nil => simp at horder
      | cons head rest =>
          rw [horder] at hentered
          obtain rfl := hentered.queued.eldest_iff.mp hold
          have hput : c.step cap (.put k v) =
              ⟨(c.map.upsert (k, v)).deleteWhere fun e => e.1 = old, rest⟩ := by
            simp [MetaCache.step, put, h.find?_eq_none_iff.mpr hk, hfull', horder]
          rw [hput]
          refine ⟨⟨hentered.queued.evict, hentered.value_remove old⟩, ?_⟩
          have hrest : rest.length = c.order.length := by
            have := congrArg List.length horder
            simpa using this.symm
          exact hrest ▸ hlen
  | @drop k =>
      by_cases hthere : c.map.find? k = none
      · have hsame : c.order.filter (fun j => j ≠ k) = c.order := by
          rw [List.filter_eq_self]
          intro j hj
          have hne : j ≠ k := fun heq => h.mem_order_iff.mp (heq ▸ hj) hthere
          simpa using hne
        have hdrop : c.step cap (.drop k) = c := by simp [MetaCache.step, invalidate, hthere]
        rw [hdrop]
        refine ⟨⟨hsame ▸ h.queued.drop k, fun j => ?_⟩, hlen⟩
        by_cases hj : j = k
        · simp [hj, hthere]
        · rw [Residents.entry_set_of_ne r hj, h.value j]
      · have hdrop : c.step cap (.drop k) =
            ⟨c.map.deleteWhere fun e => e.1 = k, c.order.filter fun j => j ≠ k⟩ := by
          simp [MetaCache.step, invalidate, hthere]
        rw [hdrop]
        exact ⟨⟨h.queued.drop k, h.value_remove k⟩, (List.length_filter_le _ _).trans hlen⟩

end MetaCache.Mirrors

/-! ## Every sequence of operations -/

/-- Whatever first in, first out makes of the operations, the cache holds just that. -/
theorem MetaCache.Mirrors.run {ops : List (MapOp (Text × Text) Meta)}
    {r' : Residents (Text × Text) Meta} (h : c.Mirrors r) (hlen : c.order.length ≤ cap)
    (htrace : Trace (Residents.Step cap) r ops r') :
    (ops.foldl (MetaCache.step cap) c).Mirrors r' ∧
      (ops.foldl (MetaCache.step cap) c).order.length ≤ cap := by
  induction htrace generalizing c with
  | nil => exact ⟨h, hlen⟩
  | cons hstep _ ih =>
      obtain ⟨h', hlen'⟩ := h.step hlen hstep
      exact ih h' hlen'

theorem MetaCache.Mirrors.exists_trace (h : c.Mirrors r) (hlen : c.order.length ≤ cap)
    (ops : List (MapOp (Text × Text) Meta)) : ∃ r', Trace (Residents.Step cap) r ops r' := by
  induction ops generalizing c r with
  | nil => exact ⟨r, .nil r⟩
  | cons op ops ih =>
      obtain ⟨r₁, hstep⟩ := h.queued.exists_step cap op
      obtain ⟨h', hlen'⟩ := h.step hlen hstep
      obtain ⟨r₂, hrest⟩ := ih h' hlen'
      exact ⟨r₂, .cons hstep hrest⟩

/-- After any puts and invalidations the queue has every key of the map once, the map is
within its capacity and has what first in, first out leaves, and a key just put is there. -/
theorem cache_is_bounded_fifo (hcap : 1 ≤ cap) (ops : List (MapOp (Text × Text) Meta)) :
    (MetaCache.after cap ops).order.Nodup ∧
    (∀ k, k ∈ (MetaCache.after cap ops).order ↔ (MetaCache.after cap ops).map.find? k ≠ none) ∧
    (MetaCache.after cap ops).map.rows.length ≤ cap ∧
    (∀ bucket key m,
      ((MetaCache.after cap ops).put cap bucket key m).get bucket key = some m) ∧
    (∃ r, Trace (Residents.Step cap) Residents.empty ops r) ∧
    ∀ r, Trace (Residents.Step cap) Residents.empty ops r → ∀ bucket key,
      (MetaCache.after cap ops).get bucket key = (r.entry (bucket, key)).map Prod.fst := by
  obtain ⟨r, htrace⟩ := MetaCache.Mirrors.empty.exists_trace (Nat.zero_le cap) ops
  obtain ⟨h, hlen⟩ := MetaCache.Mirrors.empty.run (Nat.zero_le cap) htrace
  refine ⟨h.queued.nodup, fun k => h.mem_order_iff, h.length_map ▸ hlen, ?_, ⟨r, htrace⟩, ?_⟩
  · intro bucket key m
    obtain ⟨r', hstep⟩ := h.queued.exists_step cap (.put (bucket, key) m)
    exact ((h.step hlen hstep).1.value (bucket, key)).trans (h.queued.put_resident hcap hstep)
  · intro r' htrace' bucket key
    exact (MetaCache.Mirrors.empty.run (Nat.zero_le cap) htrace').1.value (bucket, key)

/-- Room for two: the overwritten first key is the one that leaves. -/
theorem cache_is_bounded_fifo_two :
    (MetaCache.after 2 [.put (['b'], ['x']) ⟨1, [], 0, 1, none, none⟩,
      .put (['b'], ['y']) ⟨2, [], 0, 2, none, none⟩, .put (['b'], ['x']) ⟨3, [], 0, 3, none, none⟩,
      .put (['b'], ['z']) ⟨4, [], 0, 4, none, none⟩]).map.rows.length ≤ 2 ∧
    (MetaCache.after 2 [.put (['b'], ['x']) ⟨1, [], 0, 1, none, none⟩,
      .put (['b'], ['y']) ⟨2, [], 0, 2, none, none⟩, .put (['b'], ['x']) ⟨3, [], 0, 3, none, none⟩,
      .put (['b'], ['z']) ⟨4, [], 0, 4, none, none⟩]).order = [(['b'], ['y']), (['b'], ['z'])] :=
  ⟨(cache_is_bounded_fifo (by decide) _).2.2.1, by decide⟩

end Pgvs3
