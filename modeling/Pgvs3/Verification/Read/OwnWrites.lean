import Pgvs3.Model.Gateway

/-! # A process's own writes in its cache

A cache step puts what an earlier database step saw. It shadows a write of the process when
that write committed later and has made its cache step already. -/

namespace Pgvs3

open Library

/-! ## The entry of a key -/

namespace MetaCache

variable {cap : ℕ} {c : MetaCache} {bucket key bucket' key' : Text} {m m' : Meta}

theorem get_eq_some_iff : c.get bucket key = some m ↔ ((bucket, key), m) ∈ c.map := by
  unfold get
  constructor
  · intro h
    obtain ⟨e, he, rfl⟩ := Option.map_eq_some_iff.mp h
    obtain ⟨hmem, hk⟩ := Table.find?_eq_some_iff.mp he
    rwa [← hk]
  · intro h
    rw [Table.find?_eq_some_iff.mpr ⟨h, rfl⟩]
    rfl

theorem mem_map_put {e : (Text × Text) × Meta} (h : e ∈ (c.put cap bucket key m).map) :
    e ∈ c.map.upsert ((bucket, key), m) := by
  unfold put at h
  dsimp only at h
  split at h
  · split at h
    · split at h
      · exact (Table.mem_deleteWhere.mp h).1
      · exact h
    · exact h
  · exact h

/-- The entry of a key that was put is what was put, unless it was evicted. -/
theorem eq_of_get_put (h : (c.put cap bucket key m).get bucket key = some m') : m' = m := by
  rcases Table.mem_upsert.mp (mem_map_put (get_eq_some_iff.mp h)) with ⟨-, hne⟩ | heq
  · exact absurd rfl hne
  · exact (Prod.ext_iff.mp heq).2

theorem get_of_get_put (hne : (bucket', key') ≠ (bucket, key))
    (h : (c.put cap bucket' key' m).get bucket key = some m') : c.get bucket key = some m' := by
  rcases Table.mem_upsert.mp (mem_map_put (get_eq_some_iff.mp h)) with ⟨hmem, -⟩ | heq
  · exact get_eq_some_iff.mpr hmem
  · exact absurd (Prod.ext_iff.mp heq).1.symm hne

theorem get_of_get_invalidate
    (h : (c.invalidate bucket' key').get bucket key = some m') : c.get bucket key = some m' := by
  unfold invalidate at h
  dsimp only at h
  split at h
  · exact h
  · exact get_eq_some_iff.mpr (Table.mem_deleteWhere.mp (get_eq_some_iff.mp h)).1

end MetaCache

/-! ## Cache steps -/

def CacheUpdate.put? : CacheUpdate → Option Meta
  | .publish _ m => some m
  | .forget _ => none
  | .refresh _ found => found

variable {bucket key : Text} {s s' : Gateway} {e : GatewayEvent}

theorem CacheUpdate.put?_of_get {u : CacheUpdate} {c : MetaCache} {m : Meta}
    (h : (u.run bucket key c).get bucket key = some m) : u.put? = some m := by
  cases u with
  | publish version p => exact congrArg some (MetaCache.eq_of_get_put h).symm
  | forget version => simp [run] at h
  | refresh version found =>
      cases found with
      | none => simp [run, metaFresh] at h
      | some p => exact congrArg some (MetaCache.eq_of_get_put h).symm

/-- The write has not been replaced by another process. -/
def Gateway.Standing (s : Gateway) (version : ℕ) : Prop := ∀ f ∈ s.foreign, f < version

instance (s : Gateway) (version : ℕ) : Decidable (s.Standing version) :=
  inferInstanceAs (Decidable (∀ f ∈ s.foreign, f < version))

/-- The cache entry is not of a version before `version`. -/
def Gateway.Unshadowed (bucket key : Text) (s : Gateway) (version : ℕ) : Prop :=
  ∀ m, s.cache.get bucket key = some m → ∀ i < version, ∀ r, s.history[i]? = some (some r) →
    r.fileId ≠ m.fileId

/-- No acknowledged write is shadowed before another process replaces it. -/
def Gateway.Coherent (bucket key : Text) (s : Gateway) : Prop :=
  ∀ version ∈ s.acked, s.Standing version → s.Unshadowed bucket key version

/-- A cache step does not put an older version than that of a standing write that has made
its own cache step. -/
def InOrder (s : Gateway) : GatewayEvent → Prop
  | .update i => ∀ u ∈ s.pending[i]?.toList, u.put?.isSome → ∀ version ∈ s.settled ++ s.acked,
      s.Standing version → version ≤ u.version
  | _ => True

instance (s : Gateway) : DecidablePred (InOrder s)
  | .update i => inferInstanceAs (Decidable (∀ u ∈ s.pending[i]?.toList, u.put?.isSome →
      ∀ version ∈ s.settled ++ s.acked, s.Standing version → version ≤ u.version))
  | .write _ _ | .delete | .foreign _ | .lookup | .abandon _ | .acknowledge _ | .invalidate
  | .elsewhere _ _ _ => isTrue trivial

/-! ## The invariant -/

structure Gateway.Sound (bucket key : Text) (s : Gateway) : Prop where
  distinct : ∀ (i j : ℕ) (r q : Meta), s.history[i]? = some (some r) → s.history[j]? = some (some q) →
    r.fileId = q.fileId → i = j
  puts : ∀ u ∈ s.pending, ∀ m, u.put? = some m →
    ∃ r, s.history[u.version]? = some (some r) ∧ r.fileId = m.fileId
  known : ∀ version ∈ s.pending.flatMap CacheUpdate.settles ++ (s.settled ++ s.acked),
    version < s.history.length
  unshadowed : ∀ version ∈ s.settled ++ s.acked, s.Standing version →
    s.Unshadowed bucket key version

theorem gateway_sound_start : Gateway.start.Sound bucket key where
  distinct := by simp [Gateway.start]
  puts := by simp [Gateway.start]
  known := by simp [Gateway.start]
  unshadowed := by simp [Gateway.start]

theorem getElem?_concat {α : Type*} {l : List α} {a b : α} {i : ℕ} (h : (l ++ [a])[i]? = some b) :
    l[i]? = some b ∨ i = l.length ∧ a = b := by
  rw [List.getElem?_append] at h
  split at h
  · exact .inl h
  · rename_i hlen
    rw [List.getElem?_singleton] at h
    split at h
    · cases h
      exact .inr ⟨by omega, rfl⟩
    · cases h

/-- A new version leaves the entry as young as it was. -/
theorem Gateway.Sound.extend (h : s.Sound bucket key) {v : Option Meta} {foreign : List ℕ}
    {pending : List CacheUpdate} (hfresh : ∀ m, v = some m → s.fresh m = true)
    (hforeign : ∀ f ∈ s.foreign, f ∈ foreign)
    (hputs : ∀ u ∈ pending, u ∈ s.pending ∨ u.version = s.history.length ∧
      ∀ m, u.put? = some m → ∃ r, v = some r ∧ r.fileId = m.fileId)
    (hsettles : ∀ u ∈ pending, ∀ version ∈ u.settles, u ∈ s.pending ∨
      version = s.history.length) :
    ({ s with history := s.history ++ [v], foreign := foreign, pending := pending } :
      Gateway).Sound bucket key where
  distinct := by
    have hnew : ∀ (i : ℕ) (r m : Meta), s.history[i]? = some (some r) → v = some m → r.fileId ≠ m.fileId := by
      intro i r m hi hv
      have hall := hfresh m hv
      rw [Gateway.fresh, List.all_eq_true] at hall
      simpa using hall _ (List.mem_of_getElem? hi)
    intro i j r q hi hj hf
    rcases getElem?_concat hi with hi | ⟨hi, hv⟩
    · rcases getElem?_concat hj with hj | ⟨-, hv⟩
      · exact h.distinct i j r q hi hj hf
      · exact absurd hf (hnew i r q hi hv)
    · rcases getElem?_concat hj with hj | ⟨hj, -⟩
      · exact absurd hf.symm (hnew j q r hj hv)
      · rw [hi, hj]
  puts := by
    intro u hu m hm
    rcases hputs u hu with hold | ⟨hversion, hnew⟩
    · obtain ⟨r, hr, hf⟩ := h.puts u hold m hm
      refine ⟨r, ?_, hf⟩
      rw [List.getElem?_append_left (List.getElem?_eq_some_iff.mp hr).1, hr]
    · obtain ⟨r, hr, hf⟩ := hnew m hm
      exact ⟨r, by simp [hversion, hr], hf⟩
  known := by
    intro version hversion
    rw [List.length_append, List.length_singleton]
    rcases List.mem_append.mp hversion with hversion | hversion
    · obtain ⟨u, hu, hmem⟩ := List.mem_flatMap.mp hversion
      rcases hsettles u hu version hmem with hold | rfl
      · have := h.known version
          (List.mem_append_left _ (List.mem_flatMap.mpr ⟨u, hold, hmem⟩))
        omega
      · omega
    · have := h.known version (List.mem_append_right _ hversion)
      omega
  unshadowed := by
    intro version hversion hstanding m hm i hi r hr
    have hlen := h.known version (List.mem_append_right _ hversion)
    rw [List.getElem?_append_left (hi.trans hlen)] at hr
    exact h.unshadowed version hversion (fun f hf => hstanding f (hforeign f hf)) m hm i hi r hr

theorem Gateway.Sound.shrink (h : s.Sound bucket key) (hhistory : s'.history = s.history)
    (hforeign : s'.foreign = s.foreign) (hpending : s'.pending.Sublist s.pending)
    (hdone : ∀ version ∈ s'.settled ++ s'.acked, version ∈ s.settled ++ s.acked)
    (hcache : ∀ m, s'.cache.get bucket key = some m → s.cache.get bucket key = some m) :
    s'.Sound bucket key where
  distinct := by
    rw [hhistory]
    exact h.distinct
  puts := by
    rw [hhistory]
    exact fun u hu => h.puts u (hpending.subset hu)
  known := by
    intro version hversion
    rw [hhistory]
    apply h.known
    rcases List.mem_append.mp hversion with hversion | hversion
    · obtain ⟨u, hu, hmem⟩ := List.mem_flatMap.mp hversion
      exact List.mem_append_left _ (List.mem_flatMap.mpr ⟨u, hpending.subset hu, hmem⟩)
    · exact List.mem_append_right _ (hdone version hversion)
  unshadowed := by
    intro version hversion hstanding m hm i hi r hr
    rw [hhistory] at hr
    unfold Gateway.Standing at hstanding
    rw [hforeign] at hstanding
    exact h.unshadowed version (hdone version hversion) hstanding m (hcache m hm) i hi r hr

/-- A cache step in order shadows no write. -/
theorem Gateway.Sound.update (h : s.Sound bucket key) {i : ℕ} (horder : InOrder s (.update i))
    {u : CacheUpdate} (hu : s.pending[i]? = some u) :
    ({ s with
        cache := u.run bucket key s.cache
        pending := s.pending.eraseIdx i
        settled := s.settled ++ u.settles } : Gateway).Sound bucket key where
  distinct := h.distinct
  puts := fun u hu => h.puts u ((List.eraseIdx_sublist _ _).subset hu)
  known := by
    intro version hversion
    apply h.known
    have hmem : u ∈ s.pending := List.mem_of_getElem? hu
    simp only [List.append_assoc, List.mem_append, List.mem_flatMap] at hversion ⊢
    rcases hversion with ⟨q, hq, hqv⟩ | hversion | hversion | hversion
    · exact .inl ⟨q, (List.eraseIdx_sublist _ _).subset hq, hqv⟩
    · exact .inr (.inl hversion)
    · exact .inl ⟨u, hmem, hversion⟩
    · exact .inr (.inr hversion)
  unshadowed := by
    intro version hversion hstanding m hm j hj r hr hf
    have hput := CacheUpdate.put?_of_get hm
    obtain ⟨q, hq, hqf⟩ := h.puts u (List.mem_of_getElem? hu) m hput
    -- the entry is of the version that the step saw
    obtain rfl := h.distinct j u.version r q hr hq (hf.trans hqf.symm)
    have hle : version ≤ u.version := by
      simp only [List.append_assoc, List.mem_append] at hversion
      rcases hversion with hversion | hversion | hversion
      · exact horder u (by simp [hu]) (by simp [hput]) version (by simp [hversion]) hstanding
      · cases u <;> simp [CacheUpdate.settles, CacheUpdate.version] at hversion ⊢ <;> omega
      · exact horder u (by simp [hu]) (by simp [hput]) version (by simp [hversion]) hstanding
    omega

theorem Gateway.Sound.step (h : s.Sound bucket key) (horder : InOrder s e)
    (hstep : GatewayStep bucket key s e s') : s'.Sound bucket key := by
  cases e with
  | write m now =>
      simp only [GatewayStep, Gateway.step, Option.ite_none_right_eq_some,
        Option.some.injEq] at hstep
      obtain ⟨hfresh, rfl⟩ := hstep
      refine h.extend (by rintro _ ⟨⟩; exact hfresh) (fun _ hf => hf) ?_ ?_
      · intro u hu
        rcases List.mem_append.mp hu with hu | hu
        · exact .inl hu
        · rw [List.mem_singleton.mp hu]
          refine .inr ⟨rfl, ?_⟩
          rintro _ ⟨⟩
          exact ⟨m, rfl, rfl⟩
      · intro u hu version hversion
        rcases List.mem_append.mp hu with hu | hu
        · exact .inl hu
        · rw [List.mem_singleton.mp hu] at hversion
          exact .inr (List.mem_singleton.mp hversion)
  | delete =>
      cases hstep
      refine h.extend (by rintro _ ⟨⟩) (fun _ hf => hf) ?_ ?_
      · intro u hu
        rcases List.mem_append.mp hu with hu | hu
        · exact .inl hu
        · rw [List.mem_singleton.mp hu]
          exact .inr ⟨rfl, by rintro _ ⟨⟩⟩
      · intro u hu version hversion
        rcases List.mem_append.mp hu with hu | hu
        · exact .inl hu
        · rw [List.mem_singleton.mp hu] at hversion
          exact .inr (List.mem_singleton.mp hversion)
  | foreign v =>
      simp only [GatewayStep, Gateway.step, Option.ite_none_right_eq_some,
        Option.some.injEq] at hstep
      obtain ⟨hfresh, rfl⟩ := hstep
      refine h.extend ?_ (fun f hf => List.mem_append_left _ hf) (fun u hu => .inl hu)
        fun u hu _ _ => .inl hu
      rintro m rfl
      simpa using hfresh
  | lookup =>
      cases hstep
      refine ⟨h.distinct, ?_, ?_, h.unshadowed⟩
      · intro u hu m hm
        rcases List.mem_append.mp hu with hu | hu
        · exact h.puts u hu m hm
        · rw [List.mem_singleton.mp hu] at hm ⊢
          refine ⟨m, ?_, rfl⟩
          have hlast : s.history.getLast? = some (some m) := by
            cases hl : s.history.getLast? with
            | none => simp [CacheUpdate.put?, hl] at hm
            | some v =>
                simp only [CacheUpdate.put?, hl, Option.getD_some] at hm
                rw [hm]
          rwa [List.getLast?_eq_getElem?] at hlast
      · simpa [CacheUpdate.settles] using h.known
  | update i =>
      simp only [GatewayStep, Gateway.step] at hstep
      split at hstep
      · cases hstep
      · rename_i u hu
        cases hstep
        exact h.update horder hu
  | abandon i =>
      cases hstep
      exact h.shrink rfl rfl (List.eraseIdx_sublist _ _) (fun _ hv => hv) fun _ hm => hm
  | acknowledge i =>
      simp only [GatewayStep, Gateway.step] at hstep
      split at hstep
      · cases hstep
      · rename_i version hversion
        cases hstep
        refine h.shrink rfl rfl (List.Sublist.refl _) ?_ fun _ hm => hm
        intro v hv
        simp only [List.mem_append, List.mem_singleton] at hv ⊢
        rcases hv with hv | hv | rfl
        · exact .inl ((List.eraseIdx_sublist _ _).subset hv)
        · exact .inr hv
        · exact .inl (List.mem_of_getElem? hversion)
  | invalidate =>
      cases hstep
      exact h.shrink rfl rfl (List.Sublist.refl _) (fun _ hv => hv) fun m hm => by simp at hm
  | elsewhere bucket' key' v =>
      simp only [GatewayStep, Gateway.step, Option.ite_none_left_eq_some,
        Option.some.injEq] at hstep
      obtain ⟨hne, rfl⟩ := hstep
      refine h.shrink rfl rfl (List.Sublist.refl _) (fun _ hv => hv) fun m hm => ?_
      cases v with
      | none => exact MetaCache.get_of_get_invalidate hm
      | some p => exact MetaCache.get_of_get_put hne hm

/-! ## Every schedule -/

/-- When cache steps are in order, an acknowledged write is not shadowed. -/
theorem own_writes_unshadowed {events : List GatewayEvent}
    (hrun : Trace (Guarded InOrder (GatewayStep bucket key)) Gateway.start events s) :
    s.Coherent bucket key := by
  have h : s.Sound bucket key :=
    hrun.invariant (fun _ _ _ hs hstep => hs.step hstep.1 hstep.2) gateway_sound_start
  exact fun version hversion => h.unshadowed version (List.mem_append_right _ hversion)

def metaOf (fileId : ℤ) : Meta := ⟨1, [7], 0, fileId, none, none⟩

/-- Two writes whose cache steps come in commit order, and a lookup between them. -/
def orderedSchedule : List GatewayEvent :=
  [.write (metaOf 1) 5, .update 0, .acknowledge 0, .lookup, .update 0, .write (metaOf 2) 6,
    .update 0, .acknowledge 0]

theorem own_writes_unshadowed_ordered :
    ∃ s, Trace (GatewayStep ['b'] ['k']) Gateway.start orderedSchedule s ∧
      s.Coherent ['b'] ['k'] := by
  obtain ⟨s, hs⟩ := Option.isSome_iff_exists.mp (show (runAll (fun s e => if InOrder s e then
    s.step ['b'] ['k'] e else none) Gateway.start orderedSchedule).isSome by decide +kernel)
  have hrun := trace_guarded_iff_runAll.mpr hs
  exact ⟨s, hrun.of_guarded, own_writes_unshadowed hrun⟩

/-- The first of two PUTs publishes last. -/
def crossedSchedule : List GatewayEvent :=
  [.write (metaOf 1) 5, .write (metaOf 2) 6, .update 1, .acknowledge 0, .update 0]

/-- The second PUT was acknowledged, and the entry is that of the first. -/
theorem crossed_publication_shadows :
    ¬ ∀ events s, Trace (GatewayStep ['b'] ['k']) Gateway.start events s →
      s.Coherent ['b'] ['k'] := by
  intro hall
  obtain ⟨s, hs⟩ := Option.isSome_iff_exists.mp (show (runAll (Gateway.step ['b'] ['k'])
    Gateway.start crossedSchedule).isSome by decide +kernel)
  have hfacts : (runAll (Gateway.step ['b'] ['k']) Gateway.start crossedSchedule).map
      (fun s => (s.acked, s.foreign, s.cache.get ['b'] ['k'], s.history)) =
        some ([1], [], some { metaOf 1 with createdAt := 5 }, [some (metaOf 1), some (metaOf 2)]) := by
    decide +kernel
  rw [hs, Option.map_some, Option.some.injEq, Prod.mk.injEq, Prod.mk.injEq, Prod.mk.injEq] at hfacts
  obtain ⟨hacked, hforeign, hentry, hhistory⟩ := hfacts
  refine hall crossedSchedule s (trace_iff_runAll.mpr hs) 1 (by simp [hacked])
    (by simp [Gateway.Standing, hforeign]) _ hentry 0 Nat.zero_lt_one (metaOf 1) ?_ rfl
  simp [hhistory]

end Pgvs3
