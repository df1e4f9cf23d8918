import Pgvs3.Model.Pool

/-! # The connection budget

A connection is opened only by a call that found the idle stack empty, and such a call holds a
permit that no connection stands for. -/

namespace Pgvs3

open Library

variable {opts : PoolOptions} {s s' : Pool} {e : PoolEvent}

/-! ## The idle stack -/

theorem trimIdle_cases (opts : PoolOptions) (now : ℤ) (idle : List Conn) :
    trimIdle opts now idle = idle ∨
      ∃ bottom, idle = bottom :: trimIdle opts now idle ∧
        opts.min ≤ (trimIdle opts now idle).length := by
  cases idle with
  | nil => exact .inl rfl
  | cons bottom rest =>
      unfold trimIdle
      dsimp only
      split
      · rename_i h
        refine .inr ⟨bottom, rfl, ?_⟩
        have := h.1
        rw [List.length_cons] at this
        omega
      · exact .inl rfl

theorem trimIdle_sublist (opts : PoolOptions) (now : ℤ) (idle : List Conn) :
    (trimIdle opts now idle).Sublist idle := by
  rcases trimIdle_cases opts now idle with h | ⟨bottom, h, -⟩
  · rw [h]
  · conv_rhs => rw [h]
    exact List.sublist_cons_self _ _

theorem dropLast_of_getLast? {α : Type*} {l : List α} {top : α} (h : l.getLast? = some top) :
    l = l.dropLast ++ [top] := by
  rw [List.getLast?_eq_some_iff] at h
  obtain ⟨init, rfl⟩ := h
  simp

/-! ## Steps -/

/-- What can happen to a pool. -/
inductive Pool.Moves (opts : PoolOptions) (s : Pool) : PoolEvent → Pool → Prop where
  | acquire (hfree : s.permits ≠ 0) :
      Moves opts s .acquire
        { s with permits := s.permits - 1, searching := s.searching + 1 }
  | openNew (hsearching : s.searching ≠ 0) (hidle : s.idle = []) :
      Moves opts s .look { s with
        searching := s.searching - 1
        opening := s.opening ++ [s.opened]
        opened := s.opened + 1 }
  | skip {top} (hidle : s.idle = s.idle.dropLast ++ [top]) (hclosed : top.id ∈ s.closed) :
      Moves opts s .look { s with idle := s.idle.dropLast }
  | reuse {top} (hsearching : s.searching ≠ 0) (hidle : s.idle = s.idle.dropLast ++ [top])
      (hopen : top.id ∉ s.closed) :
      Moves opts s .look { s with
        idle := s.idle.dropLast
        searching := s.searching - 1
        live := s.live ++ [top] }
  | openDone {id now} (hid : id ∈ s.opening) :
      Moves opts s (.openDone id now)
        { s with opening := s.opening.erase id, live := s.live ++ [⟨id, now, 0⟩] }
  | openFail {id} (hid : id ∈ s.opening) :
      Moves opts s (.openFail id)
        { s with opening := s.opening.erase id, returning := s.returning + 1 }
  | close {id} : Moves opts s (.close id) { s with closed := id :: s.closed }
  | discard {conn since now} (hlive : conn ∈ s.live) (hclosed : conn.id ∈ s.closed) :
      Moves opts s (.drop conn.id since now)
        { s with live := s.live.erase conn, returning := s.returning + 1 }
  | giveBack {conn since now} (hlive : conn ∈ s.live) (hopen : conn.id ∉ s.closed) :
      Moves opts s (.drop conn.id since now) { s with
        idle := trimIdle opts now (s.idle ++ [⟨conn.id, since, s.returns⟩])
        live := s.live.erase conn
        returning := s.returning + 1
        returns := s.returns + 1 }
  | release (hback : s.returning ≠ 0) :
      Moves opts s .release { s with permits := s.permits + 1, returning := s.returning - 1 }

theorem PoolStep.moves (h : PoolStep opts s e s') : s.Moves opts e s' := by
  cases e with
  | acquire =>
      simp only [PoolStep, Pool.step, Option.ite_none_left_eq_some, Option.some.injEq] at h
      obtain ⟨hfree, rfl⟩ := h
      exact .acquire hfree
  | look =>
      simp only [PoolStep, Pool.step] at h
      split at h
      · cases h
      · rename_i hsearching
        split at h
        · rename_i hempty
          cases h
          exact .openNew hsearching (List.getLast?_eq_none_iff.mp hempty)
        · rename_i top htop
          have hidle := dropLast_of_getLast? htop
          split at h
          · rename_i hclosed
            cases h
            exact .skip hidle hclosed
          · rename_i hopen
            cases h
            exact .reuse hsearching hidle hopen
  | openDone id now =>
      simp only [PoolStep, Pool.step, Option.ite_none_right_eq_some, Option.some.injEq] at h
      obtain ⟨hid, rfl⟩ := h
      exact .openDone hid
  | openFail id =>
      simp only [PoolStep, Pool.step, Option.ite_none_right_eq_some, Option.some.injEq] at h
      obtain ⟨hid, rfl⟩ := h
      exact .openFail hid
  | close id =>
      cases h
      exact .close
  | drop id since now =>
      simp only [PoolStep, Pool.step] at h
      split at h
      · cases h
      · rename_i conn hfind
        have hlive : conn ∈ s.live := List.mem_of_find?_eq_some hfind
        obtain rfl : conn.id = id := by simpa using List.find?_some hfind
        split at h
        · rename_i hclosed
          cases h
          exact .discard hlive hclosed
        · rename_i hopen
          cases h
          exact .giveBack hlive hopen
  | release =>
      simp only [PoolStep, Pool.step, Option.ite_none_left_eq_some, Option.some.injEq] at h
      obtain ⟨hback, rfl⟩ := h
      exact .release hback

/-! ## The invariant -/

/-- The connections that are open or being opened. -/
def Pool.conns (s : Pool) : List ℕ := s.idle.map (·.id) ++ (s.opening ++ s.live.map (·.id))

structure Pool.Sound (opts : PoolOptions) (s : Pool) : Prop where
  permits_eq : s.permits + s.searching + s.opening.length + s.live.length + s.returning = opts.max
  budget : s.conns.length ≤ opts.max
  nodup : s.conns.Nodup
  known : ∀ id ∈ s.conns, id < s.opened
  stacked : s.idle.Pairwise fun c d => c.returned < d.returned
  recent : ∀ c ∈ s.idle, c.returned < s.returns

theorem pool_sound_start (h : opts.min ≤ opts.max) : (Pool.start opts).Sound opts where
  permits_eq := by simp [Pool.start]
  budget := by simpa [Pool.conns, Pool.start] using h
  nodup := by
    simpa [Pool.conns, Pool.start, Function.comp_def] using List.nodup_range
  known := by simp [Pool.conns, Pool.start]
  stacked := by
    simp only [Pool.start, List.pairwise_map]
    exact List.pairwise_lt_range
  recent := by simp [Pool.start]

theorem Pool.Sound.moved (h : s.Sound opts)
    (hpermits : s'.permits + s'.searching + s'.opening.length + s'.live.length + s'.returning =
      s.permits + s.searching + s.opening.length + s.live.length + s.returning)
    (hconns : s'.conns.Subperm s.conns) (hopened : s'.opened = s.opened)
    (hstacked : s'.idle.Pairwise fun c d => c.returned < d.returned)
    (hrecent : ∀ c ∈ s'.idle, c.returned < s'.returns) : s'.Sound opts where
  permits_eq := hpermits.trans h.permits_eq
  budget := hconns.length_le.trans h.budget
  nodup := by
    obtain ⟨l, hperm, hsub⟩ := hconns
    exact hperm.nodup_iff.mp (h.nodup.sublist hsub)
  known := fun id hid => hopened ▸ h.known id (hconns.subset hid)
  stacked := hstacked
  recent := hrecent

/-! ## One step -/

theorem Pool.Sound.look (h : s.Sound opts) (hstep : PoolStep opts s .look s') :
    s'.Sound opts := by
  have hsub : s.idle.dropLast.Sublist s.idle := List.dropLast_sublist _
  cases hstep.moves with
  | openNew hsearching hidle =>
      -- the stack is empty: the call's permit makes room for a new connection
      have hpermits := h.permits_eq
      have hconns : s.conns = s.opening ++ s.live.map (·.id) := by simp [Pool.conns, hidle]
      have hnodup := h.nodup
      have hknown := h.known
      rw [hconns] at hnodup hknown
      have hperm : (s.opening ++ [s.opened] ++ s.live.map (·.id)).Perm
          (s.opened :: (s.opening ++ s.live.map (·.id))) := by
        rw [List.append_assoc]
        exact List.perm_middle
      refine ⟨?_, ?_, ?_, ?_, h.stacked, h.recent⟩
      · simp only [List.length_append, List.length_singleton]
        omega
      · simp only [Pool.conns, hidle, List.map_nil, List.nil_append, List.length_append,
          List.length_singleton, List.length_map]
        omega
      · simp only [Pool.conns, hidle, List.map_nil, List.nil_append]
        refine hperm.nodup_iff.mpr (List.nodup_cons.mpr ⟨fun hmem => ?_, hnodup⟩)
        exact lt_irrefl _ (hknown _ hmem)
      · intro id hid
        simp only [Pool.conns, hidle, List.map_nil, List.nil_append] at hid
        rcases List.mem_cons.mp (hperm.mem_iff.mp hid) with rfl | hid
        · exact Nat.lt_succ_self _
        · exact (hknown id hid).trans (Nat.lt_succ_self _)
  | skip =>
      refine h.moved rfl ?_ rfl (h.stacked.sublist hsub) fun c hc => h.recent c (hsub.subset hc)
      exact ((hsub.map _).append (List.Sublist.refl _)).subperm
  | reuse hsearching hidle =>
      refine h.moved ?_ (List.Perm.subperm ?_) rfl (h.stacked.sublist hsub)
        fun c hc => h.recent c (hsub.subset hc)
      · simp only [List.length_append, List.length_singleton]
        omega
      · simp only [Pool.conns]
        conv_rhs => rw [hidle]
        simp only [List.map_append, List.map_cons, List.map_nil, List.append_assoc,
          List.singleton_append]
        refine List.Perm.append_left _ ?_
        rw [← List.append_assoc]
        exact List.perm_append_singleton _ _

theorem Pool.Sound.drop (h : s.Sound opts) {id : ℕ} {since now : ℤ}
    (hstep : PoolStep opts s (.drop id since now) s') : s'.Sound opts := by
  cases hstep.moves with
  | discard hlive =>
      have hlen := List.length_erase_add_one hlive
      refine h.moved ?_ ?_ rfl h.stacked h.recent
      · dsimp only
        omega
      · exact ((List.Sublist.refl _).append
          ((List.Sublist.refl _).append (List.erase_sublist.map _))).subperm
  | @giveBack conn _ _ hlive =>
      have hlen := List.length_erase_add_one hlive
      set back : Conn := ⟨conn.id, since, s.returns⟩ with hback
      have hsub := trimIdle_sublist opts now (s.idle ++ [back])
      have hstacked : (s.idle ++ [back]).Pairwise fun c d => c.returned < d.returned := by
        refine List.pairwise_append.mpr ⟨h.stacked, List.pairwise_singleton _ _, ?_⟩
        intro c hc d hd
        rw [List.mem_singleton.mp hd]
        exact h.recent c hc
      refine h.moved ?_ ?_ rfl (hstacked.sublist hsub) ?_
      · dsimp only
        omega
      · refine List.Subperm.trans ((hsub.map _).append (List.Sublist.refl _)).subperm
          (List.Perm.subperm ?_)
        have hids := (List.perm_cons_erase hlive).map (·.id)
        simp only [List.map_append, List.map_cons, List.map_nil, Pool.conns, List.append_assoc,
          List.singleton_append] at hids ⊢
        refine List.Perm.append_left _ ?_
        exact List.perm_middle.symm.trans ((hids.symm).append_left _)
      · intro c hc
        rcases List.mem_append.mp (hsub.subset hc) with hc | hc
        · exact (h.recent c hc).trans (Nat.lt_succ_self _)
        · rw [List.mem_singleton.mp hc]
          exact Nat.lt_succ_self _

theorem Pool.Sound.step (h : s.Sound opts) (hstep : PoolStep opts s e s') : s'.Sound opts := by
  cases e with
  | acquire =>
      cases hstep.moves
      refine h.moved ?_ (List.Subperm.refl _) rfl h.stacked h.recent
      dsimp only
      omega
  | look => exact h.look hstep
  | openDone id now =>
      cases hstep.moves with
      | openDone hid =>
          have hlen := List.length_erase_add_one hid
          refine h.moved ?_ (List.Perm.subperm ?_) rfl h.stacked h.recent
          · simp only [List.length_append, List.length_singleton]
            omega
          · simp only [Pool.conns, List.map_append, List.map_cons, List.map_nil]
            refine List.Perm.append_left _ ?_
            rw [← List.append_assoc]
            exact (List.perm_append_singleton _ _).trans
              ((List.perm_cons_erase hid).symm.append_right _)
  | openFail id =>
      cases hstep.moves with
      | openFail hid =>
          have hlen := List.length_erase_add_one hid
          refine h.moved ?_ ?_ rfl h.stacked h.recent
          · dsimp only
            omega
          · exact ((List.Sublist.refl _).append
              (List.erase_sublist.append (List.Sublist.refl _))).subperm
  | close id =>
      cases hstep.moves
      exact ⟨h.permits_eq, h.budget, h.nodup, h.known, h.stacked, h.recent⟩
  | drop id since now => exact h.drop hstep
  | release =>
      cases hstep.moves
      refine h.moved ?_ (List.Subperm.refl _) rfl h.stacked h.recent
      dsimp only
      omega

/-! ## Every run -/

/-- Permits that calls and handles hold. -/
def Pool.held (s : Pool) : ℕ := s.searching + s.opening.length + s.live.length + s.returning

end Pgvs3
