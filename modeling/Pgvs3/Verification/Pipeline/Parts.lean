import Pgvs3.Library.Progress
import Pgvs3.Model.ReadPipeline
import Pgvs3.Verification.Read.GetBody

/-! # Part tasks

The channel of a part has room for every message of its query, so the task that holds a
connection never waits for the span task. -/

namespace Pgvs3

open Library

variable {run : Piece → PartRun} {part part' : Part} {slots slots' : ℕ}

/-! ## What a query returns -/

/-- The rows of every query come from one state of the database. -/
def ServesRows (run : Piece → PartRun) : Prop :=
  ∀ p, ∃ db : Db, (run p).rows.Subperm (selectRows db p)

/-- The messages of a piece fit its channel. -/
def Piece.Fits (run : Piece → PartRun) (p : Piece) : Prop :=
  (run p).messages.length ≤ p.capacity

theorem length_selectRows_le (db : Db) (p : Piece) :
    (selectRows db p).length ≤ (p.hi + 1 - p.lo).toNat := by
  have hsub : (selectRows db p).map (·.no) ⊆ (Finset.Icc p.lo p.hi).toList := by
    intro no hno
    obtain ⟨c, hc, rfl⟩ := List.mem_map.mp hno
    simpa using (mem_selectRows.mp hc).2.2
  have hle := (List.subperm_of_subset (nodup_selectRows db p) hsub).length_le
  simpa using hle

theorem ServesRows.fits (h : ServesRows run) {p : Piece} (hp : p.lo ≤ p.hi) : p.Fits run := by
  obtain ⟨db, hsub⟩ := h p
  have hrows := hsub.length_le.trans (length_selectRows_le db p)
  have herror : (((run p).error.map Except.error).toList :
      List (Except ReadError ChunkRow)).length ≤ 1 := by
    cases (run p).error <;> simp
  rw [Piece.Fits, PartRun.messages, List.length_append, List.length_map, Piece.capacity]
  omega

theorem plan_nonempty {m : Meta} {start stop : ℤ} {step : ℕ} {p : Piece}
    (hp : p ∈ plan m start stop step) : p.lo ≤ p.hi := by
  obtain ⟨⟨f, base, len⟩, -, hp⟩ := List.mem_flatMap.mp hp
  dsimp only at hp
  split at hp
  · cases hp
  · obtain ⟨r, hr, rfl⟩ := List.mem_map.mp hp
    exact (partRanges_bounds (asI32_mem _).1 (asI32_mem _).2 r hr).2.1

theorem PartRun.error_last {r : PartRun} {e : ReadError} {rest : Fetch}
    (h : .error e :: rest <:+ r.messages) : rest = [] := by
  obtain ⟨front, hfront⟩ := h
  have hrows : ∀ m ∈ r.rows.map (Except.ok (ε := ReadError)), m ≠ .error e := by
    intro m hm
    obtain ⟨row, -, rfl⟩ := List.mem_map.mp hm
    exact fun heq => by cases heq
  rw [PartRun.messages, List.append_eq_append_iff] at hfront
  rcases hfront with ⟨mid, hmid, herror⟩ | ⟨mid, -, herror⟩
  · cases mid with
    | nil =>
        cases herr : r.error with
        | none => simp [herr] at herror
        | some e' =>
            rw [herr] at herror
            exact (List.cons.inj herror).2
    | cons m mid =>
        obtain ⟨rfl, -⟩ := List.cons.inj herror
        refine absurd rfl (hrows (.error e) ?_)
        rw [hmid]
        exact List.mem_append_right _ (List.mem_cons_self ..)
  · cases herr : r.error with
    | none => simp [herr] at herror
    | some e' =>
        rw [herr] at herror
        cases mid with
        | nil => exact (List.cons.inj herror.symm).2
        | cons m mid => simp at herror

/-! ## Steps -/

/-- What a part task can do. -/
inductive Part.Moves (part : Part) (slots : ℕ) : ℕ → Part → Prop where
  | acquire (h : part.phase = .acquiring) (hfree : 0 < slots) :
      Moves part slots (slots - 1) { part with phase := .fetching }
  | giveUp {e rest} (h : part.phase = .acquiring) (htodo : part.todo = .error e :: rest) :
      Moves part slots slots { part with phase := .reporting }
  | finish (h : part.phase = .fetching) (htodo : part.todo = []) :
      Moves part slots (slots + 1) { part with phase := .done }
  | fail {e rest} (h : part.phase = .fetching) (htodo : part.todo = .error e :: rest) :
      Moves part slots (slots + 1) { part with phase := .reporting }
  | row {r rest} (h : part.phase = .fetching) (htodo : part.todo = .ok r :: rest)
      (hwatched : part.watched = true) :
      Moves part slots slots { part with todo := rest, queue := part.queue ++ [.ok r] }
  | stop (h : part.phase = .fetching) (hwatched : part.watched = false) :
      Moves part slots (slots + 1) { part with phase := .done, todo := [] }
  | report {e rest} (h : part.phase = .reporting) (htodo : part.todo = .error e :: rest)
      (hwatched : part.watched = true) :
      Moves part slots slots
        { part with phase := .done, todo := [], queue := part.queue ++ [.error e] }
  | ignore (h : part.phase = .reporting) (hwatched : part.watched = false) :
      Moves part slots slots { part with phase := .done, todo := [] }

theorem Part.moves {e : PartEvent} (h : part.step slots e = some (slots', part')) :
    part.Moves slots slots' part' := by
  cases e with
  | acquire =>
      simp only [Part.step, Option.ite_none_right_eq_some, Option.some.injEq,
        Prod.mk.injEq] at h
      obtain ⟨⟨hphase, hfree⟩, rfl, rfl⟩ := h
      exact .acquire hphase hfree
  | giveUp =>
      simp only [Part.step] at h
      split at h
      · rename_i hphase htodo
        cases h
        exact .giveUp hphase htodo
      · cases h
  | advance =>
      simp only [Part.step] at h
      split at h
      · rename_i hphase htodo
        cases h
        exact .finish hphase htodo
      · rename_i hphase htodo
        cases h
        exact .fail hphase htodo
      · rename_i hphase htodo
        split at h
        · rename_i hwatched
          split at h
          · cases h
            exact .row hphase htodo hwatched
          · cases h
        · rename_i hwatched
          cases h
          exact .stop hphase (by simpa using hwatched)
      · rename_i hphase htodo
        split at h
        · rename_i hwatched
          split at h
          · cases h
            exact .report hphase htodo hwatched
          · cases h
        · rename_i hwatched
          cases h
          exact .ignore hphase (by simpa using hwatched)
      · cases h

/-! ## The invariant -/

/-- What holds of a part task in every state. -/
structure Part.Sound (run : Piece → PartRun) (part : Part) : Prop where
  /-- What is not sent yet is the end of the messages. -/
  isSuffix : part.todo <:+ (run part.piece).messages
  /-- There is room for it. -/
  room : part.watched = true → part.queue.length + part.todo.length ≤ part.piece.capacity
  reporting : part.phase = .reporting → ∃ e, part.todo = [.error e]
  done : part.phase = .done → part.todo = []

theorem Part.sound_spawn {p : Piece} (h : p.Fits run) : (spawnPart run p).Sound run where
  isSuffix := List.suffix_refl _
  room _ := by simpa [spawnPart, Piece.Fits] using h
  reporting hp := by cases hp
  done hp := by cases hp

theorem Part.Sound.abandon (h : part.Sound run) : part.abandon.Sound run where
  isSuffix := h.isSuffix
  room hw := by cases hw
  reporting := h.reporting
  done := h.done

theorem Part.Sound.moves (h : part.Sound run) (hmove : part.Moves slots slots' part') :
    part'.Sound run := by
  cases hmove with
  | acquire =>
      exact { h with
        reporting := fun hp => (by cases hp)
        done := fun hp => (by cases hp) }
  | finish _ htodo => exact { h with reporting := fun hp => (by cases hp), done := fun _ => htodo }
  | @giveUp e rest hphase htodo | @fail e rest hphase htodo =>
      have hlast : rest = [] := PartRun.error_last (htodo ▸ h.isSuffix)
      exact { h with
        reporting := fun _ => ⟨e, by rw [← hlast]; exact htodo⟩
        done := fun hp => (by cases hp) }
  | row hphase htodo hwatched =>
      refine ⟨(htodo ▸ List.suffix_cons _ _).trans h.isSuffix, fun _ => ?_,
        fun hp => absurd (hphase.symm.trans hp) (by decide),
        fun hp => absurd (hphase.symm.trans hp) (by decide)⟩
      have hroom := h.room hwatched
      rw [htodo, List.length_cons] at hroom
      simp only [List.length_append, List.length_singleton]
      omega
  | stop hphase hwatched | ignore hphase hwatched =>
      exact ⟨List.nil_suffix, fun hw => absurd (hwatched.symm.trans hw) (by decide),
        fun hp => (by cases hp), fun _ => rfl⟩
  | report hphase htodo hwatched =>
      refine ⟨List.nil_suffix, fun _ => ?_, fun hp => (by cases hp), fun _ => rfl⟩
      have hroom := h.room hwatched
      rw [htodo, List.length_cons] at hroom
      simp only [List.length_append, List.length_singleton, List.length_nil]
      omega

theorem Part.Moves.watched (h : part.Moves slots slots' part') :
    part'.watched = part.watched := by
  cases h <;> rfl

/-! ## Connections -/

def Part.holds (part : Part) : ℕ := if part.phase = .fetching then 1 else 0

theorem Part.Moves.slots_add (h : part.Moves slots slots' part') :
    slots' + part'.holds = slots + part.holds := by
  cases h with
  | acquire hphase hfree =>
      simp only [Part.holds, hphase, if_true, reduceCtorEq, if_false]
      omega
  | giveUp hphase _ | finish hphase _ | fail hphase _ | stop hphase _ | report hphase _ _
  | ignore hphase _ | row hphase _ _ => simp [Part.holds, hphase]

/-! ## Progress -/

/-- A part task that waits, waits for a connection. -/
theorem Part.Sound.progress (h : part.Sound run) (hstuck : ∀ e, part.step slots e = none) :
    part.phase = .done ∨ part.phase = .acquiring ∧ slots = 0 := by
  have hroom : ∀ m rest, part.todo = m :: rest → part.watched = true →
      part.queue.length < part.piece.capacity := by
    intro m rest htodo hwatched
    have hroom := h.room hwatched
    rw [htodo, List.length_cons] at hroom
    omega
  have hadvance := hstuck .advance
  cases hphase : part.phase with
  | done => exact .inl rfl
  | acquiring =>
      refine .inr ⟨rfl, ?_⟩
      have hacquire := hstuck .acquire
      simpa [Part.step, hphase] using hacquire
  | fetching =>
      exfalso
      cases htodo : part.todo with
      | nil => simp [Part.step, hphase, htodo] at hadvance
      | cons m rest =>
          cases m with
          | error e => simp [Part.step, hphase, htodo] at hadvance
          | ok row =>
              cases hwatched : part.watched with
              | false => simp [Part.step, hphase, htodo, hwatched] at hadvance
              | true =>
                  simp [Part.step, hphase, htodo, hwatched, hroom _ _ htodo hwatched] at hadvance
  | reporting =>
      exfalso
      obtain ⟨e, htodo⟩ := h.reporting hphase
      cases hwatched : part.watched with
      | false => simp [Part.step, hphase, htodo, hwatched] at hadvance
      | true => simp [Part.step, hphase, htodo, hwatched, hroom _ _ htodo hwatched] at hadvance

end Pgvs3
