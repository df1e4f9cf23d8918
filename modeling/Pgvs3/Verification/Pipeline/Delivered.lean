import Pgvs3.Verification.Pipeline.Schedule

/-! # The range that a client gets

While the files of an object are whole, every client that stays gets the bytes that it asked
for, whatever the other GETs of the pool do. -/

namespace Pgvs3

open Library

/-- The queries of a request run on `db` and do not fail; their rows come in any order. -/
def SpanAsk.ReadsFrom (ask : SpanAsk) (db : Db) : Prop :=
  ∀ p, (ask.run p).error = none ∧ (ask.run p).rows.Perm (selectRows db p)

/-- A request for a range inside an object of the files `files`, which `db` has whole. -/
structure SpanAsk.Inside (ask : SpanAsk) (db : Db) (written : ℤ → Bytes) (files : List ℤ) :
    Prop where
  describes : ask.m.Describes written files
  few : ∀ f ∈ files, FewRows (written f)
  whole : ∀ f ∈ files, FileIs db f (written f)
  nonneg : 0 ≤ ask.start
  range : ask.start ≤ ask.stop
  inside : ask.stop < ask.m.size

variable {ask : SpanAsk} {db : Db} {written : ℤ → Bytes} {files : List ℤ}

/-- The response to such a request is its range. -/
theorem SpanAsk.Inside.response_eq (h : ask.Inside db written files) (hread : ask.ReadsFrom db) :
    ∃ out, ask.response = (out, none) ∧ (∀ c ∈ out, c ≠ []) ∧
      out.flatten = sliceOf (files.flatMap written) ask.start.toNat (ask.stop + 1).toNat := by
  refine streamSpan_full h.describes h.few h.nonneg h.range h.inside fun p hp hin => ?_
  obtain ⟨herror, hperm⟩ := hread p
  refine ⟨(ask.run p).rows,
    hperm.trans (selectRows_perm hin (h.few _ hp).distinct (h.whole _ hp)), ?_⟩
  rw [SpanAsk.spawn, PartRun.messages, herror]
  simp

variable {ι : Type*} [DecidableEq ι] [Fintype ι] {asks : ι → SpanAsk} {max : ℕ} {s : ReadTasks ι}
  {events : List (ι × SpanEvent)}

/-- Whatever the schedule, a client has at every time the first bytes of its range, and all of
them when it stayed to the end. -/
theorem clients_get_range (hmax : 0 < max) (hasks : ∀ i, ServesRows (asks i).run) {i : ι}
    (hin : (asks i).Inside db written files) (hread : (asks i).ReadsFrom db)
    (hrun : Trace (ReadStep asks) (ReadTasks.start max asks) events s) :
    ∃ out : List Bytes, (s.spans i).received = out.map .ok ∧ (∀ c ∈ out, c ≠ []) ∧
      out.flatten <+: sliceOf (files.flatMap written) (asks i).start.toNat ((asks i).stop + 1).toNat ∧
      (Stuck (Only (·.2 ≠ .hangUp) (ReadStep asks)) s → (s.spans i).reading = true →
        out.flatten =
          sliceOf (files.flatMap written) (asks i).start.toNat ((asks i).stop + 1).toNat) := by
  have h := reads_sound hasks hrun
  obtain ⟨full, hfull, hne, hflat⟩ := hin.response_eq hread
  have hmessages : spanMessages (asks i).response = full.map .ok := by
    rw [hfull]
    simp [spanMessages]
  have hpre := (h.streams i).isPrefix
  rw [hmessages] at hpre
  obtain ⟨out, hout, hreceived⟩ := List.prefix_map_iff.mp hpre
  refine ⟨out, hreceived, fun c hc => hne c (hout.subset hc), ?_, fun hstuck hreading => ?_⟩
  · rw [← hflat]
    obtain ⟨rest, rfl⟩ := hout
    rw [List.flatten_append]
    exact List.prefix_append _ _
  · have hall := ((h.complete hmax hstuck).2 i).2 hreading
    rw [hmessages, hreceived] at hall
    have hinj : Function.Injective (Except.ok : Bytes → Except ReadError Bytes) :=
      fun a b hab => by cases hab; rfl
    rw [hinj.list_map hall, hflat]

/-! ### Two GETs on one connection -/

def twoBodies (f : ℤ) : Bytes := if f = 1 then [7, 8, 9] else [4, 5]

theorem twoFilesAsk_inside : (twoFilesAsk 0 4).Inside twoFiles twoBodies [1, 2] where
  describes := ⟨by decide +kernel, by decide +kernel⟩
  few := by
    intro f _
    by_cases hf : f = 1 <;> simp only [twoBodies, hf, if_true, if_false] <;> decide +kernel
  whole := by
    have h1 : rowsOf 1 (twoBodies 1) = [⟨1, 0, [7, 8, 9]⟩] := by decide +kernel
    have h2 : rowsOf 2 (twoBodies 2) = [⟨2, 0, [4, 5]⟩] := by decide +kernel
    intro f hf c hc
    rw [Table.mem_def]
    simp only [List.mem_cons, List.not_mem_nil, or_false] at hf
    rcases hf with rfl | rfl
    · rw [h1]
      constructor
      · intro hmem
        rcases List.mem_cons.mp hmem with rfl | hmem
        · exact List.mem_singleton_self _
        · rw [List.mem_singleton.mp hmem] at hc
          cases hc
      · exact fun hmem => List.mem_cons.mpr (.inl (List.mem_singleton.mp hmem))
    · rw [h2]
      constructor
      · intro hmem
        rcases List.mem_cons.mp hmem with rfl | hmem
        · cases hc
        · exact hmem
      · exact fun hmem => List.mem_cons_of_mem _ hmem
  nonneg := le_refl _
  range := by decide
  inside := by decide

theorem clients_get_range_sharedConnection : ∃ (s : ReadTasks Bool) (out : List Bytes),
    (s.spans false).received = out.map .ok ∧ out ≠ [] ∧
      out.flatten <+: sliceOf ([1, 2].flatMap twoBodies) 0 5 := by
  obtain ⟨s, hrun, hreceived⟩ := shared_run
  obtain ⟨out, hout, -, hpre, -⟩ := clients_get_range (i := false) (by decide) answers_shared
    twoFilesAsk_inside (fun p => ⟨rfl, List.Perm.refl _⟩) hrun
  refine ⟨s, out, hout, ?_, hpre⟩
  rintro rfl
  rw [hreceived] at hout
  cases hout

end Pgvs3
