import Pgvs3.Verification.Read.Span

/-! # A receiver that goes away

A response whose receiver leaves is cut short: it has sent the first chunks of the response
that stays. -/

namespace Pgvs3

variable {cut inflight : ℕ} {open? : ℕ → Bool} {spawn : Piece → Fetch} {start stop : ℤ}

def chunksOf : Except SpanStop Span → List Bytes
  | .ok span => span.out
  | .error r => r.1

theorem out_isPrefix_recvRows {p : Piece} {fetch : Fetch} {span : Span} {early : List ChunkRow}
    {next : ℤ} :
    span.out <+: chunksOf (recvRows cut (fun _ => true) p start stop fetch span early next) := by
  induction fetch generalizing span early next with
  | nil =>
      rw [recvRows]
      split <;> exact List.prefix_refl _
  | cons message rest ih =>
      cases message with
      | error e => exact List.prefix_refl _
      | ok row =>
          rw [recvRows]
          dsimp only
          split
          · exact ih
          · split
            · rw [if_pos rfl]
              refine List.IsPrefix.trans ?_ ih
              exact List.prefix_append _ _
            · refine List.IsPrefix.trans ?_ ih
              exact List.prefix_refl _

/-- Either the receiver stayed for the whole piece, or the loop returned without an error
after some of its chunks. -/
theorem recvRows_closed {p : Piece} {fetch : Fetch} {span : Span} {early : List ChunkRow}
    {next : ℤ} :
    recvRows cut open? p start stop fetch span early next =
        recvRows cut (fun _ => true) p start stop fetch span early next ∨
      ∃ out, recvRows cut open? p start stop fetch span early next = .error (out, none) ∧
        out <+: chunksOf (recvRows cut (fun _ => true) p start stop fetch span early next) := by
  induction fetch generalizing span early next with
  | nil => exact .inl (by rw [recvRows, recvRows])
  | cons message rest ih =>
      cases message with
      | error e => exact .inl rfl
      | ok row =>
          rw [recvRows, recvRows]
          dsimp only
          split
          · exact ih
          · split
            · cases open? span.out.length with
              | true => exact ih
              | false =>
                  refine .inr ⟨_, rfl, ?_⟩
                  rw [if_pos rfl]
                  refine List.IsPrefix.trans ?_ out_isPrefix_recvRows
                  exact List.prefix_append _ _
            · exact ih

theorem out_isPrefix_spanLoop {fuel : ℕ} {todo : List Piece} {running : List (Piece × Fetch)}
    {span : Span} :
    span.out <+:
      chunksOf (spanLoop inflight cut (fun _ => true) spawn start stop fuel todo running span) := by
  induction fuel generalizing todo running span with
  | zero => exact List.prefix_refl _
  | succ fuel ih =>
      rw [spanLoop]
      split
      · exact List.prefix_refl _
      · rename_i p rows ready hready
        have hpre := @out_isPrefix_recvRows cut start stop p rows span [] p.lo
        cases hrecv : recvRows cut (fun _ => true) p start stop rows span [] p.lo with
        | error r =>
            rw [hrecv] at hpre
            exact hpre
        | ok span' =>
            rw [hrecv] at hpre
            exact hpre.trans ih

theorem spanLoop_closed {fuel : ℕ} {todo : List Piece} {running : List (Piece × Fetch)}
    {span : Span} :
    spanLoop inflight cut open? spawn start stop fuel todo running span =
        spanLoop inflight cut (fun _ => true) spawn start stop fuel todo running span ∨
      ∃ out, spanLoop inflight cut open? spawn start stop fuel todo running span =
          .error (out, none) ∧
        out <+: chunksOf
          (spanLoop inflight cut (fun _ => true) spawn start stop fuel todo running span) := by
  induction fuel generalizing todo running span with
  | zero => exact .inl rfl
  | succ fuel ih =>
      rw [spanLoop, spanLoop]
      split
      · exact .inl rfl
      · rename_i p rows ready hready
        rcases @recvRows_closed cut open? start stop p rows span [] p.lo with heq | ⟨out, heq, hpre⟩
        · rw [heq]
          cases recvRows cut (fun _ => true) p start stop rows span [] p.lo with
          | error r => exact .inl rfl
          | ok span' => exact ih
        · rw [heq]
          refine .inr ⟨out, rfl, hpre.trans ?_⟩
          cases recvRows cut (fun _ => true) p start stop rows span [] p.lo with
          | error r => exact List.prefix_refl _
          | ok span' => exact out_isPrefix_spanLoop

/-- Whenever the receiver leaves, it has had the first chunks of the whole response. -/
theorem streamSpanOf_isPrefix {step : ℕ} {m : Meta} :
    (streamSpanOf step inflight cut open? spawn m start stop).1 <+:
      (streamSpanOf step inflight cut (fun _ => true) spawn m start stop).1 := by
  unfold streamSpanOf
  dsimp only
  rcases @spanLoop_closed cut inflight open? spawn start stop
      ((plan m start stop step).length + 1) (plan m start stop step) [] ⟨[], 0, []⟩ with
    heq | ⟨out, heq, hpre⟩
  · rw [heq]
    split
    · exact List.prefix_refl _
    · rename_i span _
      split
      · exact List.prefix_refl _
      · by_cases hchunk : span.chunk = []
        · simp [hchunk]
        · cases open? span.out.length <;> simp [hchunk]
  · rw [heq]
    refine hpre.trans ?_
    split
    · rename_i hloop
      rw [hloop]
      exact List.prefix_refl _
    · rename_i hloop
      rw [hloop]
      split
      · exact List.prefix_refl _
      · split
        · exact List.prefix_append _ _
        · exact List.prefix_refl _

end Pgvs3
