import Pgvs3.Library.Reassembly
import Pgvs3.Model.Read

/-! # Streaming a span of pieces

Rows of a piece arrive in any order. What a span delivers is determined by the sets of
rows that its pieces deliver. -/

namespace Pgvs3

open Library

def nextNo (no : ℤ) : ℤ := asI32 (no + 1)

/-- What row `r` of piece `p` contributes to object bytes `start ..= stop`. -/
def Piece.slice (p : Piece) (start stop : ℤ) (r : ChunkRow) : Bytes :=
  (rowSlice p.base r.no r.data start stop).getD []

theorem putRow_eq (chunk : Bytes) (p : Piece) (start stop : ℤ) (r : ChunkRow) :
    putRow chunk p r.no r start stop = chunk ++ p.slice start stop r := rfl

/-- The rows a piece receives before its query fails, if it does. -/
def arrived : Fetch → List ChunkRow
  | [] => []
  | .error _ :: _ => []
  | .ok r :: rest => r :: arrived rest

def fetchError? : Fetch → Option ReadError
  | [] => none
  | .error e :: _ => some e
  | .ok _ :: rest => fetchError? rest

@[simp] theorem arrived_map_ok (rows : List ChunkRow) : arrived (rows.map Except.ok) = rows := by
  induction rows with
  | nil => rfl
  | cons r rows ih => simp [arrived, ih]

@[simp] theorem fetchError?_map_ok (rows : List ChunkRow) :
    fetchError? (rows.map Except.ok) = none := by
  induction rows with
  | nil => rfl
  | cons r rows ih => simp [fetchError?, ih]

/-! ## Draining early rows -/

theorem perm_cons_filter_no {rows : List ChunkRow} (h : (rows.map (·.no)).Nodup)
    {r : ChunkRow} (hr : r ∈ rows) : rows.Perm (r :: rows.filter (fun q => q.no ≠ r.no)) := by
  have hfilter : rows.filter (fun q => q.no ≠ r.no) = rows.erase r := by
    rw [(h.of_map _).erase_eq_filter]
    apply List.filter_congr
    intro q hq
    have hinj : q.no = r.no ↔ q = r :=
      ⟨fun hno => List.inj_on_of_nodup_map h hq hr hno, fun heq => congrArg _ heq⟩
    by_cases heq : q = r <;> simp [heq, hinj]
  rw [hfilter]
  exact List.perm_cons_erase hr

theorem drainEarly_spec (p : Piece) (start stop : ℤ) {fuel : ℕ} {early : List ChunkRow}
    (hfuel : early.length ≤ fuel) (hnodup : (early.map (·.no)).Nodup) (next : ℤ) (chunk : Bytes) :
    ∃ taken early' next', Reassembled nextNo (·.no) next early taken early' next' ∧
      drainEarly p start stop fuel early next chunk =
        (early', next', chunk ++ taken.flatMap (p.slice start stop)) := by
  induction fuel generalizing early next chunk with
  | zero =>
      obtain rfl : early = [] := List.length_eq_zero_iff.mp (Nat.le_zero.mp hfuel)
      exact ⟨[], [], next, .nil next, by simp [drainEarly]⟩
  | succ fuel ih =>
      cases hfind : early.find? (fun r => r.no = next) with
      | none =>
          refine ⟨[], early, next, ⟨List.Perm.refl _, rfl, ?_⟩, by simp [drainEarly, hfind]⟩
          intro r hr
          simpa using List.find?_eq_none.mp hfind r hr
      | some row =>
          have hmem : row ∈ early := List.mem_of_find?_eq_some hfind
          obtain rfl : row.no = next := by simpa using List.find?_some hfind
          have hperm := perm_cons_filter_no hnodup hmem
          have hlen : (early.filter (fun r => r.no ≠ row.no)).length ≤ fuel := by
            have := hperm.length_eq
            rw [List.length_cons] at this
            omega
          obtain ⟨taken, early', next', hre, hdrain⟩ := ih hlen
            (hnodup.sublist (List.filter_sublist.map _)) (nextNo row.no)
            (putRow chunk p row.no row start stop)
          refine ⟨row :: taken, early', next', ⟨?_, ⟨rfl, hre.chain⟩, hre.missing⟩, ?_⟩
          · exact hperm.trans (hre.perm.cons row)
          · rw [drainEarly, hfind]
            change drainEarly p start stop fuel _ (nextNo row.no) _ = _
            rw [hdrain, putRow_eq, List.flatMap_cons, List.append_assoc]

theorem insertEarly_of_fresh {early : List ChunkRow} {row : ChunkRow}
    (h : ∀ r ∈ early, r.no ≠ row.no) : insertEarly early row = early ++ [row] := by
  rw [insertEarly, List.filter_eq_self.mpr (by simpa using h)]

/-! ## One piece -/

theorem chunkSize_pos : 0 < chunkSize := by decide

def Span.delivered (s : Span) : Bytes := s.out.flatten ++ s.chunk

structure Span.Valid (cut : ℕ) (s : Span) : Prop where
  sent_eq : s.sent = s.out.flatten.length
  full : ∀ c ∈ s.out, cut ≤ c.length
  open_lt : s.chunk.length < cut

/-- `out` is all of `bytes` but less than a chunk at its end. -/
structure SentOf (cut : ℕ) (out : List Bytes) (bytes : Bytes) : Prop where
  isPrefix : out.flatten <+: bytes
  held_lt : bytes.length < out.flatten.length + cut

theorem Span.Valid.sentOf {cut : ℕ} {s : Span} (h : s.Valid cut) :
    SentOf cut s.out s.delivered where
  isPrefix := List.prefix_append _ _
  held_lt := by
    rw [delivered, List.length_append]
    exact Nat.add_lt_add_left h.open_lt _

/-- The loop over the rows of a piece, once the rows in `got` have come. -/
theorem recvRows_spec {cut : ℕ} (hcut : 0 < cut) {p : Piece} {start stop : ℤ} {fetch : Fetch} {span : Span}
    {got taken early : List ChunkRow} {next : ℤ} {before : Bytes}
    (h : Reassembled nextNo (·.no) p.lo got taken early next) (hvalid : span.Valid cut)
    (hdelivered : span.delivered = before ++ taken.flatMap (p.slice start stop))
    (hnodup : ((got ++ arrived fetch).map (·.no)).Nodup) :
    ∃ taken' early' next',
      Reassembled nextNo (·.no) p.lo (got ++ arrived fetch) taken' early' next' ∧
      match recvRows cut (fun _ => true) p start stop fetch span early next with
      | .ok span' => span'.Valid cut ∧
          span'.delivered = before ++ taken'.flatMap (p.slice start stop) ∧
          fetchError? fetch = none ∧ p.hi < next'
      | .error (out, e) => (∀ c ∈ out, cut ≤ c.length) ∧ e.isSome ∧
          SentOf cut out (before ++ taken'.flatMap (p.slice start stop)) ∧
          ¬ (fetchError? fetch = none ∧ p.hi < next') := by
  induction fetch generalizing span got taken early next with
  | nil =>
      refine ⟨taken, early, next, by simpa [arrived] using h, ?_⟩
      simp only [recvRows]
      split
      · rename_i hstop
        split at hstop
        · rename_i hhi
          cases hstop
          exact ⟨hvalid, hdelivered, rfl, hhi⟩
        · cases hstop
      · rename_i hstop
        split at hstop
        · cases hstop
        · rename_i hhi
          cases hstop
          exact ⟨hvalid.full, rfl, hdelivered ▸ hvalid.sentOf, fun hc => hhi hc.2⟩
  | cons message rest ih =>
      cases message with
      | error e =>
          refine ⟨taken, early, next, by simpa [arrived] using h, hvalid.full, rfl,
            hdelivered ▸ hvalid.sentOf, ?_⟩
          simp [fetchError?]
      | ok row =>
          have hgot : got ++ arrived (.ok row :: rest) = (got ++ [row]) ++ arrived rest := by
            simp [arrived]
          rw [hgot] at hnodup ⊢
          have hfresh : ∀ r ∈ taken ++ early, r.no ≠ row.no := by
            intro r hr heq
            have hsub : ((got ++ [row]).map (·.no)).Nodup :=
              hnodup.sublist ((List.sublist_append_left _ _).map _)
            rw [List.map_append, List.nodup_append'] at hsub
            exact hsub.2.2 (List.mem_map_of_mem (h.perm.mem_iff.mpr hr)) (by simp [heq])
          by_cases hno : row.no = next
          · -- the row is due: it is put, and the rows that waited for it after it
            have hearly : (early.map (·.no)).Nodup := by
              have hall : (got.map (·.no)).Nodup :=
                hnodup.sublist ((((List.sublist_append_left _ _).trans
                  (List.sublist_append_left _ _))).map _)
              have hall' := (h.perm.map (·.no)).nodup_iff.mp hall
              rw [List.map_append] at hall'
              exact hall'.of_append_right
            obtain ⟨taken', early', next', hdrain, hrun⟩ := drainEarly_spec p start stop le_rfl
              hearly (nextNo next) (putRow span.chunk p next row start stop)
            have hre := h.release hno hdrain
            have hchunk : putRow span.chunk p next row start stop ++
                taken'.flatMap (p.slice start stop) =
                  span.chunk ++ (row :: taken').flatMap (p.slice start stop) := by
              rw [← hno, putRow_eq, List.flatMap_cons, List.append_assoc]
            rw [hchunk] at hrun
            set chunk := span.chunk ++ (row :: taken').flatMap (p.slice start stop) with hc
            have hdelivered' : span.out.flatten ++ chunk =
                before ++ (taken ++ row :: taken').flatMap (p.slice start stop) := by
              rw [hc, ← List.append_assoc, ← Span.delivered, hdelivered, List.flatMap_append,
                List.append_assoc]
            have hstep : recvRows cut (fun _ => true) p start stop (.ok row :: rest) span early next =
                if cut ≤ chunk.length then
                  recvRows cut (fun _ => true) p start stop rest
                    ⟨[], span.sent + chunk.length, span.out ++ [chunk]⟩ early' next'
                else recvRows cut (fun _ => true) p start stop rest { span with chunk := chunk }
                  early' next' := by
              have hrun' : drainEarly p start stop early.length early (asI32 (next + 1))
                  (putRow span.chunk p next row start stop) = (early', next', chunk) := hrun
              rw [recvRows, if_neg (not_not.mpr hno)]
              simp only [hrun', ite_true]
            by_cases hflush : cut ≤ chunk.length
            · rw [hstep, if_pos hflush]
              refine @ih ⟨[], span.sent + chunk.length, span.out ++ [chunk]⟩ _ _ _ _ hre
                ⟨?_, ?_, hcut⟩ ?_ hnodup
              · simp [hvalid.sent_eq]
              · intro c hcmem
                rcases List.mem_append.mp hcmem with hcmem | hcmem
                · exact hvalid.full c hcmem
                · rw [List.mem_singleton.mp hcmem]
                  exact hflush
              · simpa [Span.delivered] using hdelivered'
            · rw [hstep, if_neg hflush]
              exact @ih { span with chunk := chunk } _ _ _ _ hre
                ⟨hvalid.sent_eq, hvalid.full, not_le.mp hflush⟩ hdelivered' hnodup
          · have hstep : recvRows cut (fun _ => true) p start stop (.ok row :: rest) span early next =
                recvRows cut (fun _ => true) p start stop rest span (early ++ [row]) next := by
              rw [recvRows, if_pos hno,
                insertEarly_of_fresh fun r hr => hfresh r (List.mem_append_right _ hr)]
            rw [hstep]
            exact ih (h.wait hno) hvalid hdelivered hnodup

/-! ## What pieces deliver -/

/-- The bytes that a piece contributes, and whether it is complete. -/
def Piece.outcome (start stop : ℤ) (p : Piece) (fetch : Fetch) : Bytes × Bool :=
  let rows := arrived fetch
  let (_, next, bytes) := drainEarly p start stop rows.length rows p.lo []
  (bytes, fetchError? fetch = none ∧ p.hi < next)

theorem Piece.outcome_eq {start stop : ℤ} {p : Piece} {fetch : Fetch}
    {taken early : List ChunkRow} {next : ℤ} (hnodup : ((arrived fetch).map (·.no)).Nodup)
    (h : Reassembled nextNo (·.no) p.lo (arrived fetch) taken early next) :
    p.outcome start stop fetch =
      (taken.flatMap (p.slice start stop), decide (fetchError? fetch = none ∧ p.hi < next)) := by
  obtain ⟨taken', early', next', hre, hrun⟩ :=
    drainEarly_spec p start stop le_rfl hnodup p.lo []
  obtain ⟨rfl, rfl⟩ := h.unique hre (List.Perm.refl _) hnodup
  simp [outcome, hrun]

/-- Pieces in order, up to the first that is not complete. -/
def piecesOutcome (start stop : ℤ) (spawn : Piece → Fetch) : List Piece → Bytes × Bool
  | [] => ([], true)
  | p :: rest =>
      let (bytes, complete) := p.outcome start stop (spawn p)
      if complete then
        (bytes ++ (piecesOutcome start stop spawn rest).1,
          (piecesOutcome start stop spawn rest).2)
      else (bytes, false)

theorem piecesOutcome_cons_of_complete {start stop : ℤ} {spawn : Piece → Fetch} {p : Piece}
    {rest : List Piece} (h : (p.outcome start stop (spawn p)).2 = true) :
    piecesOutcome start stop spawn (p :: rest) =
      ((p.outcome start stop (spawn p)).1 ++ (piecesOutcome start stop spawn rest).1,
        (piecesOutcome start stop spawn rest).2) := by
  simp [piecesOutcome, h]

theorem piecesOutcome_cons_of_incomplete {start stop : ℤ} {spawn : Piece → Fetch} {p : Piece}
    {rest : List Piece} (h : (p.outcome start stop (spawn p)).2 = false) :
    piecesOutcome start stop spawn (p :: rest) = ((p.outcome start stop (spawn p)).1, false) := by
  simp [piecesOutcome, h]

/-! ## The loop over pieces -/

/-- Up to `inflight` pieces run ahead, but they are drained in order. -/
theorem spanLoop_spec {inflight cut : ℕ} (hinflight : 0 < inflight) (hcut : 0 < cut) {spawn : Piece → Fetch}
    {start stop : ℤ} {fuel : ℕ} {running todo : List Piece} {span : Span}
    (hfuel : running.length + todo.length < fuel) (hvalid : span.Valid cut)
    (hnodup : ∀ p ∈ running ++ todo, ((arrived (spawn p)).map (·.no)).Nodup) :
    match spanLoop inflight cut (fun _ => true) spawn start stop fuel todo
      (running.map fun p => (p, spawn p)) span with
    | .ok span' => span'.Valid cut ∧ (piecesOutcome start stop spawn (running ++ todo)).2 = true ∧
        span'.delivered = span.delivered ++ (piecesOutcome start stop spawn (running ++ todo)).1
    | .error (out, e) => (∀ c ∈ out, cut ≤ c.length) ∧ e.isSome ∧
        (piecesOutcome start stop spawn (running ++ todo)).2 = false ∧
        SentOf cut out (span.delivered ++ (piecesOutcome start stop spawn (running ++ todo)).1) := by
  induction fuel generalizing running todo span with
  | zero => omega
  | succ fuel ih =>
      set room := inflight - running.length with hroom
      have hsplit : running ++ todo = (running ++ todo.take room) ++ todo.drop room := by
        rw [List.append_assoc, List.take_append_drop]
      have hlen : (running ++ todo.take room).length + (todo.drop room).length < fuel + 1 := by
        have := congrArg List.length hsplit
        simp only [List.length_append] at this ⊢
        omega
      have hrunning : running.map (fun p => (p, spawn p)) ++
          (todo.take room).map (fun p => (p, spawn p)) =
            (running ++ todo.take room).map fun p => (p, spawn p) := by
        rw [List.map_append]
      rw [hsplit] at hnodup ⊢
      rw [spanLoop, List.length_map, ← hroom, hrunning]
      cases hhead : running ++ todo.take room with
      | nil =>
          have htodo : todo.drop room = [] := by
            obtain ⟨rfl, htake⟩ := List.append_eq_nil_iff.mp hhead
            rcases List.take_eq_nil_iff.mp htake with hzero | rfl
            · simp at hroom
              omega
            · simp
          simp [htodo, hvalid, piecesOutcome]
      | cons p ready =>
          rw [hhead] at hnodup hlen
          have hone := @recvRows_spec cut hcut p start stop (spawn p) span _ _ _ _ span.delivered (.nil p.lo) hvalid
            (by simp)
            (by simpa using hnodup p (by simp))
          obtain ⟨taken, early, next, hre, hone⟩ := hone
          rw [List.nil_append] at hre
          have hout := @Piece.outcome_eq start stop p (spawn p) _ _ _ (hnodup p (by simp)) hre
          simp only [List.map_cons, List.cons_append]
          cases hrecv : recvRows cut (fun _ => true) p start stop (spawn p) span [] p.lo with
          | error r =>
              obtain ⟨out, e⟩ := r
              rw [hrecv] at hone
              obtain ⟨hfull, he, hpre, hnot⟩ := hone
              rw [piecesOutcome_cons_of_incomplete (by rw [hout]; exact decide_eq_false hnot), hout]
              exact ⟨hfull, he, rfl, hpre⟩
          | ok span' =>
              rw [hrecv] at hone
              obtain ⟨hvalid', hdel, hdone⟩ := hone
              rw [piecesOutcome_cons_of_complete (by rw [hout]; exact decide_eq_true hdone), hout,
                ← List.append_assoc, ← hdel]
              refine ih ?_ hvalid' ?_
              · simp only [List.length_cons] at hlen
                omega
              · exact fun q hq => hnodup q (List.mem_cons_of_mem _ hq)

/-- `stream_span` sends what its pieces deliver but for its open chunk, all of it when it
reports no error, and it reports none exactly when every piece is complete and the bytes
fill the range. -/
theorem streamSpanOf_spec {step inflight cut : ℕ} (hinflight : 0 < inflight) (hcut : 0 < cut)
    {spawn : Piece → Fetch} {m : Meta} {start stop : ℤ} {out : List Bytes}
    {e : Option ReadError} (hrun : streamSpanOf step inflight cut (fun _ => true) spawn m start stop = (out, e))
    (hnodup : ∀ p ∈ plan m start stop step, ((arrived (spawn p)).map (·.no)).Nodup) :
    (∀ c ∈ out, c ≠ []) ∧
      SentOf cut out (piecesOutcome start stop spawn (plan m start stop step)).1 ∧
      (e = none ↔ (piecesOutcome start stop spawn (plan m start stop step)).2 = true ∧
        ((piecesOutcome start stop spawn (plan m start stop step)).1.length : ℤ) =
          stop - start + 1) ∧
      (e = none →
        out.flatten = (piecesOutcome start stop spawn (plan m start stop step)).1) := by
  set pieces := plan m start stop step with hpieces
  have hne : ∀ {l : List Bytes}, (∀ c ∈ l, cut ≤ c.length) → ∀ c ∈ l, c ≠ [] := by
    rintro l hl c hc rfl
    exact (hcut.trans_le (hl [] hc)).ne rfl
  have hloop := @spanLoop_spec inflight cut hinflight hcut spawn start stop (pieces.length + 1) [] pieces
    ⟨[], 0, []⟩ (by simp) ⟨by simp, by simp, hcut⟩ (by simpa using hnodup)
  rw [List.map_nil, List.nil_append] at hloop
  simp only [streamSpanOf, ← hpieces] at hrun
  cases hres : spanLoop inflight cut (fun _ => true) spawn start stop (pieces.length + 1) pieces []
      ⟨[], 0, []⟩ with
  | error r =>
      rw [hres] at hrun hloop
      subst hrun
      obtain ⟨hfull, he, hstop, hpre⟩ := hloop
      refine ⟨hne hfull, by simpa [Span.delivered] using hpre, ?_, ?_⟩
      · simp only [hstop]
        constructor
        · rintro rfl
          simp at he
        · simp
      · rintro rfl
        simp at he
  | ok span =>
      rw [hres] at hrun hloop
      obtain ⟨hvalid, hall, hdel⟩ := hloop
      have hdel : span.delivered = (piecesOutcome start stop spawn pieces).1 := by
        simpa [Span.delivered] using hdel
      have hgot : span.sent + span.chunk.length =
          ((piecesOutcome start stop spawn pieces).1.length : ℤ) := by
        rw [← hdel, Span.delivered, List.length_append, hvalid.sent_eq]
        push_cast
        rfl
      simp only [hgot] at hrun
      have hpre : SentOf cut span.out (piecesOutcome start stop spawn pieces).1 :=
        hdel ▸ hvalid.sentOf
      split at hrun
      · rename_i hshort
        cases hrun
        exact ⟨hne hvalid.full, hpre, by simp [hshort], by simp⟩
      · rename_i hsize
        rw [not_not] at hsize
        split at hrun
        · rename_i hchunk
          cases hrun
          have hwhole : (span.out ++ [span.chunk]).flatten =
              (piecesOutcome start stop spawn pieces).1 := by
            rw [← hdel, Span.delivered]
            simp
          have hlast : SentOf cut (span.out ++ [span.chunk]) (piecesOutcome start stop spawn pieces).1 :=
            ⟨hwhole ▸ List.prefix_refl _, hwhole ▸ Nat.lt_add_of_pos_right hcut⟩
          refine ⟨?_, hlast, by simp [hall, hsize], fun _ => hwhole⟩
          intro c hc
          rcases List.mem_append.mp hc with hc | hc
          · exact hne hvalid.full c hc
          · rw [List.mem_singleton.mp hc]
            exact hchunk.1
        · rename_i hchunk
          cases hrun
          have hnil : span.chunk = [] := by simpa using hchunk
          refine ⟨hne hvalid.full, hpre, by simp [hall, hsize], fun _ => ?_⟩
          rw [← hdel, Span.delivered, hnil, List.append_nil]

theorem streamSpan_spec {spawn : Piece → Fetch} {m : Meta} {start stop : ℤ} {out : List Bytes}
    {e : Option ReadError} (hrun : streamSpan (fun _ => true) spawn m start stop = (out, e))
    (hnodup : ∀ p ∈ plan m start stop partRows, ((arrived (spawn p)).map (·.no)).Nodup) :
    (∀ c ∈ out, c ≠ []) ∧
      SentOf chunkSize out (piecesOutcome start stop spawn (plan m start stop partRows)).1 ∧
      (e = none ↔ (piecesOutcome start stop spawn (plan m start stop partRows)).2 = true ∧
        ((piecesOutcome start stop spawn (plan m start stop partRows)).1.length : ℤ) =
          stop - start + 1) ∧
      (e = none →
        out.flatten = (piecesOutcome start stop spawn (plan m start stop partRows)).1) :=
  streamSpanOf_spec (by decide) chunkSize_pos hrun hnodup

/-! ## How much is sent -/

theorem recvRows_sent {cut : ℕ} {open? : ℕ → Bool} {p : Piece} {start stop : ℤ} {fetch : Fetch}
    {span span' : Span} {early : List ChunkRow} {next : ℤ}
    (h : span.sent = span.out.flatten.length)
    (hrun : recvRows cut open? p start stop fetch span early next = .ok span') :
    span'.sent = span'.out.flatten.length := by
  induction fetch generalizing span early next with
  | nil =>
      rw [recvRows] at hrun
      split at hrun
      · cases hrun
        exact h
      · cases hrun
  | cons message rest ih =>
      cases message with
      | error e => cases hrun
      | ok row =>
          rw [recvRows] at hrun
          dsimp only at hrun
          split at hrun
          · exact ih h hrun
          · split at hrun
            · split at hrun
              · refine ih ?_ hrun
                simp [h]
              · cases hrun
            · exact ih (by exact h) hrun

theorem recvRows_fails {cut : ℕ} {p : Piece} {start stop : ℤ} {fetch : Fetch} {span : Span}
    {early : List ChunkRow} {next : ℤ} {r : SpanStop}
    (hrun : recvRows cut (fun _ => true) p start stop fetch span early next = .error r) :
    r.2.isSome := by
  induction fetch generalizing span early next with
  | nil =>
      rw [recvRows] at hrun
      split at hrun
      · cases hrun
      · cases hrun
        rfl
  | cons message rest ih =>
      cases message with
      | error e =>
          cases hrun
          rfl
      | ok row =>
          rw [recvRows] at hrun
          dsimp only at hrun
          split at hrun
          · exact ih hrun
          · split at hrun
            · exact ih hrun
            · exact ih hrun

theorem spanLoop_sent {inflight cut : ℕ} {open? : ℕ → Bool} {spawn : Piece → Fetch}
    {start stop : ℤ} {fuel : ℕ} {todo : List Piece} {running : List (Piece × Fetch)}
    {span span' : Span} (h : span.sent = span.out.flatten.length)
    (hrun : spanLoop inflight cut open? spawn start stop fuel todo running span = .ok span') :
    span'.sent = span'.out.flatten.length := by
  induction fuel generalizing todo running span with
  | zero =>
      cases hrun
      exact h
  | succ fuel ih =>
      rw [spanLoop] at hrun
      split at hrun
      · cases hrun
        exact h
      · split at hrun
        · cases hrun
        · rename_i hrecv
          exact ih (recvRows_sent h hrecv) hrun

theorem spanLoop_fails {inflight cut : ℕ} {spawn : Piece → Fetch} {start stop : ℤ} {fuel : ℕ}
    {todo : List Piece} {running : List (Piece × Fetch)} {span : Span} {r : SpanStop}
    (hrun : spanLoop inflight cut (fun _ => true) spawn start stop fuel todo running span =
      .error r) : r.2.isSome := by
  induction fuel generalizing todo running span with
  | zero => cases hrun
  | succ fuel ih =>
      rw [spanLoop] at hrun
      split at hrun
      · cases hrun
      · split at hrun
        · rename_i hrecv
          cases hrun
          exact recvRows_fails hrecv
        · exact ih hrun

/-- While the receiver stays, no error means that as many bytes were sent as the range has,
whatever the queries return. -/
theorem streamSpan_length {spawn : Piece → Fetch} {m : Meta} {start stop : ℤ} {out : List Bytes}
    (hrun : streamSpan (fun _ => true) spawn m start stop = (out, none)) :
    (out.flatten.length : ℤ) = stop - start + 1 := by
  unfold streamSpan streamSpanOf at hrun
  dsimp only at hrun
  split at hrun
  · rename_i r hloop
    have hfails := spanLoop_fails hloop
    rw [hrun] at hfails
    cases hfails
  · rename_i span hloop
    have hsent := spanLoop_sent (by simp) hloop
    split at hrun
    · cases hrun
    · rename_i hsize
      rw [not_not] at hsize
      split at hrun
      · cases hrun
        simp only [List.flatten_append, List.flatten_singleton, List.length_append]
        push_cast
        omega
      · rename_i hchunk
        cases hrun
        have hnil : span.chunk = [] := by simpa using hchunk
        rw [hnil] at hsize
        simp only [List.length_nil] at hsize
        omega

end Pgvs3
