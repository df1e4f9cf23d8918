import Pgvs3.Verification.Read.GetBody

/-! # GETs with a stale cache entry

The rows of a replaced version are gone, so a GET with its metadata fails before its first
byte and looks the key up again. A version without bytes has no rows that could be missing. -/

namespace Pgvs3

open Library

/-! ## Metadata of a version whose rows are gone -/

section Dead

variable {written : ℤ → Bytes} {files : List ℤ} {m : Meta} {spawn : Piece → Fetch}
  {first last suffix : ℤ}

theorem piecesOutcome_no_rows {start stop : ℤ} {pieces : List Piece}
    (h : ∀ p ∈ pieces, spawn p = []) : (piecesOutcome start stop spawn pieces).1 = [] := by
  induction pieces with
  | nil => rfl
  | cons p pieces ih =>
      have hp : (p.outcome start stop (spawn p)).1 = [] := by
        rw [h p (by simp)]
        rfl
      have hrest := ih fun q hq => h q (List.mem_cons_of_mem _ hq)
      cases hc : (p.outcome start stop (spawn p)).2 with
      | false => rw [piecesOutcome_cons_of_incomplete hc, hp]
      | true => rw [piecesOutcome_cons_of_complete hc, hp, hrest, List.append_nil]

theorem streamSpan_no_rows {start stop : ℤ} (h : m.Describes written files)
    (hspawn : ∀ p : Piece, p.fileId ∈ files → spawn p = []) (hrange : start ≤ stop) :
    ∃ e, streamSpan (fun _ => true) spawn m start stop = ([], some e) := by
  have hplan : ∀ p ∈ plan m start stop partRows, spawn p = [] := by
    rw [plan_eq, h.segments_eq]
    exact fun p hp => hspawn p (layout_fileId p hp)
  cases hrun : streamSpan (fun _ => true) spawn m start stop with
  | mk out e =>
      obtain ⟨hne, ⟨hpre, -⟩, hiff, -⟩ := streamSpan_spec hrun fun p hp => by
        rw [hplan p hp]
        exact List.nodup_nil
      rw [piecesOutcome_no_rows hplan] at hpre hiff
      have hout : out = [] := by
        rw [List.prefix_nil, List.flatten_eq_nil_iff] at hpre
        exact List.eq_nil_iff_forall_not_mem.mpr fun c hc => hne c hc (hpre c hc)
      cases e with
      | none =>
          have := (hiff.mp rfl).2
          simp only [List.length_nil] at this
          omega
      | some e => exact ⟨e, by rw [hout]⟩

/-- Metadata of a non-empty version without rows makes the first attempt try again. -/
theorem retries_of_no_rows (h : m.Describes written files) (hsize : m.size ≠ 0)
    (hspawn : ∀ p : Piece, p.fileId ∈ files → spawn p = []) :
    (bogusRange m first last suffix || failsFirst m spawn first last suffix) = true := by
  cases hbogus : bogusRange m first last suffix with
  | true => rfl
  | false =>
      have hpos : m.size > 0 := by
        have := h.size_eq
        omega
      have hfits : (effRange m.size first last suffix).1 ≤
          (effRange m.size first last suffix).2 := by
        simp only [bogusRange, decide_eq_false_iff_not, not_and, not_or, not_lt] at hbogus
        exact (hbogus hpos).1
      obtain ⟨e, hrun⟩ := streamSpan_no_rows h hspawn hfits
      have hlen : (m.sliceMeta first last suffix).len ≠ 0 := by
        change max ((effRange m.size first last suffix).2 -
          (effRange m.size first last suffix).1 + 1) 0 ≠ 0
        omega
      simp [failsFirst, hlen, Meta.stream, hrun, spanMessages, startsWithError]

end Dead

/-- Metadata of an empty version is served as it is. -/
theorem serve_empty {m : Meta} (hsize : m.size = 0) (spawn : Piece → Fetch)
    (first last suffix : ℤ) :
    (bogusRange m first last suffix || failsFirst m spawn first last suffix) = false ∧
      (serve m spawn first last suffix).slice =
        .ok (some ⟨0, m.etag, m.createdAt, (effRange 0 first last suffix).1,
          (effRange 0 first last suffix).2, []⟩) := by
  have hlen : (m.sliceMeta first last suffix).len = 0 := by
    obtain ⟨hlo, hhi⟩ := @effRange_bounds first last suffix m.size
    change max ((effRange m.size first last suffix).2 -
      (effRange m.size first last suffix).1 + 1) 0 = 0
    omega
  constructor
  · simp [bogusRange, failsFirst, hlen, hsize]
  · rw [serve, if_pos hlen, ← hsize]
    rfl

theorem serve_size {m : Meta} {spawn : Piece → Fetch} {first last suffix : ℤ} {s : Slice}
    (h : (serve m spawn first last suffix).slice = .ok (some s)) : s.size = m.size := by
  have hserved : ∀ body : PieceBody,
      (GetResult.served (m.sliceMeta first last suffix) body).slice = .ok (some s) →
        s.size = m.size := by
    intro body hbody
    simp only [GetResult.slice] at hbody
    split at hbody
    · cases hbody
      rfl
    · cases hbody
  unfold serve at h
  split at h
  · exact hserved _ h
  · unfold answer at h
    split at h
    · cases h
    · cases h
    · split at h <;> exact hserved _ h

/-! ## Comparing two GETs -/

/-- What a client can compare of a slice. -/
def Slice.visible (s : Slice) : ℤ × Bytes × ℤ × ℤ × Bytes :=
  (s.size, s.etag, s.start, s.stop, s.bytes)

/-- Both absent, or both served with the same size, ETag, range and bytes, or both failed. -/
def sameResult : Except ReadError (Option Slice) → Except ReadError (Option Slice) → Prop
  | .ok none, .ok none => True
  | .ok (some s), .ok (some t) => s.visible = t.visible
  | .error _, .error _ => True
  | _, _ => False

theorem sameResult_refl (r : Except ReadError (Option Slice)) : sameResult r r := by
  rcases r with e | _ | s <;> trivial

/-- One GET with the metadata of a replaced version in the cache, and one without any, of a
store at rest whose piece queries return their rows in some fixed order. -/
structure StaleGet (sha256 : Bytes → Bytes) (db : Db) (bucket key : Text) (q : ObjectRow)
    (spawn : Piece → Fetch) (env env' : Fin 2 → Attempt) (c c' : MetaCache) : Prop where
  history : ∃ before since, q ∈ (run sha256 Db.empty before).objects ∧
    db = run sha256 Db.empty (before ++ since)
  key_eq : q.primaryKey = (bucket, key)
  replaced : q ∉ db.objects
  atRest : ∀ i, AtRest db bucket key (env i) ∧ AtRest db bucket key (env' i)
  spawn_eq : ∀ i, (env i).spawn = spawn ∧ (env' i).spawn = spawn
  stale : ∃ now, c.get bucket key = some (q.metaAt now)
  fresh : c'.get bucket key = none

section StaleGet

variable {sha256 : Bytes → Bytes} {db : Db} {bucket key : Text} {q : ObjectRow}
  {spawn : Piece → Fetch} {env env' : Fin 2 → Attempt} {c c' : MetaCache}

/-- The replaced version had metadata that fits its files, and they have no rows left. -/
theorem StaleGet.dead (h : StaleGet sha256 db bucket key q spawn env env' c c') :
    (∃ written, ∀ now, (q.metaAt now).Describes written q.files) ∧
      ∀ p : Piece, p.fileId ∈ q.files → spawn p = [] := by
  obtain ⟨before, since, hq, hdb⟩ := h.history
  have hc : Consistent sha256 (Ledger.empty.run sha256 before) := consistent_empty.run _
  have hbefore : (Ledger.empty.run sha256 before).db = run sha256 Db.empty before :=
    ledger_run_db _ _ _
  refine ⟨⟨_, (hc.objects q (hbefore ▸ hq)).describesAt⟩, fun p hp => ?_⟩
  have hrun : Trace (Step sha256) (run sha256 Db.empty before) since db := by
    rw [trace_iff_run, hdb]
    simp [run, List.foldl_append]
  have hfate : RowFate q db := RowFate.trace (owned_run sha256 before) (.inl hq) hrun
  have howned : Owned db := (owned_run sha256 before).trace hrun
  obtain ⟨rows, hperm, hspawn⟩ := (h.atRest 0).1.spawn_perm p
  rw [(h.spawn_eq 0).1] at hspawn
  have hnone : selectRows db p = [] := by
    rw [List.eq_nil_iff_forall_not_mem]
    intro r hr
    obtain ⟨hmem, hf, -⟩ := mem_selectRows.mp hr
    rcases hfate with hstill | hdead
    · exact h.replaced hstill
    · exact (hdead _ hp).2 (hf ▸ howned.covered r hmem)
  rw [hnone, List.perm_nil] at hperm
  rw [hspawn, hperm, List.map_nil]

theorem StaleGet.get_fresh (h : StaleGet sha256 db bucket key q spawn env env' c c')
    (first last suffix : ℤ) :
    get env' bucket key first last suffix c' =
      match db.objects.find? (bucket, key) with
      | none => .ok none
      | some r => (serve r.meta spawn first last suffix).slice := by
  have hlookup := (h.atRest 0).2.lookupMeta_none h.fresh
  have hsecond : ∀ {c₁ : MetaCache} {retry}, c₁.get bucket key = none →
      (getAttempt 1 (env' 1) bucket key first last suffix retry c₁).1 = _ := fun hc₁ =>
    (h.atRest 1).2.second hc₁
  rw [get_eq, getBody]
  cases hl : lookupMeta ((env' 0).touch c') bucket key (env' 0).lookup with
  | mk res c₁ =>
      rw [hl] at hlookup
      cases hfind : db.objects.find? (bucket, key) with
      | none =>
          rw [hfind] at hlookup
          simp only at hlookup
          subst hlookup
          rw [getAttempt_absent hl]
          rfl
      | some r =>
          rw [hfind] at hlookup
          simp only at hlookup
          subst hlookup
          rw [getAttempt_zero hl]
          split
          · rw [hsecond (by simp), hfind, (h.spawn_eq 1).2]
          · rw [(h.spawn_eq 0).2]

theorem StaleGet.get_stale (h : StaleGet sha256 db bucket key q spawn env env' c c')
    (first last suffix : ℤ) :
    ∃ now, get env bucket key first last suffix c =
      if q.size = 0 then .ok (some ⟨0, q.etag, now, (effRange 0 first last suffix).1,
        (effRange 0 first last suffix).2, []⟩)
      else
        match db.objects.find? (bucket, key) with
        | none => .ok none
        | some r => (serve r.meta spawn first last suffix).slice := by
  obtain ⟨⟨written, hdescribes⟩, hspawn⟩ := h.dead
  obtain ⟨now, hstale⟩ := h.stale
  have hlookup := (h.atRest 0).1.lookupMeta_some hstale
  refine ⟨now, ?_⟩
  rw [get_eq, getBody, getAttempt_zero hlookup, (h.spawn_eq 0).1]
  by_cases hsize : q.size = 0
  · obtain ⟨hno, hserve⟩ := serve_empty (m := q.metaAt now) hsize spawn first last suffix
    rw [hno, if_pos hsize, if_neg (by simp)]
    exact hserve
  · rw [retries_of_no_rows (hdescribes now) hsize hspawn, if_pos rfl, if_neg hsize,
      (h.atRest 1).1.second (by simp), (h.spawn_eq 1).1]
    cases db.objects.find? (bucket, key) <;> rfl

/-- A stale entry is invisible exactly when the version it describes was not empty, or the
current version is empty too and has the same ETag. -/
theorem stale_get_same_iff (h : StaleGet sha256 db bucket key q spawn env env' c c')
    (first last suffix : ℤ) :
    sameResult (get env bucket key first last suffix c)
        (get env' bucket key first last suffix c') ↔
      q.size ≠ 0 ∨ ∃ r ∈ db.objects, r.primaryKey = (bucket, key) ∧ r.size = 0 ∧ r.etag = q.etag := by
  obtain ⟨now, hstale⟩ := h.get_stale first last suffix
  rw [hstale, h.get_fresh]
  by_cases hsize : q.size = 0
  · rw [if_pos hsize]
    simp only [hsize, ne_eq, not_true_eq_false, false_or]
    cases hfind : db.objects.find? (bucket, key) with
    | none =>
        constructor
        · intro hsame
          exact hsame.elim
        · rintro ⟨r, hr, hk, -⟩
          exact (Table.find?_eq_none_iff.mp hfind r hr hk).elim
    | some r =>
        obtain ⟨hr, hk⟩ := Table.find?_eq_some_iff.mp hfind
        dsimp only
        constructor
        · intro hsame
          cases hserve : (serve r.meta spawn first last suffix).slice with
          | error e =>
              rw [hserve] at hsame
              exact hsame.elim
          | ok s =>
              cases s with
              | none =>
                  rw [hserve] at hsame
                  exact hsame.elim
              | some s =>
                  rw [hserve] at hsame
                  have hvisible : (0, q.etag, _) = (s.size, s.etag, _) := hsame
                  have hzero : r.size = 0 :=
                    (serve_size hserve).symm.trans (congrArg Prod.fst hvisible).symm
                  have hempty := (serve_empty (m := r.meta) hzero spawn first last suffix).2
                  rw [hserve, Except.ok.injEq, Option.some.injEq] at hempty
                  subst hempty
                  exact ⟨r, hr, hk, hzero, (congrArg (·.2.1) hvisible).symm⟩
        · rintro ⟨r', hr', hk', hzero, hetag⟩
          obtain rfl := Table.eq_of_key hr hr' (hk.trans hk'.symm)
          rw [(serve_empty (m := r.meta) hzero spawn first last suffix).2]
          change (0, q.etag, _) = (0, r.etag, _)
          rw [hetag]
  · rw [if_neg hsize]
    simp only [hsize, ne_eq, not_false_eq_true, true_or, iff_true]
    exact sameResult_refl _

end StaleGet

/-! ## Fixed stores -/

/-- An attempt on `db` at rest whose rows arrive in table order. -/
def attemptOn (db : Db) (bucket key : Text) : Attempt where
  touch := id
  lookup := .ok ((db.objects.find? (bucket, key)).map ObjectRow.meta)
  spawn := fun p => (selectRows db p).map .ok

theorem atRest_attemptOn (db : Db) (bucket key : Text) :
    AtRest db bucket key (attemptOn db bucket key) where
  touch_eq := fun _ => rfl
  lookup_eq := rfl
  spawn_perm := fun p => ⟨selectRows db p, List.Perm.refl _, rfl⟩

def overwriteRun (old new : List Bytes) : List Op × List Op :=
  ([.createBucket 0 ['b'], .put 1 ['b'] ['k'] .unconditional old],
    [.put 2 ['b'] ['k'] .unconditional new])

def overwritten (old new : List Bytes) : Db :=
  run id Db.empty ((overwriteRun old new).1 ++ (overwriteRun old new).2)

def firstRow (old : List Bytes) : ObjectRow :=
  (putWrite id 1 .unconditional old.flatten).row 1 ['b'] ['k']

theorem staleGet_overwritten {old new : List Bytes} (now : ℤ)
    (hq : firstRow old ∈ (run id Db.empty (overwriteRun old new).1).objects)
    (hgone : firstRow old ∉ (overwritten old new).objects) :
    StaleGet id (overwritten old new) ['b'] ['k'] (firstRow old)
      (attemptOn (overwritten old new) ['b'] ['k']).spawn
      (fun _ => attemptOn (overwritten old new) ['b'] ['k'])
      (fun _ => attemptOn (overwritten old new) ['b'] ['k'])
      (MetaCache.empty.put metaCap ['b'] ['k'] ((firstRow old).metaAt now)) MetaCache.empty where
  history := ⟨_, _, hq, rfl⟩
  key_eq := rfl
  replaced := hgone
  atRest := fun _ => ⟨atRest_attemptOn _ _ _, atRest_attemptOn _ _ _⟩
  spawn_eq := fun _ => ⟨rfl, rfl⟩
  stale := ⟨now, rfl⟩
  fresh := rfl

theorem stale_get_same_one_byte :
    sameResult
        (get (fun _ => attemptOn (overwritten [[1]] [[2, 3]]) ['b'] ['k']) ['b'] ['k'] 0 (-1) (-1)
          (MetaCache.empty.put metaCap ['b'] ['k'] ((firstRow [[1]]).metaAt 3)))
        (get (fun _ => attemptOn (overwritten [[1]] [[2, 3]]) ['b'] ['k']) ['b'] ['k'] 0 (-1) (-1)
          MetaCache.empty) ↔
      (firstRow [[1]]).size ≠ 0 ∨ ∃ r ∈ (overwritten [[1]] [[2, 3]]).objects,
        r.primaryKey = (['b'], ['k']) ∧ r.size = 0 ∧ r.etag = (firstRow [[1]]).etag :=
  stale_get_same_iff (staleGet_overwritten 3 (by decide +kernel) (by decide +kernel)) 0 (-1) (-1)

/-- An empty object overwritten with one byte: the stale entry answers with size 0. -/
theorem stale_empty_object_served :
    ¬ ∀ (sha256 : Bytes → Bytes) (db : Db) (bucket key : Text) (q : ObjectRow)
      (spawn : Piece → Fetch) (env env' : Fin 2 → Attempt) (c c' : MetaCache)
      (first last suffix : ℤ), StaleGet sha256 db bucket key q spawn env env' c c' →
        sameResult (get env bucket key first last suffix c)
          (get env' bucket key first last suffix c') := by
  intro hall
  have hsame := hall id _ _ _ _ _ _ _ _ _ 0 (-1) (-1)
    (@staleGet_overwritten [] [[1]] 1 (by decide +kernel) (by decide +kernel))
  have hfresh : get (fun _ => attemptOn (overwritten [] [[1]]) ['b'] ['k']) ['b'] ['k'] 0 (-1) (-1)
      MetaCache.empty = .ok (some ⟨1, [1], 2, 0, 0, [1]⟩) := by decide +kernel
  have hstale : get (fun _ => attemptOn (overwritten [] [[1]]) ['b'] ['k']) ['b'] ['k'] 0 (-1) (-1)
      (MetaCache.empty.put metaCap ['b'] ['k'] ((firstRow []).metaAt 1)) =
        .ok (some ⟨0, [], 1, 0, -1, []⟩) := by decide +kernel
  rw [hfresh, hstale] at hsame
  exact absurd (congrArg Prod.fst hsame) (by decide)

end Pgvs3
