import Pgvs3.Verification.Read.Outcome
import Pgvs3.Verification.Store.History

/-! # The two attempts of a GET

Each attempt either serves with the metadata it found or, the first time only, drops it
and tries again. -/

namespace Pgvs3

open Library

section Attempt

variable {m : Meta} {spawn : Piece → Fetch} {first last suffix : ℤ}

/-- The response metadata of a range of an object with metadata `m`. -/
def Meta.sliceMeta (m : Meta) (first last suffix : ℤ) : SliceMeta :=
  ⟨m.size, m.etag, m.createdAt, m.fileId, (effRange m.size first last suffix).1,
    (effRange m.size first last suffix).2⟩

/-- The messages of the stream that an attempt starts. -/
def Meta.stream (m : Meta) (spawn : Piece → Fetch) (first last suffix : ℤ) :
    List (Except ReadError Bytes) :=
  spanMessages (streamSpan (fun _ => true) spawn m (effRange m.size first last suffix).1
    (effRange m.size first last suffix).2)

/-- The answer to a request whose stream delivers `messages`. -/
def answer (s : SliceMeta) (messages : List (Except ReadError Bytes)) : GetResult :=
  match messages with
  | [] => .failed .endedBeforeData
  | .error e :: _ => .failed e
  | .ok head :: rest =>
      if (head.length : ℤ) = s.len then .served s (.oneShot head)
      else .served s (.streamed head rest)

/-- What an attempt answers with metadata `m` when it does not try again. -/
def serve (m : Meta) (spawn : Piece → Fetch) (first last suffix : ℤ) : GetResult :=
  if (m.sliceMeta first last suffix).len = 0 then
    .served (m.sliceMeta first last suffix) (.oneShot [])
  else answer (m.sliceMeta first last suffix) (m.stream spawn first last suffix)

/-- The range does not fit the size in `m`, which may be stale. -/
def bogusRange (m : Meta) (first last suffix : ℤ) : Bool :=
  m.size > 0 ∧ ((effRange m.size first last suffix).1 > (effRange m.size first last suffix).2 ∨
    (effRange m.size first last suffix).1 ≥ m.size)

def startsWithError : List (Except ReadError Bytes) → Bool
  | .error _ :: _ => true
  | _ => false

/-- The stream fails before its first byte. -/
def failsFirst (m : Meta) (spawn : Piece → Fetch) (first last suffix : ℤ) : Bool :=
  (m.sliceMeta first last suffix).len ≠ 0 ∧
    startsWithError (m.stream spawn first last suffix) = true

variable {env : Attempt} {bucket key : Text} {retry : MetaCache → GetResult × MetaCache}
  {c c' : MetaCache}

theorem getAttempt_absent {attempt : ℕ}
    (h : lookupMeta (env.touch c) bucket key env.lookup = (.ok none, c')) :
    getAttempt attempt env bucket key first last suffix retry c = (.absent, c') := by
  simp only [getAttempt, h]

theorem getAttempt_error {attempt : ℕ} {e : ReadError}
    (h : lookupMeta (env.touch c) bucket key env.lookup = (.error e, c')) :
    getAttempt attempt env bucket key first last suffix retry c = (.failed e, c') := by
  simp only [getAttempt, h]

/-- An attempt that finds metadata, case by case. -/
theorem getAttempt_some {attempt : ℕ}
    (h : lookupMeta (env.touch c) bucket key env.lookup = (.ok (some m), c')) :
    getAttempt attempt env bucket key first last suffix retry c =
      if bogusRange m first last suffix = true ∧ attempt = 0 then retry (c'.invalidate bucket key)
      else if failsFirst m env.spawn first last suffix = true ∧ attempt ≠ 1 then
        retry (c'.invalidate bucket key)
      else (serve m env.spawn first last suffix,
        if failsFirst m env.spawn first last suffix then c'.invalidate bucket key else c') := by
  have hbogus : bogusRange m first last suffix = true ∧ attempt = 0 ↔ m.size > 0 ∧
      ((effRange m.size first last suffix).1 > (effRange m.size first last suffix).2 ∨
        (effRange m.size first last suffix).1 ≥ m.size) ∧ attempt = 0 := by
    simp [bogusRange, and_assoc]
  simp only [getAttempt, h, hbogus]
  split
  · rfl
  · change (if (m.sliceMeta first last suffix).len = 0 then _ else
      match m.stream env.spawn first last suffix with
      | [] => _ | .error e :: _ => _ | .ok head :: rest => _) = _
    unfold serve failsFirst
    by_cases hlen : (m.sliceMeta first last suffix).len = 0
    · simp [hlen]
      rfl
    · cases hmsg : m.stream env.spawn first last suffix with
      | nil => simp [hlen, startsWithError, answer]
      | cons message rest =>
          cases message with
          | error e =>
              by_cases h1 : attempt = 1 <;> simp [hlen, startsWithError, answer, h1]
          | ok head =>
              simp only [hlen, startsWithError, answer, if_false, Bool.false_eq_true, and_false,
                false_and, decide_false]
              change (if (head.length : ℤ) = (m.sliceMeta first last suffix).len then _ else _) = _
              split <;> rfl

theorem getAttempt_one
    (h : lookupMeta (env.touch c) bucket key env.lookup = (.ok (some m), c')) :
    (getAttempt 1 env bucket key first last suffix retry c).1 =
      serve m env.spawn first last suffix := by
  rw [getAttempt_some h, if_neg (by simp), if_neg (by simp)]

/-- The first attempt tries again on a range that does not fit and on an early failure. -/
theorem getAttempt_zero
    (h : lookupMeta (env.touch c) bucket key env.lookup = (.ok (some m), c')) :
    getAttempt 0 env bucket key first last suffix retry c =
      if bogusRange m first last suffix || failsFirst m env.spawn first last suffix then
        retry (c'.invalidate bucket key)
      else (serve m env.spawn first last suffix, c') := by
  rw [getAttempt_some h]
  cases bogusRange m first last suffix <;> cases failsFirst m env.spawn first last suffix <;> simp

/-- What a GET serves, it serves from metadata that one of its attempts found. -/
theorem getBody_served {env : Fin 2 → Attempt} {s : SliceMeta} {body : PieceBody}
    (h : (getBody env bucket key first last suffix c).1 = .served s body) :
    ∃ (i : Fin 2) (m : Meta) (c₁ c₂ : MetaCache), (c₁ = c ∨ c₁.get bucket key = none) ∧
      lookupMeta ((env i).touch c₁) bucket key (env i).lookup = (.ok (some m), c₂) ∧
      serve m (env i).spawn first last suffix = .served s body := by
  have hsecond : ∀ {c' : MetaCache} {retry},
      (getAttempt 1 (env 1) bucket key first last suffix retry (c'.invalidate bucket key)).1 =
        .served s body →
      ∃ (i : Fin 2) (m : Meta) (c₁ c₂ : MetaCache), (c₁ = c ∨ c₁.get bucket key = none) ∧
        lookupMeta ((env i).touch c₁) bucket key (env i).lookup = (.ok (some m), c₂) ∧
        serve m (env i).spawn first last suffix = .served s body := by
    intro c' retry h
    cases hl : lookupMeta ((env 1).touch (c'.invalidate bucket key)) bucket key (env 1).lookup with
    | mk res c₂ =>
        rcases res with e | _ | m
        · rw [getAttempt_error hl] at h
          cases h
        · rw [getAttempt_absent hl] at h
          cases h
        · rw [getAttempt_one hl] at h
          exact ⟨1, m, _, _, .inr (by simp), hl, h⟩
  unfold getBody at h
  cases hl : lookupMeta ((env 0).touch c) bucket key (env 0).lookup with
  | mk res c' =>
      rcases res with e | _ | m
      · rw [getAttempt_error hl] at h
        cases h
      · rw [getAttempt_absent hl] at h
        cases h
      · rw [getAttempt_zero hl] at h
        split at h
        · exact hsecond h
        · exact ⟨0, m, _, _, .inl rfl, hl, h⟩

/-! ## Ranges -/

theorem effRange_bounds (size : ℤ) :
    0 ≤ (effRange size first last suffix).1 ∧ (effRange size first last suffix).2 < size := by
  unfold effRange
  split
  · constructor <;> dsimp only <;> omega
  · dsimp only
    split <;> constructor <;> omega

/-! ## Buffered results -/

/-- The buffered form of a result, as `get` returns it. -/
def GetResult.slice : GetResult → Except ReadError (Option Slice)
  | .absent => .ok none
  | .failed e => .error e
  | .served s body =>
      match collect body.messages with
      | .ok bytes => .ok (some ⟨s.size, s.etag, s.createdAt, s.start, s.stop, bytes⟩)
      | .error e => .error e

theorem get_eq (env : Fin 2 → Attempt) (bucket key : Text) (first last suffix : ℤ)
    (c : MetaCache) : get env bucket key first last suffix c =
      (getBody env bucket key first last suffix c).1.slice := by
  unfold get GetResult.slice
  cases (getBody env bucket key first last suffix c).1 <;> rfl

theorem collect_map_ok (out : List Bytes) : collect (out.map .ok) = .ok out.flatten := by
  induction out with
  | nil => rfl
  | cons head out ih => simp [collect, ih]

theorem collect_error (out : List Bytes) (e : ReadError) :
    collect (out.map .ok ++ [.error e]) = .error e := by
  induction out with
  | nil => rfl
  | cons head out ih => simp [collect, ih]

/-- The slice of `content` that a request for a range of an object with metadata `m` gets. -/
def Meta.slice (m : Meta) (content : Bytes) (first last suffix : ℤ) : Slice :=
  ⟨m.size, m.etag, m.createdAt, (effRange m.size first last suffix).1,
    (effRange m.size first last suffix).2,
    sliceOf content (effRange m.size first last suffix).1.toNat
      ((effRange m.size first last suffix).2 + 1).toNat⟩

/-- Serving from all rows of an object gives its range, in whatever order they arrive. -/
theorem serve_full {written : ℤ → Bytes} {files : List ℤ} (h : m.Describes written files)
    (hfew : ∀ f ∈ files, FewRows (written f))
    (hrows : ∀ p : Piece, p.fileId ∈ files → p.Inside written →
      ∃ rows : List ChunkRow, rows.Perm (p.rows written) ∧ spawn p = rows.map .ok) :
    (serve m spawn first last suffix).slice =
        .ok (some (m.slice (files.flatMap written) first last suffix)) ∧
      failsFirst m spawn first last suffix = false := by
  obtain ⟨hlo, hhi⟩ := @effRange_bounds first last suffix m.size
  have hslicelen : (m.sliceMeta first last suffix).len =
      max ((effRange m.size first last suffix).2 - (effRange m.size first last suffix).1 + 1) 0 :=
    rfl
  unfold serve failsFirst Meta.slice Meta.stream
  by_cases hlen : (m.sliceMeta first last suffix).len = 0
  · have hnil : sliceOf (files.flatMap written) (effRange m.size first last suffix).1.toNat
        ((effRange m.size first last suffix).2 + 1).toNat = [] := sliceOf_eq_nil (by omega)
    simp only [hlen, hnil]
    exact ⟨rfl, rfl⟩
  · obtain ⟨out, hrun, hne, hout⟩ := streamSpan_full h hfew hlo (by omega) hhi hrows
    have hlength := length_range h hlo (by omega) hhi
    rw [if_neg hlen, hrun, spanMessages, Option.map_none, Option.toList_none, List.append_nil,
      ← hout]
    rw [← hout] at hlength
    cases out with
    | nil =>
        simp only [List.flatten_nil, List.length_nil] at hlength
        omega
    | cons head rest =>
        refine ⟨?_, by simp [startsWithError]⟩
        have hcollect := collect_map_ok (head :: rest)
        simp only [List.map_cons, answer]
        split
        · rename_i hwhole
          have hrest : rest.flatten = [] := by
            rw [List.flatten_cons, List.length_append] at hlength
            apply List.length_eq_zero_iff.mp
            omega
          rw [List.flatten_cons, hrest, List.append_nil]
          simp [GetResult.slice, PieceBody.messages, collect, Meta.sliceMeta]
        · simp only [GetResult.slice, PieceBody.messages]
          rw [← List.map_cons, hcollect]
          rfl

end Attempt

/-! ## GETs of a store at rest -/

/-- An attempt while no task writes to the store, and none touches the key's cache entry. -/
structure AtRest (db : Db) (bucket key : Text) (env : Attempt) : Prop where
  touch_eq : ∀ c, (env.touch c).get bucket key = c.get bucket key
  lookup_eq : env.lookup = .ok ((db.objects.find? (bucket, key)).map ObjectRow.meta)
  spawn_perm : ∀ p, ∃ rows : List ChunkRow, rows.Perm (selectRows db p) ∧ env.spawn p = rows.map .ok

section AtRest

variable {db : Db} {bucket key : Text} {env : Attempt} {c : MetaCache}

theorem AtRest.lookupMeta_some (h : AtRest db bucket key env) {m : Meta}
    (hc : c.get bucket key = some m) :
    lookupMeta (env.touch c) bucket key env.lookup = (.ok (some m), env.touch c) := by
  simp only [lookupMeta, h.touch_eq, hc]

theorem AtRest.lookupMeta_none (h : AtRest db bucket key env) (hc : c.get bucket key = none) :
    (lookupMeta (env.touch c) bucket key env.lookup).1 =
      .ok ((db.objects.find? (bucket, key)).map ObjectRow.meta) := by
  simp only [lookupMeta, h.touch_eq, hc, h.lookup_eq, metaFresh]
  cases db.objects.find? (bucket, key) <;> rfl

theorem AtRest.second {first last suffix : ℤ} {retry : MetaCache → GetResult × MetaCache}
    (h : AtRest db bucket key env) (hc : c.get bucket key = none) :
    (getAttempt 1 env bucket key first last suffix retry c).1 =
      match db.objects.find? (bucket, key) with
      | none => .absent
      | some r => serve r.meta env.spawn first last suffix := by
  have hlookup := h.lookupMeta_none hc
  cases hl : lookupMeta (env.touch c) bucket key env.lookup with
  | mk res c' =>
      rw [hl] at hlookup
      cases hfind : db.objects.find? (bucket, key) with
      | none =>
          rw [hfind] at hlookup
          simp only at hlookup
          subst hlookup
          exact congrArg Prod.fst (getAttempt_absent hl)
      | some r =>
          rw [hfind] at hlookup
          simp only at hlookup
          subst hlookup
          exact getAttempt_one hl

end AtRest

/-! ## Whole objects are served whole -/

theorem nodup_selectRows (db : Db) (p : Piece) : ((selectRows db p).map (·.no)).Nodup := by
  have hkeys := db.chunks.nodup.sublist ((List.filter_sublist (l := db.chunks.rows)
    (p := fun c => decide (c.fileId = p.fileId ∧ p.lo ≤ c.no ∧ c.no ≤ p.hi))).map
      ChunkRow.primaryKey)
  rw [List.Nodup, List.pairwise_map] at hkeys
  rw [List.Nodup, List.pairwise_map]
  refine hkeys.imp_of_mem ?_
  intro a b ha hb hne hno
  have ha := (List.mem_filter.mp ha).2
  have hb := (List.mem_filter.mp hb).2
  simp only [decide_eq_true_eq] at ha hb
  exact hne (Prod.ext (ha.1.trans hb.1.symm) hno)

theorem mem_selectRows {db : Db} {p : Piece} {c : ChunkRow} :
    c ∈ selectRows db p ↔ c ∈ db.chunks ∧ c.fileId = p.fileId ∧ p.lo ≤ c.no ∧ c.no ≤ p.hi := by
  simp [selectRows, Table.mem_def]

/-- The chunk rows of file `f` are those of `body`. -/
def FileIs (db : Db) (f : ℤ) (body : Bytes) : Prop :=
  ∀ c, c.fileId = f → (c ∈ db.chunks ↔ c ∈ rowsOf f body)

theorem Consistent.fileIs {sha256 : Bytes → Bytes} {l : Ledger} (h : Consistent sha256 l) {f : ℤ}
    (hf : f ∈ ownedFiles l.db) (hwhole : f ∉ l.reaped) : FileIs l.db f (l.written f) := by
  rintro c rfl
  exact ⟨h.chunks c, h.whole _ hf hwhole c⟩

theorem selectRows_perm {db : Db} {written : ℤ → Bytes} {p : Piece} (hin : p.Inside written)
    (hdistinct : DistinctRows (written p.fileId)) (hfile : FileIs db p.fileId (written p.fileId)) :
    (selectRows db p).Perm (p.rows written) := by
  rw [List.perm_ext_iff_of_nodup (nodup_selectRows db p).of_map Piece.nodup_rows.of_map]
  intro c
  rw [mem_selectRows, hin.mem_rows hdistinct]
  constructor
  · rintro ⟨hc, hf, hno⟩
    exact ⟨(hfile c hf).mp hc, hno⟩
  · rintro ⟨hc, hno⟩
    have hf := fileId_of_mem_rowsOf hc
    exact ⟨(hfile c hf).mpr hc, hf, hno⟩

/-- The cache entry of the key, if there is one, is of the row `r`: a read left it, or the
write of the row, with a time of its own. -/
def CachesRow (c : MetaCache) (bucket key : Text) (r : ObjectRow) : Prop :=
  ∀ m, c.get bucket key = some m → ∃ now, m = r.metaAt now

/-- A GET of a store at rest serves the current row, with the rows that one of its attempts
receives; the time is that of the row or that of the cache entry. -/
theorem getBody_atRest {db : Db} {bucket key : Text} {r : ObjectRow}
    (hr : db.objects.find? (bucket, key) = some r) {env : Fin 2 → Attempt}
    (henv : ∀ i, AtRest db bucket key (env i)) {c : MetaCache} (hc : CachesRow c bucket key r)
    (first last suffix : ℤ) :
    ∃ (i : Fin 2) (now : ℤ), (now = r.createdAt ∨ c.get bucket key = some (r.metaAt now)) ∧
      (getBody env bucket key first last suffix c).1 =
        serve (r.metaAt now) (env i).spawn first last suffix := by
  have hlookup : ∃ now c', (now = r.createdAt ∨ c.get bucket key = some (r.metaAt now)) ∧
      lookupMeta ((env 0).touch c) bucket key (env 0).lookup =
        (.ok (some (r.metaAt now)), c') := by
    cases hcache : c.get bucket key with
    | none =>
        have h := (henv 0).lookupMeta_none hcache
        rw [hr] at h
        exact ⟨r.createdAt, _, .inl rfl, Prod.ext h rfl⟩
    | some m =>
        obtain ⟨now, rfl⟩ := hc m hcache
        exact ⟨now, _, .inr rfl, (henv 0).lookupMeta_some hcache⟩
  obtain ⟨now, c', hnow, hlookup⟩ := hlookup
  rw [getBody, getAttempt_zero hlookup]
  split
  · rw [(henv 1).second (by simp), hr]
    exact ⟨1, r.createdAt, .inl rfl, rfl⟩
  · exact ⟨0, now, hnow, rfl⟩

/-- An object whose files are whole is served whole: every range of it is the same range of
its bytes, with no cache entry or one of its own, in whatever order rows arrive. -/
theorem get_whole {db : Db} {bucket key : Text} {r : ObjectRow} {written : ℤ → Bytes}
    (hr : db.objects.find? (bucket, key) = some r) (hholds : r.Holds written)
    (hfew : ∀ f ∈ r.files, FewRows (written f))
    (hfiles : ∀ f ∈ r.files, FileIs db f (written f)) {env : Fin 2 → Attempt}
    (henv : ∀ i, AtRest db bucket key (env i)) {c : MetaCache} (hc : CachesRow c bucket key r)
    (first last suffix : ℤ) :
    ∃ now, (now = r.createdAt ∨ c.get bucket key = some (r.metaAt now)) ∧
      get env bucket key first last suffix c =
        .ok (some ((r.metaAt now).slice (r.files.flatMap written) first last suffix)) := by
  obtain ⟨i, now, hnow, hget⟩ := getBody_atRest hr henv hc first last suffix
  have hserve : (serve (r.metaAt now) (env i).spawn first last suffix).slice =
      .ok (some ((r.metaAt now).slice (r.files.flatMap written) first last suffix)) ∧
        failsFirst (r.metaAt now) (env i).spawn first last suffix = false := by
    apply serve_full (hholds.describesAt now) hfew
    intro p hp hin
    obtain ⟨rows, hperm, hspawn⟩ := (henv i).spawn_perm p
    exact ⟨rows, hperm.trans (selectRows_perm hin (hfew _ hp).distinct (hfiles _ hp)), hspawn⟩
  exact ⟨now, hnow, by rw [get_eq, hget]; exact hserve.1⟩

end Pgvs3
