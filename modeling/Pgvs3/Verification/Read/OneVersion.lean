import Pgvs3.Verification.Read.StaleCache
import Pgvs3.Verification.Multipart.Complete

/-! # Every GET comes from one version

A GET runs between other operations: it may find the metadata of any version, and each of
its queries may see another state of the store. -/

namespace Pgvs3

open Library

variable {sha256 : Bytes → Bytes} {ops : List Op} {bucket key : Text}

def stateAt (sha256 : Bytes → Bytes) (ops : List Op) (n : ℕ) : Ledger :=
  Ledger.empty.run sha256 (ops.take n)

theorem consistent_stateAt (n : ℕ) : Consistent sha256 (stateAt sha256 ops n) :=
  consistent_empty.run _

theorem run_written_of_le {l : Ledger} (h : Consistent sha256 l) (ops : List Op) {f : ℤ}
    (hf : f ≤ l.db.fileSeq) :
    (l.run sha256 ops).written f = l.written f ∧ f ≤ (l.run sha256 ops).db.fileSeq := by
  induction ops generalizing l with
  | nil => exact ⟨rfl, hf⟩
  | cons op ops ih =>
      have hle : f ≤ (l.apply sha256 op).db.fileSeq :=
        hf.trans (change_apply sha256 l.db op h.owned.seq_nonneg).fileSeq_le
      have hrest := ih (h.step op) hle
      rw [l.apply_written_of_le op hf] at hrest
      exact hrest

theorem stateAt_of_le {n k : ℕ} (h : n ≤ k) :
    stateAt sha256 ops k = (stateAt sha256 ops n).run sha256 ((ops.take k).drop n) := by
  have hsplit : ops.take k = ops.take n ++ (ops.take k).drop n := by
    conv_lhs => rw [← List.take_append_drop n (ops.take k)]
    rw [List.take_take, Nat.min_eq_left h]
  conv_lhs => rw [stateAt, hsplit, Ledger.run, List.foldl_append]
  rfl

/-- Two states of a run agree on the files that both have seen drawn. -/
theorem stateAt_written_eq {n k : ℕ} {f : ℤ} (hn : f ≤ (stateAt sha256 ops n).db.fileSeq)
    (hk : f ≤ (stateAt sha256 ops k).db.fileSeq) :
    (stateAt sha256 ops n).written f = (stateAt sha256 ops k).written f := by
  rcases Nat.le_total n k with h | h
  · rw [stateAt_of_le h, (run_written_of_le (consistent_stateAt n) _ hn).1]
  · rw [stateAt_of_le h, (run_written_of_le (consistent_stateAt k) _ hk).1]

/-- `r` is a version of the key that the run had committed after `n` operations. -/
structure Version (sha256 : Bytes → Bytes) (ops : List Op) (bucket key : Text) (n : ℕ)
    (r : ObjectRow) : Prop where
  mem : r ∈ (stateAt sha256 ops n).db.objects
  key_eq : r.primaryKey = (bucket, key)

def contentAt (sha256 : Bytes → Bytes) (ops : List Op) (n : ℕ) (r : ObjectRow) : Bytes :=
  r.files.flatMap (stateAt sha256 ops n).written

/-- The cache entry of the key, if it has one, is the metadata of some version, with the time
that a read or the write gave it. -/
def CachesVersion (sha256 : Bytes → Bytes) (ops : List Op) (bucket key : Text)
    (c : MetaCache) : Prop :=
  ∀ m, c.get bucket key = some m →
    ∃ n r now, Version sha256 ops bucket key n r ∧ m = r.metaAt now

/-- One attempt between the operations of a run. Other tasks cache metadata of versions
only, the metadata query sees some state, and so does the query of each piece; a query may
fail, also after some of its rows, which come in any order. -/
structure Interleaved (sha256 : Bytes → Bytes) (ops : List Op) (bucket key : Text)
    (env : Attempt) : Prop where
  touch : ∀ c, CachesVersion sha256 ops bucket key c →
    CachesVersion sha256 ops bucket key (env.touch c)
  lookup : ∀ m, env.lookup = .ok m →
    ∃ n, m = ((stateAt sha256 ops n).db.objects.find? (bucket, key)).map ObjectRow.meta
  spawn : ∀ p, ∃ (n : ℕ) (rows : List ChunkRow) (failure : Option ReadError),
    rows.Subperm (selectRows (stateAt sha256 ops n).db p) ∧
      env.spawn p = rows.map .ok ++ (failure.map Except.error).toList

theorem arrived_append_failure (rows : List ChunkRow) (failure : Option ReadError) :
    arrived (rows.map .ok ++ (failure.map Except.error).toList) = rows := by
  induction rows with
  | nil => cases failure <;> rfl
  | cons r rows ih =>
      rw [List.map_cons, List.cons_append, arrived, ih]

section Interleaved

variable {env : Attempt}

/-- Whatever metadata an attempt works with is that of a version. -/
theorem Interleaved.version (h : Interleaved sha256 ops bucket key env) {c c' : MetaCache}
    (hcached : CachesVersion sha256 ops bucket key c) {m : Meta}
    (hl : lookupMeta (env.touch c) bucket key env.lookup = (.ok (some m), c')) :
    ∃ n r now, Version sha256 ops bucket key n r ∧ m = r.metaAt now := by
  unfold lookupMeta at hl
  cases hc : (env.touch c).get bucket key with
  | some m' =>
      rw [hc] at hl
      simp only [Prod.mk.injEq, Except.ok.injEq, Option.some.injEq] at hl
      obtain ⟨rfl, -⟩ := hl
      exact h.touch c hcached m' hc
  | none =>
      rw [hc] at hl
      cases hq : env.lookup with
      | error e => simp [hq, metaFresh] at hl
      | ok m? =>
          obtain ⟨n, rfl⟩ := h.lookup m? hq
          cases hfind : (stateAt sha256 ops n).db.objects.find? (bucket, key) with
          | none => simp [hq, metaFresh, hfind] at hl
          | some r =>
              obtain ⟨hr, hk⟩ := Table.find?_eq_some_iff.mp hfind
              simp only [hq, hfind, Option.map_some, metaFresh, Prod.mk.injEq, Except.ok.injEq,
                Option.some.injEq] at hl
              exact ⟨n, r, r.createdAt, ⟨hr, hk⟩, hl.1.symm⟩

/-- A query for a file of a version returns rows of that version, whatever state it sees. -/
theorem Interleaved.genuine (h : Interleaved sha256 ops bucket key env) {n : ℕ} {r : ObjectRow}
    (hr : Version sha256 ops bucket key n r) {p : Piece} (hp : p.fileId ∈ r.files) :
    p.Genuine (stateAt sha256 ops n).written (arrived (env.spawn p)) := by
  obtain ⟨k, rows, failure, hrows, hspawn⟩ := h.spawn p
  have hdrawn : p.fileId ≤ (stateAt sha256 ops n).db.fileSeq :=
    (consistent_stateAt n).owned.drawn _ (mem_ownedFiles.mpr (.inl ⟨r, hr.mem, hp⟩))
  rw [hspawn, arrived_append_failure]
  constructor
  · obtain ⟨l, hperm, hsub⟩ := hrows
    exact (hperm.map _).nodup_iff.mp ((nodup_selectRows _ p).sublist (hsub.map _))
  · intro c hc
    obtain ⟨hmem, hf, hno⟩ := mem_selectRows.mp (hrows.subset hc)
    have hck := @consistent_stateAt sha256 ops k
    have hdrawn' := hck.owned.drawn _ (hck.owned.covered c hmem)
    have hrow := hck.chunks c hmem
    rw [hf] at hrow hdrawn'
    rw [stateAt_written_eq hdrawn hdrawn']
    exact ⟨hrow, hno⟩

end Interleaved

/-! ## What the client receives -/

/-- The bytes of a body before its first error. -/
def sentBytes : List (Except ReadError Bytes) → Bytes
  | [] => []
  | .error _ :: _ => []
  | .ok bytes :: rest => bytes ++ sentBytes rest

theorem sentBytes_spanMessages (out : List Bytes) (e : Option ReadError) :
    sentBytes (spanMessages (out, e)) = out.flatten := by
  induction out with
  | nil => cases e <;> rfl
  | cons head out ih =>
      rw [spanMessages, List.map_cons, List.cons_append, sentBytes, List.flatten_cons]
      exact congrArg (head ++ ·) ih

theorem collect_spanMessages (out : List Bytes) (e : Option ReadError) :
    collect (spanMessages (out, e)) =
      match e with
      | none => .ok out.flatten
      | some e => .error e := by
  cases e with
  | none => simpa [spanMessages] using collect_map_ok out
  | some e => exact collect_error out e

/-- A served body is empty like its range, or it is what `stream_span` sent, or only the first
chunk when that one fills the range. -/
theorem serve_served {m : Meta} {spawn : Piece → Fetch} {first last suffix : ℤ} {s : SliceMeta}
    {body : PieceBody} (h : serve m spawn first last suffix = .served s body) :
    s = m.sliceMeta first last suffix ∧
      (s.len = 0 ∧ body.messages = [.ok []] ∨
        0 < s.len ∧ ∃ out e, streamSpan (fun _ => true) spawn m s.start s.stop = (out, e) ∧
          (body.messages = spanMessages (out, e) ∨ ∃ head, body.messages = [.ok head] ∧
            (head.length : ℤ) = s.len ∧ head <+: out.flatten)) := by
  unfold serve Meta.stream at h
  split at h
  · rename_i hlen
    obtain ⟨rfl, rfl⟩ := GetResult.served.inj h
    exact ⟨rfl, .inl ⟨hlen, rfl⟩⟩
  · rename_i hlen
    have hpos : 0 < (m.sliceMeta first last suffix).len :=
      lt_of_le_of_ne (le_max_right _ _) (Ne.symm hlen)
    cases hrun : streamSpan (fun _ => true) spawn m (effRange m.size first last suffix).1
        (effRange m.size first last suffix).2 with
    | mk out e =>
        rw [hrun] at h
        unfold answer at h
        split at h
        · cases h
        · cases h
        · rename_i head rest hmessages
          split at h
          · rename_i hwhole
            obtain ⟨rfl, rfl⟩ := GetResult.served.inj h
            have hsent := sentBytes_spanMessages out e
            rw [hmessages, sentBytes] at hsent
            exact ⟨rfl, .inr ⟨hpos, out, e, hrun, .inr ⟨head, rfl, hwhole, _, hsent⟩⟩⟩
          · obtain ⟨rfl, rfl⟩ := GetResult.served.inj h
            exact ⟨rfl, .inr ⟨hpos, out, e, hrun, .inl hmessages.symm⟩⟩

/-- The response and its body fit version `r`: a body that ends without error is the whole
range, and what was sent before an error is a prefix of it unless 32-bit row numbers cut a
segment out of the range. -/
structure FromVersion (r : ObjectRow) (content : Bytes) (first last suffix : ℤ) (s : SliceMeta)
    (body : PieceBody) : Prop where
  size_eq : s.size = r.size
  etag_eq : s.etag = r.etag
  range_eq : (s.start, s.stop) = effRange r.size first last suffix
  whole : ∀ bytes, collect body.messages = .ok bytes →
    bytes = sliceOf content s.start.toNat (s.stop + 1).toNat
  sent : RowsFit r.meta.segments s.start s.stop →
    sentBytes body.messages <+: sliceOf content s.start.toNat (s.stop + 1).toNat

/-- Serving with the metadata of a version from rows of that version. -/
theorem serve_fromVersion {r : ObjectRow} {written : ℤ → Bytes} {spawn : Piece → Fetch}
    {first last suffix now : ℤ} {s : SliceMeta} {body : PieceBody} (hholds : r.Holds written)
    (hdistinct : ∀ f ∈ r.files, DistinctRows (written f))
    (hrows : ∀ p : Piece, p.fileId ∈ r.files → p.Genuine written (arrived (spawn p)))
    (hserve : serve (r.metaAt now) spawn first last suffix = .served s body) :
    FromVersion r (r.files.flatMap written) first last suffix s body := by
  have h := hholds.describesAt now
  obtain ⟨rfl, ⟨hlen, hbody⟩ | ⟨hpos, out, e, hrun, hbody⟩⟩ := serve_served hserve
  · have hnil : sliceOf (r.files.flatMap written)
        ((r.metaAt now).sliceMeta first last suffix).start.toNat
        (((r.metaAt now).sliceMeta first last suffix).stop + 1).toNat = [] := by
      rw [SliceMeta.len] at hlen
      exact sliceOf_eq_nil (by omega)
    refine ⟨rfl, rfl, rfl, fun bytes hbytes => ?_, fun _ => ?_⟩
    · rw [hbody] at hbytes
      cases hbytes
      exact hnil.symm
    · rw [hbody, sentBytes]
      exact List.nil_prefix
  · set s := (r.metaAt now).sliceMeta first last suffix with hs
    have hlo : 0 ≤ s.start := (@effRange_bounds first last suffix (r.metaAt now).size).1
    have hhi : s.stop < (r.metaAt now).size :=
      (@effRange_bounds first last suffix (r.metaAt now).size).2
    have hrange : s.start ≤ s.stop := by
      rw [SliceMeta.len] at hpos
      omega
    have hgenuine : ∀ p ∈ plan (r.metaAt now) s.start s.stop partRows,
        p.Genuine written (arrived (spawn p)) :=
      fun p hp => hrows p (plan_fileId h p hp)
    have hfills := streamSpanOf_fills h hdistinct hrange partRows_pos partRows_le (by decide)
      chunkSize_pos hgenuine hrun
    have hcomplete := streamSpanOf_complete h hdistinct hlo hrange hhi partRows_pos partRows_le
      (by decide) chunkSize_pos hgenuine hrun
    have hpre := streamSpanOf_prefix h hdistinct hrange partRows_pos partRows_le (by decide)
      chunkSize_pos hgenuine hrun
    have hlength := length_range h hlo hrange hhi
    rcases hbody with hbody | ⟨head, hbody, hwhole, hhead⟩
    · refine ⟨rfl, rfl, rfl, fun bytes hbytes => ?_, fun hfit => ?_⟩
      · rw [hbody, collect_spanMessages] at hbytes
        cases e with
        | none =>
            cases hbytes
            exact hcomplete rfl
        | some e => cases hbytes
      · rw [hbody, sentBytes_spanMessages]
        exact hpre hfit
    · -- nothing can follow a first chunk that fills the range
      have hall : head = sliceOf (r.files.flatMap written) s.start.toNat (s.stop + 1).toNat := by
        have hle := hhead.length_le
        have hmost := hfills.1
        rw [SliceMeta.len] at hwhole
        rw [← hfills.2 (by omega)]
        exact hhead.eq_of_length (by omega)
      refine ⟨rfl, rfl, rfl, fun bytes hbytes => ?_, fun _ => ?_⟩
      · rw [hbody] at hbytes
        simp only [collect, List.append_nil, Except.ok.injEq] at hbytes
        exact hbytes.symm.trans hall
      · rw [hbody, sentBytes, sentBytes, List.append_nil, hall]

/-! ## Both attempts -/

/-- A GET that answers answers from one version, whatever happens during it. -/
theorem get_from_one_version {env : Fin 2 → Attempt} {first last suffix : ℤ} {c : MetaCache}
    {s : SliceMeta} {body : PieceBody}
    (henv : ∀ i, Interleaved sha256 ops bucket key (env i))
    (hcached : CachesVersion sha256 ops bucket key c)
    (hget : (getBody env bucket key first last suffix c).1 = .served s body) :
    ∃ n r, Version sha256 ops bucket key n r ∧
      FromVersion r (contentAt sha256 ops n r) first last suffix s body := by
  obtain ⟨i, m, c₁, c₂, hc₁, hl, hserve⟩ := getBody_served hget
  have hcached₁ : CachesVersion sha256 ops bucket key c₁ := by
    rcases hc₁ with rfl | hnone
    · exact hcached
    · simp [CachesVersion, hnone]
  obtain ⟨n, r, now, hr, rfl⟩ := (henv i).version hcached₁ hl
  have hc := @consistent_stateAt sha256 ops n
  refine ⟨n, r, hr, serve_fromVersion (hc.objects r hr.mem) ?_ ?_ hserve⟩
  · exact fun f hf => hc.distinct f (mem_ownedFiles.mpr (.inl ⟨r, hr.mem, hf⟩))
  · exact fun p hp => (henv i).genuine hr hp

/-- An attempt that looks the key up after `n` operations and fetches rows after `k`. -/
def attemptBetween (sha256 : Bytes → Bytes) (ops : List Op) (bucket key : Text) (n k : ℕ) :
    Attempt where
  touch := id
  lookup := .ok (((stateAt sha256 ops n).db.objects.find? (bucket, key)).map ObjectRow.meta)
  spawn := fun p => (selectRows (stateAt sha256 ops k).db p).map .ok

theorem interleaved_attemptBetween (n k : ℕ) :
    Interleaved sha256 ops bucket key (attemptBetween sha256 ops bucket key n k) where
  touch := fun _ h => h
  lookup := fun _ h => ⟨n, (Except.ok.inj h).symm⟩
  spawn := fun p => ⟨k, selectRows (stateAt sha256 ops k).db p, none, .refl _, by
    simp [attemptBetween]⟩

theorem cachesVersion_empty : CachesVersion sha256 ops bucket key MetaCache.empty := by
  simp [CachesVersion]

/-- An object of one byte and another over it. -/
def twoVersions : List Op :=
  [.createBucket 0 ['b'], .put 1 ['b'] ['k'] .unconditional [[1]],
    .put 2 ['b'] ['k'] .unconditional [[2], [3]]]

/-- A GET finds the first version, the second replaces it, and the retry serves that one. -/
theorem get_from_one_version_replaced :
    ∃ n r, Version id twoVersions ['b'] ['k'] n r ∧
      FromVersion r (contentAt id twoVersions n r) 0 (-1) (-1) ⟨2, [2, 3], 2, 2, 0, 1⟩
        (.oneShot [2, 3]) :=
  @get_from_one_version id twoVersions ['b'] ['k']
    ![attemptBetween id twoVersions ['b'] ['k'] 2 3, attemptBetween id twoVersions ['b'] ['k'] 3 3]
    0 (-1) (-1) MetaCache.empty _ _
    (Fin.forall_fin_two.mpr ⟨interleaved_attemptBetween 2 3, interleaved_attemptBetween 3 3⟩)
    cachesVersion_empty (by decide +kernel)

/-! ## Row numbers that wrap

A first part of more than `2 ^ 31` rows is left out of the plan: the response starts with
the bytes of the second part. -/

section Wrapped

/-- Reading such an object from its first byte sends the second part first. -/
theorem serve_wrapped {r : ObjectRow} {written : ℤ → Bytes} {spawn : Piece → Fetch} {f g : ℤ}
    (hholds : r.Holds written) (hfiles : r.files = [f, g])
    (hbig : 2 ^ 31 * rowBytes < (written f).length) (hdistinct : DistinctRows (written f))
    (hchunk : chunkSize ≤ (written g).length) (hfew : FewRows (written g))
    (hrows : ∀ p : Piece, p.fileId = g → p.Inside written →
      ∃ rows : List ChunkRow, rows.Perm (p.rows written) ∧ spawn p = rows.map .ok) :
    ∃ head rest, serve r.meta spawn 0 (-1) (-1) =
        .served (r.meta.sliceMeta 0 (-1) (-1)) (.streamed head rest) ∧
      head ≠ [] ∧ head <+: written g := by
  have hdesc : r.meta.Describes written [f, g] := hfiles ▸ hholds.describes
  have hsize : r.meta.size = (written f).length + (written g).length := by
    rw [hdesc.size_eq]
    simp
  have heff : effRange r.meta.size 0 (-1) (-1) = (0, r.meta.size - 1) := by simp [effRange]
  have hlen : (r.meta.sliceMeta 0 (-1) (-1)).len = r.meta.size := by
    simp only [SliceMeta.len, Meta.sliceMeta, heff]
    omega
  obtain ⟨head, rest, e, hrun, hne, hhead⟩ :=
    streamSpan_wrapped hdesc hbig hdistinct hchunk hfew hrows
  have hlong := hhead.length_le
  refine ⟨head, spanMessages (rest, e), ?_, hne, hhead⟩
  have hstream : r.meta.stream spawn 0 (-1) (-1) = .ok head :: spanMessages (rest, e) := by
    rw [Meta.stream, heff, hrun]
    rfl
  rw [serve, if_neg (by omega), hstream, answer, if_neg (by omega)]

def noHash : Bytes → Bytes := fun _ => []

def wrappedStart : List Op := [.createBucket 0 ['b']]

def wrappedSession (a b : Bytes) : List Op :=
  [.uploadPart 2 ['u'] 1 [a], .uploadPart 3 ['u'] 2 [b]]

def wrappedRun (a b : Bytes) : List Op :=
  wrappedStart ++ [.createUpload 1 ['u'] ['b'] ['k']] ++ wrappedSession a b ++
    [.completeUpload 4 ['u'] ['b'] ['k'] [(1, []), (2, [])]]

theorem acknowledged_part {db : Db} (h : Owned db) {now n : ℤ} {uploadId : Text} {body : Bytes}
    (hup : db.uploads.find? uploadId ≠ none) (hseq : db.fileSeq < maxFileId)
    (hdistinct : DistinctRows body) :
    acknowledged uploadId (.uploadPart now uploadId n [body])
      (apply sha256 db (.uploadPart now uploadId n [body])).2 = some (n, body) := by
  have hbody : [body].flatten = body := List.flatten_singleton
  rw [apply, h.part_stored hup hseq (hbody.symm ▸ hdistinct)]
  simp [acknowledged]

theorem ingest_fileSeq_le {db : Db} {now : ℤ} {target : WriterTarget} {pushes : List Bytes}
    (hseq : 0 ≤ db.fileSeq) :
    (ingest sha256 db now target pushes).1.fileSeq ≤ db.fileSeq + 1 := by
  rcases ingest_cases sha256 db now target pushes hseq with
    ⟨e, h | h⟩ | ⟨-, -, chunks, db', -, hpub, h⟩
  · rw [h]
    dsimp only
    omega
  · rw [h]
    exact le_rfl
  · rw [h]
    cases target with
    | object bucket key condition =>
        obtain ⟨-, -, -, rfl⟩ := swapObject_ok_iff.mp hpub
        exact le_rfl
    | part uploadId partNo =>
        obtain ⟨-, rfl⟩ := commitPart_ok_iff.mp hpub
        exact le_rfl

variable {a b : Bytes}

theorem ackedParts_wrappedSession {db : Db} (h : Owned db) {up : UploadRow}
    (hup : db.uploads.find? ['u'] = some up) (hseq : db.fileSeq = 0)
    (ha : DistinctRows a) (hb : DistinctRows b) :
    ackedParts noHash ['u'] db (wrappedSession a b) = [(1, a), (2, b)] := by
  have hmax : (1 : ℤ) < maxFileId := by decide
  have howned : Owned (apply noHash db (.uploadPart 2 ['u'] 1 [a])).1 := h.step rfl
  have hup' := @quiet_upload noHash db ['u'] (.uploadPart 2 ['u'] 1 [a]) trivial h.seq_nonneg up hup
  have hseq' : (apply noHash db (.uploadPart 2 ['u'] 1 [a])).1.fileSeq < maxFileId := by
    have hle : (apply noHash db (.uploadPart 2 ['u'] 1 [a])).1.fileSeq ≤ db.fileSeq + 1 :=
      ingest_fileSeq_le h.seq_nonneg
    omega
  simp only [wrappedSession, ackedParts]
  rw [acknowledged_part h (by simp [hup]) (by omega) ha,
    acknowledged_part howned (by simp [hup']) hseq' hb]
  rfl

theorem wrappedRun_published (ha : DistinctRows a) (hb : DistinctRows b) :
    ∃ r f g, (stateAt noHash (wrappedRun a b) 5).db.objects.find? (['b'], ['k']) = some r ∧
      r.files = [f, g] ∧ (stateAt noHash (wrappedRun a b) 5).written f = a ∧
      (stateAt noHash (wrappedRun a b) 5).written g = b ∧
      FileIs (stateAt noHash (wrappedRun a b) 5).db g b := by
  set start := sessionStart noHash wrappedStart 1 ['u'] ['b'] ['k'] with hstart
  set mid := start.run noHash (wrappedSession a b) with hmid
  have hcreate : apply noHash (run noHash Db.empty wrappedStart) (.createUpload 1 ['u'] ['b'] ['k']) =
      ((apply noHash (run noHash Db.empty wrappedStart) (.createUpload 1 ['u'] ['b'] ['k'])).1,
        .upload (some ['u'])) := Prod.ext rfl (by decide +kernel)
  obtain ⟨up, hdb, -, hbucket, hkey, hcstart, hc, hbuckets, hsession⟩ :=
    session_run hcreate (by simp [wrappedSession, Quiet]) hstart hmid
  rw [ackedParts_wrappedSession (hdb ▸ hcstart.owned)
    (show _ = some ⟨['u'], ['b'], ['k'], 1⟩ by decide +kernel) (by decide +kernel) ha hb] at hsession
  have hlast : LastAttempts [((1 : ℤ), a), (2, b)] [(1, a), (2, b)] :=
    lastAttempts_of_nodup (by simp)
  have hleft : ∀ p ∈ start.db.uploadParts, p.uploadId = ['u'] →
      p.partNo ∈ [((1 : ℤ), a), (2, b)].map Prod.fst := by
    have hnil : start.db.uploadParts.rows = [] := by decide +kernel
    intro p hp
    rw [Table.mem_def, hnil] at hp
    cases hp
  have hend : stateAt noHash (wrappedRun a b) 5 =
      mid.apply noHash (.completeUpload 4 ['u'] up.bucket up.key [(1, []), (2, [])]) := by
    rw [hbucket, hkey]
    rfl
  obtain ⟨hdone, -, hfiles, hwhole⟩ := hsession.published 4 hcstart hc hbuckets hlast (by simp)
    hleft (List.Perm.refl _) hend
  have hfind := completed_find? noHash mid.db 4 ['u'] up.bucket up.key
  set l := stateAt noHash (wrappedRun a b) 5 with hl
  set r := completedRow noHash mid.db 4 ['u'] up.bucket up.key with hr
  have hbodies : r.files.map l.written = [a, b] := hfiles
  rw [← hdone, hbucket, hkey] at hfind
  cases hrows : r.files with
  | nil => simp [hrows] at hbodies
  | cons f rest =>
      cases rest with
      | nil => simp [hrows] at hbodies
      | cons g rest =>
          simp only [hrows, List.map_cons, List.cons.injEq, List.map_eq_nil_iff] at hbodies
          obtain ⟨hf, hg, rfl⟩ := hbodies
          exact ⟨r, f, g, hfind, hrows, hf, hg, hg ▸ hwhole g (by simp [hrows])⟩

theorem wrappedRun_no_objects {n : ℕ} (hn : n < 5) :
    ∀ r, r ∉ (stateAt noHash (wrappedRun a b) n).db.objects := by
  have hpart : ∀ {l : Ledger} {now n : ℤ} {body : Bytes}, Consistent noHash l →
      (∀ r, r ∉ l.db.objects) →
      ∀ r, r ∉ (l.apply noHash (.uploadPart now ['u'] n [body])).db.objects := by
    intro l now n body hc h r hr
    rcases (change_apply noHash l.db _ hc.owned.seq_nonneg).mem_objects hr with
      hr | ⟨_, _, _, _, _, hop, -⟩ | ⟨_, _, _, _, _, hop, -⟩
    · exact h r hr
    · cases hop
    · cases hop
  have h2 : ∀ r, r ∉ (stateAt noHash (wrappedRun a b) 2).db.objects := by
    have hnil : (stateAt noHash (wrappedRun a b) 2).db.objects.rows = [] := by rfl
    intro r hr
    rw [Table.mem_def, hnil] at hr
    cases hr
  have h3 := @hpart _ 2 1 a (@consistent_stateAt noHash (wrappedRun a b) 2) h2
  interval_cases n
  · exact fun r => List.not_mem_nil
  · exact fun r => List.not_mem_nil
  · exact h2
  · exact h3
  · exact @hpart _ 3 2 b (@consistent_stateAt noHash (wrappedRun a b) 3) h3

/-- The key has a version only when the upload has been completed. -/
theorem wrappedRun_version {n : ℕ} {q : ObjectRow}
    (h : Version noHash (wrappedRun a b) ['b'] ['k'] n q) :
    stateAt noHash (wrappedRun a b) n = stateAt noHash (wrappedRun a b) 5 := by
  rcases Nat.lt_or_ge n 5 with hn | hn
  · exact (wrappedRun_no_objects hn q h.mem).elim
  · rw [stateAt, List.take_of_length_le hn]
    rfl

theorem failsFirst_of_served {m : Meta} {spawn : Piece → Fetch} {first last suffix : ℤ}
    {s : SliceMeta} {body : PieceBody} (h : serve m spawn first last suffix = .served s body) :
    failsFirst m spawn first last suffix = false := by
  unfold serve at h
  unfold failsFirst
  split at h
  · rename_i hlen
    simp [hlen]
  · cases hstream : m.stream spawn first last suffix with
    | nil => simp [startsWithError]
    | cons message rest =>
        cases message with
        | ok head => simp [startsWithError]
        | error e =>
            rw [hstream, answer] at h
            cases h

/-- With a first part whose row numbers wrap, a GET of the whole object starts with the
second part. -/
theorem wrappedRun_misserved (hbig : 2 ^ 31 * rowBytes < a.length) (ha : DistinctRows a)
    (hchunk : chunkSize ≤ b.length) (hb : FewRows b) (hne : a.head? ≠ b.head?) :
    ∃ s body, (getBody (fun _ => attemptBetween noHash (wrappedRun a b) ['b'] ['k'] 5 5)
        ['b'] ['k'] 0 (-1) (-1) MetaCache.empty).1 = .served s body ∧
      ∀ n r, Version noHash (wrappedRun a b) ['b'] ['k'] n r →
        ¬ sentBytes body.messages <+:
          sliceOf (contentAt noHash (wrappedRun a b) n r) s.start.toNat (s.stop + 1).toNat := by
  obtain ⟨r, f, g, hfind, hfiles, hf, hg, hwhole⟩ := wrappedRun_published ha hb.distinct
  set l := stateAt noHash (wrappedRun a b) 5 with hl
  have hc : Consistent noHash l := consistent_stateAt 5
  have hholds := hc.objects r (Table.find?_eq_some_iff.mp hfind).1
  have hcontent : r.files.flatMap l.written = a ++ b := by simp [hfiles, hf, hg]
  have hsize : r.meta.size = a.length + b.length := by
    rw [hholds.describes.size_eq, hcontent, List.length_append]
    push_cast
    rfl
  set env := attemptBetween noHash (wrappedRun a b) ['b'] ['k'] 5 5 with henv
  obtain ⟨head, rest, hserve, hhead, hpre⟩ := @serve_wrapped r l.written env.spawn f g hholds hfiles
    (hf ▸ hbig) (hf ▸ ha) (hg ▸ hchunk) (hg ▸ hb) fun p hp hin =>
      ⟨_, selectRows_perm hin (by rw [hp, hg]; exact hb.distinct) (by rw [hp, hg]; exact hwhole), rfl⟩
  have hlookup : lookupMeta (env.touch MetaCache.empty) ['b'] ['k'] env.lookup =
      (.ok (some r.meta), MetaCache.empty.put metaCap ['b'] ['k'] r.meta) := by
    simp only [henv, attemptBetween, id, lookupMeta, MetaCache.get_empty, ← hl, hfind,
      Option.map_some, metaFresh]
  have hbogus : bogusRange r.meta 0 (-1) (-1) = false := by
    simp [bogusRange, effRange]
    omega
  refine ⟨r.meta.sliceMeta 0 (-1) (-1), .streamed head rest, ?_, fun n q hq => ?_⟩
  · rw [getBody, getAttempt_zero hlookup, hbogus, failsFirst_of_served hserve]
    exact hserve
  · -- the only version is the completed object
    have hlast : stateAt noHash (wrappedRun a b) n = l := wrappedRun_version hq
    have hq' : l.db.objects.find? (['b'], ['k']) = some q :=
      Table.find?_eq_some_iff.mpr ⟨hlast ▸ hq.mem, hq.key_eq⟩
    rw [hfind, Option.some.injEq] at hq'
    subst hq'
    have hslice : sliceOf (contentAt noHash (wrappedRun a b) n r)
        (r.meta.sliceMeta 0 (-1) (-1)).start.toNat
          ((r.meta.sliceMeta 0 (-1) (-1)).stop + 1).toNat = a ++ b := by
      rw [contentAt, hlast, hcontent]
      have heff : effRange r.meta.size 0 (-1) (-1) = (0, r.meta.size - 1) := by simp [effRange]
      simp only [Meta.sliceMeta, heff]
      exact sliceOf_full (by rw [List.length_append]; omega)
    rw [hslice]
    rintro ⟨tail, htail⟩
    rw [hg] at hpre
    obtain ⟨tail', rfl⟩ := hpre
    obtain ⟨x, head, rfl⟩ := List.exists_cons_of_ne_nil hhead
    cases a with
    | nil => simp at hbig
    | cons y a =>
        simp only [PieceBody.messages, sentBytes, List.cons_append, List.cons.injEq] at htail
        simp [htail.1] at hne

end Wrapped

/-- Bytes that are not part of the range can precede an error. -/
theorem wrapped_part_misserved :
    ¬ ∀ (sha256 : Bytes → Bytes) (ops : List Op) (bucket key : Text) (env : Fin 2 → Attempt)
      (first last suffix : ℤ) (c : MetaCache) (s : SliceMeta) (body : PieceBody),
      (∀ i, Interleaved sha256 ops bucket key (env i)) →
      CachesVersion sha256 ops bucket key c →
      (getBody env bucket key first last suffix c).1 = .served s body →
      ∃ n r, Version sha256 ops bucket key n r ∧
        sentBytes body.messages <+:
          sliceOf (contentAt sha256 ops n r) s.start.toNat (s.stop + 1).toNat := by
  intro hall
  have hpos := rowBytes_pos
  have hlong : 2 ^ 31 * rowBytes < (List.replicate (2 ^ 31 * rowBytes + 1) (0 : UInt8)).length := by
    rw [List.length_replicate]
    omega
  have hdistinct : DistinctRows (List.replicate (2 ^ 31 * rowBytes + 1) (0 : UInt8)) := by
    unfold DistinctRows
    have hone : blockCount rowBytes 1 = 1 := by simp [blockCount, Nat.div_self hpos]
    rw [List.length_replicate, blockCount_mul_add hpos, hone]
    norm_num
  have hfew : FewRows (List.replicate chunkSize (1 : UInt8)) := by
    unfold FewRows
    rw [List.length_replicate]
    decide +kernel
  obtain ⟨s, body, hget, hnone⟩ := wrappedRun_misserved hlong hdistinct
    (List.length_replicate.ge) hfew (by simp [List.head?_replicate, chunkSize])
  obtain ⟨n, r, hr, hpre⟩ := hall noHash _ ['b'] ['k'] _ 0 (-1) (-1) MetaCache.empty s body
    (fun _ => interleaved_attemptBetween 5 5) cachesVersion_empty hget
  exact hnone n r hr hpre

end Pgvs3
