import Pgvs3.Verification.Multipart.WriteThenRead
import Pgvs3.Verification.Read.OneVersion
import Pgvs3.Model.Handlers

/-! # Range requests

What `get_object` answers to a `Range` header, against what RFC 9110 asks for. -/

namespace Pgvs3

open Library

variable {sha256 : Bytes → Bytes} {bucket key : Text} {env : Fin 2 → Attempt} {c : MetaCache}
  {there : Except ReadError Bool} {range : Option Range}

/-! ## The answer of the handler -/

/-- A body that ends without error has the length of its range. -/
theorem length_served {m : Meta} {spawn : Piece → Fetch} {first last suffix : ℤ} {s : SliceMeta}
    {body : PieceBody} (h : serve m spawn first last suffix = .served s body) {bytes : Bytes}
    (hbytes : collect body.messages = .ok bytes) : (bytes.length : ℤ) = s.len := by
  obtain ⟨-, ⟨hlen, hbody⟩ | ⟨hpos, out, e, hrun, hbody | ⟨head, hbody, hwhole, -⟩⟩⟩ :=
    serve_served h
  · rw [hbody] at hbytes
    cases hbytes
    exact hlen.symm
  · rw [hbody, collect_spanMessages] at hbytes
    cases e with
    | some e => cases hbytes
    | none =>
        cases hbytes
        rw [streamSpan_length hrun]
        rw [SliceMeta.len] at hpos ⊢
        omega
  · rw [hbody] at hbytes
    simp only [collect, List.append_nil, Except.ok.injEq] at hbytes
    exact hbytes ▸ hwhole

/-- The range of a served body fits the size it is served with. -/
def SliceMeta.fits (s : SliceMeta) : Prop := s.size > 0 → s.start ≤ s.stop ∧ s.start < s.size

/-- The success answer for a served body. -/
def SliceMeta.output (s : SliceMeta) (body : PieceBody) (range : Option Range) : GetOutput where
  acceptRanges := "bytes".toList
  body := body
  contentLength := s.len
  contentRange := range.map fun _ => ⟨s.start, s.stop, s.size⟩
  contentType := "application/octet-stream".toList
  eTag := hex s.etag
  lastModified := s.createdAt

theorem getObject_served (there : Except ReadError Bool) {s : SliceMeta} {body : PieceBody}
    (h : (getBody env bucket key (rangeParams range).1 (rangeParams range).2.1
      (rangeParams range).2.2 c).1 = .served s body) :
    (s.fits → getObject env there bucket key range c = .ok (s.output body range)) ∧
      (¬ s.fits → getObject env there bucket key range c = .error .invalidRange) := by
  unfold getObject SliceMeta.fits
  simp only [h]
  constructor
  · intro hfits
    rw [if_neg]
    · rfl
    · rintro ⟨hpos, hbad⟩
      have := hfits hpos
      omega
  · intro hbad
    rw [if_pos]
    rw [Classical.not_imp] at hbad
    exact ⟨hbad.1, by omega⟩

theorem getObject_ok {out : GetOutput} (h : getObject env there bucket key range c = .ok out) :
    ∃ s body, (getBody env bucket key (rangeParams range).1 (rangeParams range).2.1
      (rangeParams range).2.2 c).1 = .served s body ∧ s.fits ∧ out = s.output body range := by
  cases hget : (getBody env bucket key (rangeParams range).1 (rangeParams range).2.1
      (rangeParams range).2.2 c).1 with
  | absent => simp [getObject, hget] at h
  | failed e => simp [getObject, hget] at h
  | served s body =>
      obtain ⟨hok, hbad⟩ := getObject_served there hget
      by_cases hfits : s.fits
      · rw [hok hfits] at h
        exact ⟨s, body, rfl, hfits, (Except.ok.inj h).symm⟩
      · rw [hbad hfits] at h
        cases h

/-! ## Content-Range -/

/-- A `Content-Range` that goes with its `Content-Length` and its body. -/
structure GetOutput.Describes (out : GetOutput) (cr : ContentRange) : Prop where
  start_nonneg : 0 ≤ cr.start
  start_le : cr.start ≤ cr.stop
  stop_lt : cr.stop < cr.size
  length_eq : out.contentLength = cr.stop - cr.start + 1
  body : ∀ bytes, collect out.body.messages = .ok bytes →
    (bytes.length : ℤ) = cr.stop - cr.start + 1

/-- A partial response tells the size of the version it is made from, and describes itself
correctly exactly when that version is not empty. -/
theorem content_range_describes_iff {out : GetOutput} {cr : ContentRange}
    (h : getObject env there bucket key range c = .ok out) (hcr : out.contentRange = some cr) :
    ∃ (i : Fin 2) (m : Meta) (c₁ c₂ : MetaCache),
      lookupMeta ((env i).touch c₁) bucket key (env i).lookup = (.ok (some m), c₂) ∧
      cr.size = m.size ∧ out.eTag = hex m.etag ∧ (out.Describes cr ↔ 0 < m.size) := by
  obtain ⟨s, body, hget, hfits, rfl⟩ := getObject_ok h
  obtain ⟨i, m, c₁, c₂, -, hl, hserve⟩ := getBody_served hget
  obtain ⟨rfl, -⟩ := serve_served hserve
  set s := m.sliceMeta (rangeParams range).1 (rangeParams range).2.1 (rangeParams range).2.2 with hs
  have hcr' : cr = ⟨s.start, s.stop, s.size⟩ := by
    cases range with
    | none => cases hcr
    | some r => exact (Option.some.inj hcr).symm
  subst hcr'
  obtain ⟨hlo, hhi⟩ := @effRange_bounds (rangeParams range).1 (rangeParams range).2.1
    (rangeParams range).2.2 m.size
  refine ⟨i, m, c₁, c₂, hl, rfl, rfl, ?_, fun hpos => ?_⟩
  · intro hdesc
    exact (hdesc.start_nonneg.trans hdesc.start_le).trans_lt hdesc.stop_lt
  · obtain ⟨hle, hlt⟩ := hfits hpos
    have hlen : s.len = s.stop - s.start + 1 := max_eq_left (by omega)
    exact ⟨hlo, hle, hhi, hlen, fun bytes hbytes => (length_served hserve hbytes).trans hlen⟩

/-- A GET of the only version of a key, while nothing happens. -/
def getOnce (sha256 : Bytes → Bytes) (ops : List Op) (bucket key : Text) (range : Option Range) :
    Except S3Error GetOutput :=
  getObject (fun _ => attemptBetween sha256 ops bucket key ops.length ops.length) (.ok true) bucket
    key range MetaCache.empty

theorem quietGet_attemptBetween (ops : List Op) :
    QuietGet (Ledger.empty.run sha256 ops).db bucket key
      (fun _ => attemptBetween sha256 ops bucket key ops.length ops.length) MetaCache.empty := by
  have hall : stateAt sha256 ops ops.length = Ledger.empty.run sha256 ops := by
    rw [stateAt, List.take_length]
  refine ⟨fun _ => ⟨fun _ => rfl, by rw [← hall]; rfl, fun p => ?_⟩, by simp⟩
  exact ⟨selectRows (Ledger.empty.run sha256 ops).db p, .refl _, by rw [← hall]; rfl⟩

def emptyObject : List Op := [.createBucket 0 ['b'], .put 1 ['b'] ['k'] .unconditional []]

def oneByte : List Op := [.createBucket 0 ['b'], .put 1 ['b'] ['k'] .unconditional [[7]]]

theorem content_range_describes_iff_oneByte :
    ∃ (out : GetOutput) (cr : ContentRange),
      getOnce noHash oneByte ['b'] ['k'] (some (.int 0 (some 5))) = .ok out ∧
      out.contentRange = some cr ∧ ∃ (_ : Fin 2) (m : Meta) (c₁ c₂ : MetaCache),
        lookupMeta ((attemptBetween noHash oneByte ['b'] ['k'] 2 2).touch c₁) ['b'] ['k']
          (attemptBetween noHash oneByte ['b'] ['k'] 2 2).lookup = (.ok (some m), c₂) ∧
        cr.size = m.size ∧ out.eTag = hex m.etag ∧ (out.Describes cr ↔ 0 < m.size) := by
  have hget : getOnce noHash oneByte ['b'] ['k'] (some (.int 0 (some 5))) =
      .ok ((⟨1, [], 1, 1, 0, 0⟩ : SliceMeta).output (.oneShot [7]) (some (.int 0 (some 5)))) := by
    decide +kernel
  exact ⟨_, _, hget, rfl, content_range_describes_iff hget rfl⟩

/-- `Content-Range: bytes 0--1/0`. -/
theorem empty_object_content_range :
    ∃ (out : GetOutput), getOnce noHash emptyObject ['b'] ['k'] (some (.int 0 (some 0))) = .ok out ∧
      out.contentRange = some ⟨0, -1, 0⟩ ∧ ¬ out.Describes ⟨0, -1, 0⟩ := by
  have hget : getOnce noHash emptyObject ['b'] ['k'] (some (.int 0 (some 0))) =
      .ok ((⟨0, [], 1, 1, 0, -1⟩ : SliceMeta).output (.oneShot []) (some (.int 0 (some 0)))) := by
    decide +kernel
  exact ⟨_, hget, rfl, fun h => absurd h.start_le (by decide)⟩

/-! ## RFC 9110 -/

/-- The bytes that a range selects of `n` bytes, first and last; `none` when the range is
unsatisfiable. -/
def selectedRange (n : ℤ) : Option Range → Option (ℤ × ℤ)
  | none => some (0, n - 1)
  | some (.int first last) =>
      if n ≤ first.toNat then none
      else some (first.toNat, (last.map fun v => min (v.toNat : ℤ) (n - 1)).getD (n - 1))
  | some (.suffix length) =>
      if length = 0 then none else some (n - min (length.toNat : ℤ) n, n - 1)

/-- The ranges that `s3s` lets through: it answers a header itself whose first or last byte
does not fit an `i64`, or whose last byte is before the first. -/
def Range.Parsed : Range → Prop
  | .int first last =>
      first.toNat < 2 ^ 63 ∧ ∀ v, last = some v → v.toNat < 2 ^ 63 ∧ first ≤ v
  | .suffix _ => True

theorem asI64_of_lt {x : ℕ} (h : x < 2 ^ 63) : asI64 x = x := by
  unfold asI64
  rw [Int.bmod_eq_of_le] <;> omega

theorem asI64_of_ge {x : ℕ} (h : 2 ^ 63 ≤ x) (h' : x < 2 ^ 64) : asI64 x = x - 2 ^ 64 := by
  unfold asI64
  rw [← Int.sub_bmod_right, Int.bmod_eq_of_le] <;> omega

/-- A cast to `i64` keeps a number or makes it negative. -/
theorem asI64_cases (v : UInt64) :
    (asI64 v.toNat = v.toNat ∧ v.toNat < 2 ^ 63) ∨ (asI64 v.toNat < 0 ∧ 2 ^ 63 ≤ v.toNat) := by
  have hv := v.toNat_lt
  by_cases h : v.toNat < 2 ^ 63
  · exact .inl ⟨asI64_of_lt h, h⟩
  · refine .inr ⟨?_, not_lt.mp h⟩
    rw [asI64_of_ge (not_lt.mp h) hv]
    omega

def effectiveRange (n : ℤ) (range : Option Range) : ℤ × ℤ :=
  effRange n (rangeParams range).1 (rangeParams range).2.1 (rangeParams range).2.2

theorem effectiveRange_open (n : ℤ) (first : UInt64) :
    effectiveRange n (some (.int first none)) = effRange n (asI64 first.toNat) (-1) (-1) := rfl

theorem effectiveRange_last (n : ℤ) (first last : UInt64) :
    effectiveRange n (some (.int first (some last))) =
      effRange n (asI64 first.toNat) (asI64 last.toNat) (-1) := by
  change effRange n (asI64 first.toNat) (((some last).map fun v => asI64 v.toNat).getD (-1)) (-1) = _
  rw [Option.map_some, Option.getD_some]

theorem effRange_suffix {n first last suffix : ℤ} (h : 0 ≤ suffix) :
    effRange n first last suffix = (max (n - suffix) 0, n - 1) := if_pos h

theorem effRange_last {n first last suffix : ℤ} (h : suffix < 0) (hlast : 0 ≤ last) :
    effRange n first last suffix = (max first 0, min last (n - 1)) := by
  rw [effRange, if_neg (not_le.mpr h), if_pos hlast]

theorem effRange_open {n first last suffix : ℤ} (h : suffix < 0) (hlast : last < 0) :
    effRange n first last suffix = (max first 0, n - 1) := by
  rw [effRange, if_neg (not_le.mpr h), if_neg (not_le.mpr hlast)]

theorem effectiveRange_suffix {n : ℤ} (hpos : 0 < n) (hn : n < 2 ^ 63) (length : UInt64) :
    effectiveRange n (some (.suffix length)) = (n - min (length.toNat : ℤ) n, n - 1) := by
  change effRange n 0 (-1) (asI64 length.toNat) = _
  rcases asI64_cases length with ⟨heq, _⟩ | ⟨hneg, _⟩
  · rw [effRange_suffix (by omega), heq]
    exact Prod.ext (by dsimp only; omega) rfl
  · rw [effRange_open hneg (by omega)]
    exact Prod.ext (by dsimp only; omega) rfl

theorem effectiveRange_int {n : ℤ} (hn : n < 2 ^ 63) {first : UInt64} (last : Option UInt64)
    (hfirst : first.toNat < 2 ^ 63) : effectiveRange n (some (.int first last)) =
      (↑first.toNat, (last.map fun v => min (v.toNat : ℤ) (n - 1)).getD (n - 1)) := by
  have heq := asI64_of_lt hfirst
  cases last with
  | none =>
      rw [effectiveRange_open, effRange_open (by decide) (by decide), heq]
      exact Prod.ext (by dsimp only; omega) rfl
  | some last =>
      rw [effectiveRange_last, Option.map_some, Option.getD_some]
      rcases asI64_cases last with ⟨heq', _⟩ | ⟨hneg, _⟩
      · rw [effRange_last (by omega) (by omega), heq, heq']
        exact Prod.ext (by dsimp only; omega) rfl
      · rw [effRange_open (by omega) hneg, heq]
        exact Prod.ext (by dsimp only; omega) (by dsimp only; omega)

/-- The handler computes the selected range, or one that does not fit the object. -/
theorem effectiveRange_selected {n : ℤ} (hpos : 0 < n) (hn : n < 2 ^ 63)
    (hparsed : ∀ r, range = some r → r.Parsed) :
    match selectedRange n range with
    | none => ¬ ((effectiveRange n range).1 ≤ (effectiveRange n range).2 ∧
        (effectiveRange n range).1 < n)
    | some (start, stop) => effectiveRange n range = (start, stop) ∧ 0 ≤ start ∧ start ≤ stop ∧
        stop < n := by
  cases range with
  | none =>
      have heq : effectiveRange n none = (0, n - 1) := by
        change effRange n 0 (-1) (-1) = _
        exact effRange_open (by omega) (by omega)
      exact ⟨heq, le_rfl, by omega, by omega⟩
  | some r =>
      cases r with
      | suffix length =>
          rw [effectiveRange_suffix hpos hn, selectedRange]
          by_cases hzero : length = 0
          · rw [if_pos hzero, hzero]
            simp only [UInt64.toNat_zero]
            omega
          · have hlength : length.toNat ≠ 0 := fun h => hzero (UInt64.toNat_inj.mp h)
            rw [if_neg hzero]
            exact ⟨rfl, by omega, by omega, by omega⟩
      | int first last =>
          obtain ⟨hfirst, hlast⟩ := hparsed _ rfl
          rw [effectiveRange_int hn last hfirst, selectedRange]
          by_cases hout : n ≤ first.toNat
          · rw [if_pos hout]
            dsimp only
            omega
          · rw [if_neg hout]
            refine ⟨rfl, by omega, ?_, ?_⟩
            · cases last with
              | none => simp only [Option.map_none, Option.getD_none]; omega
              | some last =>
                  have hle : first.toNat ≤ last.toNat := UInt64.le_iff_toNat_le.mp (hlast _ rfl).2
                  simp only [Option.map_some, Option.getD_some]
                  omega
            · cases last with
              | none => simp only [Option.map_none, Option.getD_none]; omega
              | some last => simp only [Option.map_some, Option.getD_some]; omega

/-- All rows of the object are there, and few enough to number. -/
def Intact (l : Ledger) (r : ObjectRow) : Prop :=
  ∀ f ∈ r.files, FewRows (l.written f) ∧ f ∉ l.reaped

/-- What RFC 9110 asks of the answer to a request for a range of `r`: `InvalidRange` when it is
unsatisfiable, and otherwise the selected bytes. -/
def AnswersRange (l : Ledger) (r : ObjectRow) (range : Option Range)
    (answer : Except S3Error GetOutput) : Prop :=
  match selectedRange r.size range with
  | none => answer = .error .invalidRange
  | some (start, stop) => answer ≠ .error .invalidRange ∧
      (∀ out, answer = .ok out → out.contentLength = stop - start + 1 ∧
        out.contentRange = range.map (fun _ => ⟨start, stop, r.size⟩) ∧
        ∀ bytes, collect out.body.messages = .ok bytes →
          bytes = sliceOf (r.files.flatMap l.written) start.toNat (stop + 1).toNat) ∧
      (Intact l r → ∃ out bytes, answer = .ok out ∧ collect out.body.messages = .ok bytes)

theorem serve_ne_absent (m : Meta) (spawn : Piece → Fetch) (first last suffix : ℤ) :
    serve m spawn first last suffix ≠ .absent := by
  unfold serve answer
  split
  · simp
  · split
    · simp
    · simp
    · split <;> simp

section

variable {l : Ledger} {r : ObjectRow} (hc : Consistent sha256 l)
  (hr : l.db.objects.find? (bucket, key) = some r)

include hc in
theorem AtRest.genuine {env : Attempt} (h : AtRest l.db bucket key env) {p : Piece} :
    p.Genuine l.written (arrived (env.spawn p)) := by
  obtain ⟨rows, hperm, hspawn⟩ := h.spawn_perm p
  rw [hspawn, arrived_map_ok]
  refine ⟨(hperm.map _).nodup_iff.mpr (nodup_selectRows l.db p), fun q hq => ?_⟩
  obtain ⟨hmem, hf, hno⟩ := mem_selectRows.mp (hperm.mem_iff.mp hq)
  exact ⟨hf ▸ hc.chunks q hmem, hno⟩

include hc hr in
/-- At rest an attempt serves the row, from its own bytes, and in full when it is intact. -/
theorem getBody_serves (hget : QuietGet l.db bucket key env c) (first last suffix : ℤ) :
    ∃ (i : Fin 2) (now : ℤ), (getBody env bucket key first last suffix c).1 =
        serve (r.metaAt now) (env i).spawn first last suffix ∧
      (∀ s body, serve (r.metaAt now) (env i).spawn first last suffix = .served s body →
        FromVersion r (r.files.flatMap l.written) first last suffix s body) ∧
      (Intact l r → ∃ slice,
        (serve (r.metaAt now) (env i).spawn first last suffix).slice = .ok (some slice)) := by
  have hmem := (Table.find?_eq_some_iff.mp hr).1
  obtain ⟨i, now, -, hbody⟩ := getBody_atRest hr hget.atRest (hget.cachesRow hr) first last suffix
  refine ⟨i, now, hbody, fun s body hserve => ?_, fun hintact => ?_⟩
  · refine serve_fromVersion (hc.objects r hmem) (fun f hf => ?_) (fun p _ => ?_) hserve
    · exact hc.distinct f (mem_ownedFiles.mpr (.inl ⟨r, hmem, hf⟩))
    · exact (hget.atRest i).genuine hc
  · refine ⟨_, (serve_full ((hc.objects r hmem).describesAt now) (fun f hf => (hintact f hf).1)
      fun p hp hin => ?_).1⟩
    obtain ⟨rows, hperm, hspawn⟩ := (hget.atRest i).spawn_perm p
    have hfile := hc.fileIs (mem_ownedFiles.mpr (.inl ⟨r, hmem, hp⟩)) (hintact _ hp).2
    exact ⟨rows, hperm.trans (selectRows_perm hin (hintact _ hp).1.distinct hfile), hspawn⟩

include hc hr in
/-- At rest the handler answers `InvalidRange` exactly when the effective range does not fit,
and otherwise serves it, in full when the object is intact. -/
theorem getObject_atRest (there : Except ReadError Bool) (range : Option Range)
    (hget : QuietGet l.db bucket key env c) (hpos : 0 < r.size) :
    ((getObject env there bucket key range c = .error .invalidRange) ↔
      ¬ (effectiveRange r.size range).1 ≤ (effectiveRange r.size range).2) ∧
    (∀ out, getObject env there bucket key range c = .ok out →
      out.contentLength = (effectiveRange r.size range).2 - (effectiveRange r.size range).1 + 1 ∧
      out.contentRange = range.map (fun _ =>
        ⟨(effectiveRange r.size range).1, (effectiveRange r.size range).2, r.size⟩) ∧
      ∀ bytes, collect out.body.messages = .ok bytes →
        bytes = sliceOf (r.files.flatMap l.written) (effectiveRange r.size range).1.toNat
          ((effectiveRange r.size range).2 + 1).toNat) ∧
    (Intact l r → (effectiveRange r.size range).1 ≤ (effectiveRange r.size range).2 →
      ∃ out bytes, getObject env there bucket key range c = .ok out ∧
        collect out.body.messages = .ok bytes) := by
  obtain ⟨i, now, hbody, hversion, hfull⟩ := getBody_serves hc hr hget (rangeParams range).1
    (rangeParams range).2.1 (rangeParams range).2.2
  have hbounds := @effRange_bounds (rangeParams range).1 (rangeParams range).2.1
    (rangeParams range).2.2 r.size
  change 0 ≤ (effectiveRange r.size range).1 ∧ (effectiveRange r.size range).2 < r.size at hbounds
  cases hserve : serve (r.metaAt now) (env i).spawn (rangeParams range).1 (rangeParams range).2.1
      (rangeParams range).2.2 with
  | absent => exact (serve_ne_absent _ _ _ _ _ hserve).elim
  | failed e =>
      have hanswer : getObject env there bucket key range c = .error .internalError := by
        simp [getObject, hbody, hserve]
      rw [hanswer]
      refine ⟨⟨by simp, fun hcross => ?_⟩, by simp, fun hintact _ => ?_⟩
      · have hlen : ((r.metaAt now).sliceMeta (rangeParams range).1 (rangeParams range).2.1
            (rangeParams range).2.2).len = 0 := by
          change max ((effectiveRange r.size range).2 - (effectiveRange r.size range).1 + 1) 0 = 0
          omega
        rw [serve, if_pos hlen] at hserve
        cases hserve
      · obtain ⟨slice, hslice⟩ := hfull hintact
        rw [hserve] at hslice
        cases hslice
  | served s body =>
      obtain ⟨hs, -⟩ := serve_served hserve
      have hfits : s.fits ↔ (effectiveRange r.size range).1 ≤ (effectiveRange r.size range).2 := by
        rw [hs]
        constructor
        · exact fun h => (h hpos).1
        · exact fun h _ => ⟨h, h.trans_lt hbounds.2⟩
      obtain ⟨hok, hbad⟩ := getObject_served there (hbody.trans hserve)
      refine ⟨⟨fun hinvalid hle => ?_, fun hcross => hbad (mt hfits.mp hcross)⟩, fun out hout => ?_,
        fun hintact hle => ?_⟩
      · rw [hok (hfits.mpr hle)] at hinvalid
        cases hinvalid
      · by_cases hle : (effectiveRange r.size range).1 ≤ (effectiveRange r.size range).2
        · rw [hok (hfits.mpr hle)] at hout
          obtain rfl := Except.ok.inj hout
          refine ⟨?_, by rw [hs]; rfl, fun bytes hbytes => ?_⟩
          · rw [hs]
            change max ((effectiveRange r.size range).2 - (effectiveRange r.size range).1 + 1) 0 = _
            omega
          · rw [(hversion _ _ hserve).whole bytes hbytes, hs]
            rfl
        · rw [hbad (mt hfits.mp hle)] at hout
          cases hout
      · obtain ⟨slice, hslice⟩ := hfull hintact
        rw [hserve] at hslice
        simp only [GetResult.slice] at hslice
        refine ⟨s.output body range, ?_⟩
        cases hcollect : collect body.messages with
        | ok bytes => exact ⟨bytes, hok (hfits.mpr hle), hcollect⟩
        | error e =>
            rw [hcollect] at hslice
            cases hslice

end

/-- Ranges are served as RFC 9110 asks. -/
theorem range_follows_rfc9110 {past : List Op} {r : ObjectRow}
    (hr : (Ledger.empty.run sha256 past).db.objects.find? (bucket, key) = some r)
    (hpos : 0 < r.size) (hsize : r.size < 2 ^ 63)
    (hget : QuietGet (Ledger.empty.run sha256 past).db bucket key env c)
    (hparsed : ∀ q, range = some q → q.Parsed) :
    AnswersRange (Ledger.empty.run sha256 past) r range
      (getObject env there bucket key range c) := by
  obtain ⟨hinvalid, hserved, hfull⟩ :=
    getObject_atRest (consistent_empty.run past) hr there range hget hpos
  have hsel := effectiveRange_selected hpos hsize hparsed
  unfold AnswersRange
  cases hselected : selectedRange r.size range with
  | none =>
      rw [hselected] at hsel
      have hbounds := @effRange_bounds (rangeParams range).1 (rangeParams range).2.1
        (rangeParams range).2.2 r.size
      exact hinvalid.mpr fun hle => hsel ⟨hle, hle.trans_lt hbounds.2⟩
  | some bounds =>
      obtain ⟨start, stop⟩ := bounds
      rw [hselected] at hsel
      obtain ⟨heq, -, hle, -⟩ := hsel
      rw [heq] at hinvalid hserved hfull
      exact ⟨fun h => hinvalid.mp h hle, hserved, fun hintact => hfull hintact hle⟩

def threeBytes : List Op := [.createBucket 0 ['b'], .put 1 ['b'] ['k'] .unconditional [[7, 8], [9]]]

theorem range_follows_rfc9110_threeBytes :
    AnswersRange (Ledger.empty.run noHash threeBytes) ⟨['b'], ['k'], 1, 3, [], 1, none, none⟩
      (some (.int 1 (some 9223372036854775807)))
      (getOnce noHash threeBytes ['b'] ['k'] (some (.int 1 (some 9223372036854775807)))) := by
  have hr : (Ledger.empty.run noHash threeBytes).db.objects.find? (['b'], ['k']) =
      some ⟨['b'], ['k'], 1, 3, [], 1, none, none⟩ := by
    decide +kernel
  refine range_follows_rfc9110 hr (by decide) (by decide) (quietGet_attemptBetween threeBytes) ?_
  rintro q ⟨⟩
  refine ⟨by decide, ?_⟩
  rintro v ⟨⟩
  exact ⟨by decide, by decide⟩

end Pgvs3
