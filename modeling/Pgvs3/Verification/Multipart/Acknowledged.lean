import Pgvs3.Model.Handlers
import Pgvs3.Verification.Multipart.Complete

/-! # What a success answer to Complete means

The handler answers success for a Complete that published, and also for one whose upload
is gone when some object stands at the key. -/

namespace Pgvs3

open Library

variable {sha256 : Bytes → Bytes}

/-- In the run `ops`, a Complete of this upload and key with this listing, in any order,
published an object with the ETag `eTag`: the hash of the listed part hashes. -/
def PublishedBy (sha256 : Bytes → Bytes) (ops : List Op) (uploadId bucket key : Text)
    (listed : List (ℤ × Text)) (eTag : Text) : Prop :=
  ∃ past now listed' rest etag size, ops = past ++ .completeUpload now uploadId bucket key listed' :: rest ∧
    (apply sha256 (run sha256 Db.empty past) (.completeUpload now uploadId bucket key listed')).2 =
      .completed (.done bucket key etag size) ∧
    sortListed listed' = sortListed listed ∧ eTag = hex etag ∧
    ∃ hashes : List Bytes, (sortListed listed).map Prod.snd = hashes.map hex ∧
      etag = sha256 hashes.flatten

theorem PublishedBy.append {ops ops' : List Op} {uploadId bucket key eTag : Text}
    {listed : List (ℤ × Text)} (h : PublishedBy sha256 ops uploadId bucket key listed eTag) :
    PublishedBy sha256 (ops ++ ops') uploadId bucket key listed eTag := by
  obtain ⟨past, now, listed', rest, etag, size, rfl, hdone, hrest⟩ := h
  exact ⟨past, now, listed', rest ++ ops', etag, size, by simp, hdone, hrest⟩

theorem PublishedBy.of_append {ops : List Op} {op : Op} {uploadId bucket key eTag : Text}
    {listed : List (ℤ × Text)}
    (h : PublishedBy sha256 (ops ++ [op]) uploadId bucket key listed eTag)
    (hop : ∀ b k etag size,
      (apply sha256 (run sha256 Db.empty ops) op).2 ≠ .completed (.done b k etag size)) :
    PublishedBy sha256 ops uploadId bucket key listed eTag := by
  obtain ⟨past, now, listed', rest, etag, size, heq, hdone, hrest⟩ := h
  rcases List.eq_nil_or_concat' rest with rfl | ⟨rest, last, rfl⟩
  · obtain ⟨rfl, hlast⟩ := List.append_inj' heq rfl
    rw [List.singleton_inj] at hlast
    exact (hop _ _ _ _ (hlast ▸ hdone)).elim
  · rw [← List.cons_append, ← List.append_assoc] at heq
    obtain ⟨rfl, -⟩ := List.append_inj' heq rfl
    exact ⟨past, now, listed', rest, etag, size, rfl, hdone, hrest⟩

/-- The run `ops` holds a Complete of this upload and key with this listing, in any order,
that found the upload with the listed parts. -/
def AcceptedBefore (sha256 : Bytes → Bytes) (ops : List Op) (uploadId bucket key : Text)
    (listed : List (ℤ × Text)) : Prop :=
  ∃ past now listed' rest,
    ops = past ++ .completeUpload now uploadId bucket key listed' :: rest ∧
    sortListed listed' = sortListed listed ∧
    CompleteAccepts (run sha256 Db.empty past) uploadId bucket key listed'

/-- The ETag of an object made of the listed parts. -/
def ListedEtag (sha256 : Bytes → Bytes) (listed : List (ℤ × Text)) (etag : Bytes) : Prop :=
  ∃ hashes : List Bytes, (sortListed listed).map Prod.snd = hashes.map hex ∧
    etag = sha256 hashes.flatten

theorem ListedEtag.eq {listed : List (ℤ × Text)} {etag etag' : Bytes}
    (h : ListedEtag sha256 listed etag) (h' : ListedEtag sha256 listed etag') : etag = etag' := by
  obtain ⟨hashes, hlisted, rfl⟩ := h
  obtain ⟨hashes', hlisted', rfl⟩ := h'
  rw [hex_injective.list_map (hlisted.symm.trans hlisted')]

theorem CompleteAccepts.listedEtag {db : Db} {uploadId bucket key : Text}
    {listed : List (ℤ × Text)} (h : CompleteAccepts db uploadId bucket key listed) :
    ListedEtag sha256 listed (completeWrite sha256 (recordedParts db uploadId)).etag := by
  refine ⟨(recordedParts db uploadId).map (·.sha256), ?_, ?_⟩
  · rw [h.2.2, List.map_map, List.map_map]
    rfl
  · rw [completeWrite, List.flatMap_def]

theorem apply_accepted {past : List Op} {uploadId bucket key : Text} {listed : List (ℤ × Text)}
    (now : ℤ) (h : CompleteAccepts (run sha256 Db.empty past) uploadId bucket key listed) :
    (apply sha256 (run sha256 Db.empty past) (.completeUpload now uploadId bucket key listed)).2 =
      .completed (.done bucket key
        (completeWrite sha256 (recordedParts (run sha256 Db.empty past) uploadId)).etag
        (completeWrite sha256 (recordedParts (run sha256 Db.empty past) uploadId)).size) := by
  have hdb : (Ledger.empty.run sha256 past).db = run sha256 Db.empty past := ledger_run_db _ _ _
  have hbuckets := uploadsHaveBuckets_run sha256 past
  rw [← hdb] at h hbuckets ⊢
  simp only [apply, (apply_complete now (consistent_empty.run past) hbuckets h).1]

/-- The Completes that published are those that were accepted. -/
theorem publishedBy_iff {ops : List Op} {uploadId bucket key : Text} {listed : List (ℤ × Text)}
    {etag : Bytes} : PublishedBy sha256 ops uploadId bucket key listed (hex etag) ↔
      AcceptedBefore sha256 ops uploadId bucket key listed ∧ ListedEtag sha256 listed etag := by
  constructor
  · rintro ⟨past, now, listed', rest, etag', size, hops, hdone, hsame, htext, hetag⟩
    refine ⟨⟨past, now, listed', rest, hops, hsame, ?_⟩, hex_injective htext ▸ hetag⟩
    rcases completeUpload_cases sha256 (run sha256 Db.empty past) now uploadId bucket key listed'
      with ⟨-, h⟩ | ⟨-, -, h⟩ | ⟨-, -, e, h⟩ | ⟨haccept, -, -⟩
    · simp [apply, h] at hdone
    · simp [apply, h] at hdone
    · simp [apply, h] at hdone
    · exact haccept
  · rintro ⟨⟨past, now, listed', rest, hops, hsame, haccept⟩, hetag⟩
    refine ⟨past, now, listed', rest, _, _, hops, apply_accepted now haccept, hsame, ?_, ?_⟩
    · have hlisted : ListedEtag sha256 listed' etag := by
        rwa [ListedEtag, hsame]
      rw [hlisted.eq haccept.listedEtag]
    · have hlisted := @CompleteAccepts.listedEtag sha256 _ _ _ _ _ haccept
      rwa [ListedEtag, hsame] at hlisted

/-! ## The handler -/

section Handler

variable {past between : List Op} {now : ℤ} {input : CompleteInput} {fault : Option ReadError}

/-- The handler's answer when its transaction runs after `past` and its lookup after
`between` as well. -/
def answerTo (sha256 : Bytes → Bytes) (past between : List Op) (now : ℤ) (input : CompleteInput)
    (fault : Option ReadError) : Except S3Error CompleteOutput :=
  completeMultipartUpload sha256 (run sha256 Db.empty past)
    (run sha256 (run sha256 Db.empty past) between) now input fault

/-- A success answer acknowledges a publication: this request or an earlier one completed
the upload of this key with this listing, and the answer has the ETag of that object. -/
def Truthful (sha256 : Bytes → Bytes) (past : List Op) (now : ℤ) (input : CompleteInput)
    (answer : Except S3Error CompleteOutput) : Prop :=
  ∀ out, answer = .ok out → out.bucket = input.bucket ∧ out.key = input.key ∧
    ∃ listed, input.listed = .ok listed ∧
      PublishedBy sha256
        (past ++ [.completeUpload now input.uploadId input.bucket input.key listed])
        input.uploadId input.bucket input.key listed out.eTag

/-- The upload is still recorded for the key, or the lookup fails, or whatever stands at the
key by then has the ETag of the listed parts and a Complete of the upload with this listing
was accepted before. -/
def UploadAccountedFor (sha256 : Bytes → Bytes) (past between : List Op) (input : CompleteInput)
    (fault : Option ReadError) (listed : List (ℤ × Text)) : Prop :=
  UploadAt (run sha256 Db.empty past) input.uploadId input.bucket input.key ∨ fault ≠ none ∨
    ∀ r ∈ (run sha256 (run sha256 Db.empty past) between).objects,
      r.primaryKey = (input.bucket, input.key) →
        AcceptedBefore sha256 past input.uploadId input.bucket input.key listed ∧
          ListedEtag sha256 listed r.etag

theorem answerTo_of_uploadAt {listed : List (ℤ × Text)} (hlisted : input.listed = .ok listed)
    (hat : UploadAt (run sha256 Db.empty past) input.uploadId input.bucket input.key) :
    Truthful sha256 past now input (answerTo sha256 past between now input fault) := by
  intro out hout
  unfold answerTo completeMultipartUpload at hout
  simp only [hlisted] at hout
  rcases completeUpload_cases sha256 (run sha256 Db.empty past) now input.uploadId input.bucket
    input.key listed with ⟨hno, -⟩ | ⟨-, -, h⟩ | ⟨-, -, e, h⟩ | ⟨haccept, hfits, h⟩
  · exact (hno hat).elim
  · simp [h] at hout
  · simp [h] at hout
  · simp only [h, Except.ok.injEq] at hout
    subst hout
    exact ⟨rfl, rfl, listed, hlisted, publishedBy_iff.mpr
      ⟨⟨past, now, listed, [], rfl, rfl, haccept⟩, haccept.listedEtag⟩⟩

theorem answerTo_of_not_uploadAt {listed : List (ℤ × Text)} (hlisted : input.listed = .ok listed)
    (hno : ¬ UploadAt (run sha256 Db.empty past) input.uploadId input.bucket input.key) :
    (apply sha256 (run sha256 Db.empty past)
        (.completeUpload now input.uploadId input.bucket input.key listed)).2 =
          .completed .noSuchUpload ∧
      answerTo sha256 past between now input fault = answerRetried input
        (metaQuery (run sha256 (run sha256 Db.empty past) between) input.bucket input.key fault) := by
  unfold answerTo completeMultipartUpload
  rcases completeUpload_cases sha256 (run sha256 Db.empty past) now input.uploadId input.bucket
    input.key listed with ⟨-, h⟩ | ⟨hat, -, -⟩ | ⟨haccept, -, -⟩ | ⟨haccept, -, -⟩
  · simp only [apply, hlisted, h, and_self]
  · exact (hno hat).elim
  · exact (hno haccept.1).elim
  · exact (hno haccept.1).elim

/-- In every run, the handler acknowledges only what was published if and only if its
upload is accounted for. -/
theorem complete_acknowledged_iff (sha256 : Bytes → Bytes) (past between : List Op) (now : ℤ)
    (input : CompleteInput) (fault : Option ReadError) :
    Truthful sha256 past now input (answerTo sha256 past between now input fault) ↔
      ∀ listed, input.listed = .ok listed →
        UploadAccountedFor sha256 past between input fault listed := by
  cases hlisted : input.listed with
  | error e =>
      have hout : answerTo sha256 past between now input fault = .error e := by
        simp only [answerTo, completeMultipartUpload, hlisted]
      simp [Truthful, hout]
  | ok listed =>
      by_cases hat : UploadAt (run sha256 Db.empty past) input.uploadId input.bucket input.key
      · refine ⟨fun _ _ _ => .inl hat, fun _ => answerTo_of_uploadAt hlisted hat⟩
      obtain ⟨hop, hanswer⟩ := @answerTo_of_not_uploadAt sha256 past between now input fault _
        hlisted hat
      rw [hanswer]
      constructor
      · rintro htrue _ ⟨⟩
        refine .inr (or_iff_not_imp_left.mpr fun hfault r hr hk => ?_)
        obtain rfl := not_not.mp hfault
        have hfind := Table.find?_eq_some_iff.mpr ⟨hr, hk⟩
        obtain ⟨-, -, listed', hlisted', hpub⟩ := htrue _ (by
          rw [metaQuery, hfind, Option.map_some, answerRetried])
        rw [hlisted, Except.ok.injEq] at hlisted'
        subst hlisted'
        exact publishedBy_iff.mp (hpub.of_append fun _ _ _ _ hdone => by simp [hop] at hdone)
      · intro hcond out hout
        unfold metaQuery at hout
        cases fault with
        | some e => cases hout
        | none =>
            have hrows := ((hcond listed rfl).resolve_left hat).resolve_left (not_not.mpr rfl)
            cases hfind : (run sha256 (run sha256 Db.empty past) between).objects.find?
                (input.bucket, input.key) with
            | none =>
                rw [hfind] at hout
                cases hout
            | some r =>
                rw [hfind] at hout
                cases hout
                obtain ⟨hr, hk⟩ := Table.find?_eq_some_iff.mp hfind
                exact ⟨rfl, rfl, listed, hlisted, (publishedBy_iff.mpr (hrows r hr hk)).append⟩

end Handler

/-- An object, and an upload of its key that was begun and aborted. -/
def abortedRun : List Op :=
  [.createBucket 0 ['b'], .put 1 ['b'] ['k'] .unconditional [[1]],
    .createUpload 2 ['u'] ['b'] ['k'], .uploadPart 3 ['u'] 1 [[7]], .abortUpload ['u'] ['b'] ['k']]

/-- Complete of the aborted upload answers success with the ETag of the older object. -/
theorem aborted_upload_acknowledged :
    ¬ ∀ (sha256 : Bytes → Bytes) (past between : List Op) (now : ℤ) (input : CompleteInput)
      (fault : Option ReadError),
      Truthful sha256 past now input (answerTo sha256 past between now input fault) := by
  intro hall
  have hanswer : answerTo id abortedRun [] 6 ⟨['u'], ['b'], ['k'], some [⟨some 1, some (hex [7])⟩]⟩
      none = .ok ⟨none, ['b'], ['k'], hex [1]⟩ := by decide +kernel
  obtain ⟨-, -, listed, hlisted, hpub⟩ := hall id abortedRun [] 6 _ none _ hanswer
  have hop : (apply id (run id Db.empty abortedRun) (.completeUpload 6 ['u'] ['b'] ['k'] listed)).2 =
      .completed .noSuchUpload := by
    obtain rfl : [(1, hex [7])] = listed := Except.ok.inj hlisted
    decide +kernel
  obtain ⟨past, _, _, rest, _, _, heq, -⟩ := hpub.of_append fun _ _ _ _ hdone => by simp [hop] at hdone
  have hmem : ∀ o ∈ abortedRun, ∀ n u b k l, o ≠ .completeUpload n u b k l := by
    simp [abortedRun]
  exact hmem _ (heq ▸ List.mem_append_right _ List.mem_cons_self) _ _ _ _ _ rfl

end Pgvs3
