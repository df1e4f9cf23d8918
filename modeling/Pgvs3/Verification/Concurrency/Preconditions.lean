import Pgvs3.Model.WriteHandlers
import Pgvs3.Verification.Concurrency.Conditions
import Pgvs3.Verification.Concurrency.Versions

/-! # Preconditions of writes

A PUT checks its precondition under the lock of the key, and a deletion with a precondition
is refused before it begins. A Complete publishes whatever its precondition says. -/

namespace Pgvs3

open Library

variable {hash : Text → Text → ℤ} {sha256 : Bytes → Bytes} {db db' : Db} {bucket key : Text}

/-! ## What a precondition says -/

/-- The strong comparison, of `If-Match`. -/
def ETagCondition.Selects (c : ETagCondition) (o : ObjectRow) : Prop :=
  match c with
  | .any => True
  | .etag (.strong value) => hex o.etag = value
  | .etag (.weak _) => False

/-- The weak comparison, of `If-None-Match`. -/
def ETagCondition.Excludes (c : ETagCondition) (o : ObjectRow) : Prop :=
  match c with
  | .any => True
  | .etag e => hex o.etag = e.value

/-- A precondition on the version that a write replaces. -/
structure Precondition where
  ifMatch : Option ETagCondition
  ifNoneMatch : Option ETagCondition
  size : Option ℤ
  lastModified : Option ℤ

structure Precondition.Holds (p : Precondition) (old : Option ObjectRow) : Prop where
  ifMatch : ∀ c, p.ifMatch = some c → ∃ o, old = some o ∧ c.Selects o
  ifNoneMatch : ∀ c, p.ifNoneMatch = some c → ∀ o, old = some o → ¬ c.Excludes o
  size : ∀ n, p.size = some n → ∃ o, old = some o ∧ o.size = n
  lastModified : ∀ t, p.lastModified = some t → ∃ o, old = some o ∧ o.createdAt = t

def PutObjectInput.precondition (input : PutObjectInput) : Precondition :=
  ⟨input.ifMatch, input.ifNoneMatch, none, none⟩

def DeleteObjectInput.precondition (input : DeleteObjectInput) : Precondition :=
  ⟨input.ifMatch, none, input.ifMatchSize, input.ifMatchLastModifiedTime⟩

def ObjectIdentifier.precondition (obj : ObjectIdentifier) : Precondition :=
  ⟨obj.eTag.map .etag, none, obj.size, obj.lastModifiedTime⟩

def CompleteRequest.precondition (input : CompleteRequest) : Precondition :=
  ⟨input.ifMatch, input.ifNoneMatch, none, none⟩

/-- What a request demands of the version of a key. -/
def WriteRequest.demands (req : WriteRequest) (key : Text) : List Precondition :=
  match req with
  | .putObject input => [input.precondition]
  | .deleteObject input => [input.precondition]
  | .deleteObjects input =>
      (input.objects.filter fun obj => obj.key = key).map ObjectIdentifier.precondition
  | .completeMultipartUpload input => [input.precondition]

/-- What a store holds for a key: its object, its upload with the recorded parts, and the rows
of all their files. -/
def Db.atKey (db : Db) (bucket key : Text) :
    Option ObjectRow × Option UploadRow × List UploadPartRow × List ChunkRow :=
  let object := db.objects.find? (bucket, key)
  let upload := uploadAt? db bucket key
  let parts := upload.toList.flatMap fun u => recordedParts db u.uploadId
  let files := object.toList.flatMap ObjectRow.files ++ parts.map (·.fileId)
  (object, upload, parts, db.chunks.rows.filter fun c => c.fileId ∈ files)

/-- A request whose transaction replies and leaves the store as `after` is refused with nothing
changed for its key, or what it demands held of the version that its key had when the
transaction decided. -/
def Heeds (req : WriteRequest) (lookups : Lookups) (r : Reply Db Job Outcome) (after : Db) : Prop :=
  ∀ bucket key, r.job.target? = some (bucket, key) →
    (req.refuses lookups r.reply = true ∧ after.atKey bucket key = r.before.atKey bucket key) ∨
      ∀ p ∈ req.demands key, p.Holds (r.before.objects.find? (bucket, key))

theorem Precondition.holds_none (old : Option ObjectRow) :
    (⟨none, none, none, none⟩ : Precondition).Holds old where
  ifMatch := by simp
  ifNoneMatch := by simp
  size := by simp
  lastModified := by simp

/-! ## PUT -/

theorem PutObjectInput.holds_of_allows {input : PutObjectInput} {condition : PutCondition}
    (h : input.condition = some condition) {old : Option ObjectRow}
    (hallow : condition.allows old = true) : input.precondition.Holds old := by
  unfold PutObjectInput.condition at h
  split at h
  · -- no condition
    rename_i hmatch hnone
    rw [PutObjectInput.precondition, hmatch, hnone]
    exact Precondition.holds_none old
  · -- `If-None-Match: *`
    rename_i hmatch hany
    obtain rfl := Option.some.inj h
    have habsent := allows_ifAbsent hallow
    exact ⟨by simp [PutObjectInput.precondition, hmatch], by simp [habsent],
      by simp [PutObjectInput.precondition], by simp [PutObjectInput.precondition]⟩
  · -- a strong `If-Match`
    rename_i value hmatch hnone
    split at h
    · obtain rfl := Option.some.inj h
      obtain ⟨o, hold, hetag⟩ := allows_ifMatch hallow
      refine ⟨?_, by simp [PutObjectInput.precondition, hnone],
        by simp [PutObjectInput.precondition], by simp [PutObjectInput.precondition]⟩
      intro c hc
      obtain rfl := Option.some.inj (hmatch.symm.trans hc)
      exact ⟨o, hold, hetag⟩
    · cases h
  · cases h

theorem put_refused {now fileId : ℤ} {condition : PutCondition} {pushes : List Bytes}
    {a : Outcome} (h : (Job.put now bucket key condition fileId pushes).serial sha256 db = (db', a))
    (ha : ∀ size sum, a ≠ .stored size sum) : db' = db := by
  simp only [Job.serial] at h
  split at h
  · cases h
    rfl
  · cases h
    exact (ha _ _ rfl).elim

theorem putObject_refuses {there : Except ReadError Bool} {a : Outcome}
    (ha : ∀ size sum, a ≠ .stored size sum) : (putObjectAnswer there a).toBool = false := by
  unfold putObjectAnswer
  split
  · exact (ha _ _ rfl).elim
  · rfl
  · rfl

/-! ## Complete -/

/-- The version at the key, or its absence, is what the headers ask for. -/
def CompleteRequest.Meets (input : CompleteRequest) : Option ObjectRow → Prop
  | none => input.ifMatch = none
  | some o => (∀ c, input.ifMatch = some c → c.Selects o) ∧
      ∀ c, input.ifNoneMatch = some c → ¬ c.Excludes o

theorem CompleteRequest.holds_iff_meets {input : CompleteRequest} {old : Option ObjectRow} :
    input.precondition.Holds old ↔ input.Meets old := by
  constructor
  · intro h
    cases old with
    | none =>
        refine Option.eq_none_iff_forall_ne_some.mpr fun c hc => ?_
        obtain ⟨o, ho, -⟩ := h.ifMatch c hc
        cases ho
    | some o =>
        refine ⟨fun c hc => ?_, fun c hc => h.ifNoneMatch c hc o rfl⟩
        obtain ⟨o', ho, hselects⟩ := h.ifMatch c hc
        exact Option.some.inj ho ▸ hselects
  · intro h
    refine ⟨fun c hc => ?_, fun c hc o ho => ?_, by simp [precondition], by simp [precondition]⟩
    · cases old with
      | none => cases h.symm.trans hc
      | some o => exact ⟨o, rfl, h.1 c hc⟩
    · exact (ho ▸ h : input.Meets (some o)).2 c hc

/-- A Complete whose headers ask for the version that is there, or that is refused for its part
list, or that finds neither its upload nor an object by the time it looks. -/
def CompleteRequest.Spares (input : CompleteRequest) (before : Db) (lookups : Lookups) : Prop :=
  input.Meets (before.objects.find? (input.bucket, input.key)) ∨
  (UploadAt before input.uploadId input.bucket input.key ∧ ∀ parts, input.listed = .ok parts →
    ¬ CompleteAccepts before input.uploadId input.bucket input.key parts) ∨
  (¬ UploadAt before input.uploadId input.bucket input.key ∧
    (lookups.fault ≠ none ∨ lookups.later.objects.find? (input.bucket, input.key) = none))

theorem answerRetried_toBool {input : CompleteInput} {later : Db} {fault : Option ReadError} :
    ((answerRetried input (metaQuery later input.bucket input.key fault)).mapError
      WriteError.shared).toBool = false ↔
      fault ≠ none ∨ later.objects.find? (input.bucket, input.key) = none := by
  cases fault with
  | some e => simp [metaQuery, answerRetried, Except.mapError, Except.toBool]
  | none =>
      cases hfind : later.objects.find? (input.bucket, input.key) <;>
        simp [metaQuery, hfind, answerRetried, Except.mapError, Except.toBool]

/-- A Complete alone is answered with an error exactly when its part list is refused or it finds
neither its upload nor an object, and then it changes nothing. -/
theorem complete_refused_iff (hdb : Admissible db) {now : ℤ} {input : CompleteRequest}
    {parts : List (ℤ × Text)} (hlisted : input.listed = .ok parts) {a : Outcome}
    {lookups : Lookups}
    (h : (Job.completeUpload now input.uploadId input.bucket input.key parts).serial sha256 db =
      (db', a)) :
    ((WriteRequest.completeMultipartUpload input).refuses lookups a = true ↔
      (UploadAt db input.uploadId input.bucket input.key ∧ ∀ parts, input.listed = .ok parts →
        ¬ CompleteAccepts db input.uploadId input.bucket input.key parts) ∨
      (¬ UploadAt db input.uploadId input.bucket input.key ∧
        (lookups.fault ≠ none ∨ lookups.later.objects.find? (input.bucket, input.key) = none))) ∧
    ((WriteRequest.completeMultipartUpload input).refuses lookups a = true → db' = db) := by
  simp only [Job.serial, apply] at h
  have hparts : (∀ parts, input.listed = .ok parts →
      ¬ CompleteAccepts db input.uploadId input.bucket input.key parts) ↔
      ¬ CompleteAccepts db input.uploadId input.bucket input.key parts := by
    simp [hlisted]
  rw [hparts, WriteRequest.refuses, decide_eq_true_eq]
  rcases completeUpload_cases sha256 db now input.uploadId input.bucket input.key parts with
    ⟨hmissing, heq⟩ | ⟨hat, hrefused, heq⟩ | ⟨haccept, hunfit, -⟩ | ⟨haccept, -, heq⟩
  · -- no upload: the answer is what the lookup finds
    rw [heq] at h
    cases h
    refine ⟨?_, fun _ => rfl⟩
    simp only [completeAnswer, answerRetried_toBool, hmissing, false_and, false_or,
      not_false_eq_true, true_and]
  · rw [heq] at h
    cases h
    refine ⟨?_, fun _ => rfl⟩
    simp only [hat, hrefused, completeAnswer, not_false_eq_true, and_self, true_or, Except.toBool]
  · exact (hunfit (haccept.fits hdb)).elim
  · rw [heq] at h
    cases h
    simp [completeAnswer, Except.toBool, haccept, haccept.1]

/-! ## Every write -/

theorem deleteObject_holds {there : Except ReadError Bool} {input : DeleteObjectInput} {job : Job}
    (h : deleteObject there input = .ok job) (old : Option ObjectRow) :
    input.precondition.Holds old := by
  unfold deleteObject at h
  split at h
  · cases h
  · rename_i hnone
    simp only [Bool.or_eq_true, not_or, Bool.not_eq_true, Option.isSome_eq_false_iff,
      Option.isNone_iff_eq_none] at hnone
    obtain ⟨⟨⟨hmatch, hsize⟩, htime⟩, -⟩ := hnone
    rw [DeleteObjectInput.precondition, hmatch, hsize, htime]
    exact Precondition.holds_none old

theorem deleteObjects_holds {there : Except ReadError Bool} {input : DeleteObjectsInput}
    {jobs : List Job} (h : deleteObjects there input = .ok jobs) {obj : ObjectIdentifier}
    (hobj : obj ∈ input.objects) (old : Option ObjectRow) : obj.precondition.Holds old := by
  unfold deleteObjects at h
  split at h
  · cases h
  · split at h
    · cases h
    · split at h
      · cases h
      · rename_i hsupported
        rw [List.any_eq_true] at hsupported
        push Not at hsupported
        have hnone := hsupported obj hobj
        simp only [ObjectIdentifier.unsupported, Bool.or_eq_true, not_or, Bool.not_eq_true,
          Option.isSome_eq_false_iff, Option.isNone_iff_eq_none, ne_eq] at hnone
        obtain ⟨⟨⟨-, hetag⟩, htime⟩, hsize⟩ := hnone
        rw [ObjectIdentifier.precondition, hetag, htime, hsize]
        exact Precondition.holds_none old

section Replied

variable {labels : List (Label Job)} {l : Label Job} {w w' : StoreWorld}
  (h : StoreReaches hash sha256 labels w) (hstep : (store hash sha256).Step w l w')
  {r : Reply Db Job Outcome} (hr : w'.log = w.log ++ [r])

include h hstep hr

theorem heeds_put {lookups : Lookups} {now fileId : ℤ} {input : PutObjectInput}
    (hbegins : putObject lookups.bucketBefore now fileId input = .ok r.job) :
    Heeds (.putObject input) lookups r w'.db := by
  unfold putObject at hbegins
  split at hbegins
  · cases hbegins
  · rename_i condition hcondition
    split at hbegins
    · cases hbegins
    · have hjob := (Except.ok.inj hbegins).symm
      intro bucket key htarget
      rw [hjob] at htarget
      obtain ⟨rfl, rfl⟩ := Prod.mk.inj (Option.some.inj htarget)
      by_cases hstored : ∃ size sum, r.reply = .stored size sum
      · -- the condition was checked under the lock
        obtain ⟨size, sum, hreply⟩ := hstored
        right
        intro p hp
        rw [List.mem_singleton.mp hp]
        have hafter : StoreReaches hash sha256 (labels ++ [l]) w' := h.append (.cons hstep (.nil _))
        have hmem : r ∈ w'.log := hr ▸ List.mem_append_right _ (List.mem_singleton.mpr rfl)
        exact PutObjectInput.holds_of_allows hcondition (hafter.put_allowed hmem hjob hreply)
      · push Not at hstored
        left
        obtain ⟨hbefore, halone⟩ := h.replied_alone hstep hr (by simp [hjob]) (by rw [hjob]; rfl)
        rw [hjob] at halone
        refine ⟨decide_eq_true (putObject_refuses hstored), ?_⟩
        rw [put_refused halone hstored, hbefore]

theorem heeds_complete_iff {lookups : Lookups} {now : ℤ} {input : CompleteRequest}
    {parts : List (ℤ × Text)} (hlisted : input.listed = .ok parts)
    (hjob : r.job = .completeUpload now input.uploadId input.bucket input.key parts) :
    Heeds (.completeMultipartUpload input) lookups r w'.db ↔ input.Spares r.before lookups := by
  obtain ⟨hbefore, halone⟩ := h.replied_alone hstep hr (by simp [hjob]) (by rw [hjob]; rfl)
  rw [hjob] at halone
  obtain ⟨hrefuses, hunchanged⟩ :=
    @complete_refused_iff _ _ _ h.sound.inv _ _ _ hlisted _ lookups halone
  have htarget : r.job.target? = some (input.bucket, input.key) := by rw [hjob]; rfl
  rw [← hbefore] at hrefuses hunchanged
  constructor
  · intro hheeds
    rcases hheeds _ _ htarget with ⟨hrefused, -⟩ | hholds
    · exact .inr (hrefuses.mp hrefused)
    · exact .inl (CompleteRequest.holds_iff_meets.mp (hholds _ (List.mem_singleton.mpr rfl)))
  · intro hspares bucket key hkey
    obtain ⟨rfl, rfl⟩ := Prod.mk.inj (Option.some.inj (htarget.symm.trans hkey))
    rcases hspares with hmeets | hrefused
    · right
      intro p hp
      rw [List.mem_singleton.mp hp]
      exact CompleteRequest.holds_iff_meets.mpr hmeets
    · have hrefused := hrefuses.mpr hrefused
      exact .inl ⟨hrefused, by rw [hunchanged hrefused]⟩

/-- Whatever runs beside it, a write heeds its preconditions exactly when it is no Complete
that publishes against them, or is taken for a retry against them. -/
theorem preconditions_heeded_iff {req : WriteRequest} {lookups : Lookups} {now fileId : ℤ}
    {jobs : List Job} (hbegins : req.begins lookups now fileId = .ok jobs) (hjob : r.job ∈ jobs) :
    Heeds req lookups r w'.db ↔ ∀ input, req = .completeMultipartUpload input →
      input.Spares r.before lookups := by
  cases req with
  | putObject input =>
      refine ⟨by simp, fun _ => ?_⟩
      cases hput : putObject lookups.bucketBefore now fileId input with
      | error e => simp [WriteRequest.begins, hput, Except.map] at hbegins
      | ok job =>
          simp only [WriteRequest.begins, hput, Except.map, Except.ok.injEq] at hbegins
          obtain rfl : r.job = job := by simpa [← hbegins] using hjob
          exact heeds_put h hstep hr hput
  | deleteObject input =>
      refine ⟨by simp, fun _ bucket key _ => .inr fun p hp => ?_⟩
      cases hdelete : deleteObject lookups.bucketBefore input with
      | error e => simp [WriteRequest.begins, hdelete, Except.map] at hbegins
      | ok job =>
          rw [List.mem_singleton.mp hp]
          exact deleteObject_holds hdelete _
  | deleteObjects input =>
      refine ⟨by simp, fun _ bucket key _ => .inr fun p hp => ?_⟩
      obtain ⟨obj, hobj, rfl⟩ := List.mem_map.mp hp
      exact deleteObjects_holds hbegins (List.mem_of_mem_filter hobj) _
  | completeMultipartUpload input =>
      cases hlisted : input.listed with
      | error e => simp [WriteRequest.begins, completeRequest, hlisted, Except.map] at hbegins
      | ok parts =>
          simp only [WriteRequest.begins, completeRequest, hlisted, Except.map,
            Except.ok.injEq] at hbegins
          have hjob : r.job = .completeUpload now input.uploadId input.bucket input.key parts := by
            simpa [← hbegins] using hjob
          exact (heeds_complete_iff h hstep hr hlisted hjob).trans
            ⟨fun hspares _ heq => WriteRequest.completeMultipartUpload.inj heq ▸ hspares,
              fun hspares => hspares _ rfl⟩

end Replied

/-! ## A Complete over an object -/

/-- A key is about to be created. -/
def createRun : List (Label Job) :=
  [.begin (.createBucket 0 ['b']), .run 0 0, .run 0 0,
    .begin (.put 1 ['b'] ['k'] .ifAbsent 1 [[7]])] ++ List.replicate 6 (.run 1 0)

/-- The key is created, and is about to be overwritten by a Complete. -/
def completeOverRun : List (Label Job) :=
  createRun ++ [.run 1 0, .begin (.createUpload 2 ['u'] ['b'] ['k'])] ++
  List.replicate 4 (.run 2 0) ++ [.begin (.uploadPart 3 ['u'] 1 2 [[8]])] ++
  List.replicate 5 (.run 3 0) ++
  [.begin (.completeUpload 4 ['u'] ['b'] ['k'] [(1, hex [8])])] ++ List.replicate 10 (.run 4 0)

def allThere : Lookups := ⟨.ok true, .ok true, Db.empty, none⟩

/-- `PUT /b/k` with `If-None-Match: *`. -/
def createKey : PutObjectInput := ⟨['b'], ['k'], none, some .any, some [[7]]⟩

def completeKey (ifMatch ifNoneMatch : Option ETagCondition) : CompleteRequest :=
  ⟨⟨['u'], ['b'], ['k'], some [⟨some 1, some (hex [8])⟩]⟩, ifMatch, ifNoneMatch⟩

theorem completeKey_begins (ifMatch ifNoneMatch : Option ETagCondition) :
    (WriteRequest.completeMultipartUpload (completeKey ifMatch ifNoneMatch)).begins allThere 4 0 =
      .ok [.completeUpload 4 ['u'] ['b'] ['k'] [(1, hex [8])]] := rfl

theorem replied_of_runs {labels : List (Label Job)} {l : Label Job}
    {p : Reply Db Job Outcome → Bool}
    (hrun : ((World.idle Db.empty : StoreWorld).runs (store (fun _ _ => 0) id) labels).any
      (fun w => (w.step (store (fun _ _ => 0) id) l).any fun w' =>
        (w'.log.drop w.log.length).any p) = true) :
    ∃ w w' r, StoreReaches (fun _ _ => 0) id labels w ∧
      (store (fun _ _ => 0) id).Step w l w' ∧ w'.log = w.log ++ [r] ∧ p r = true := by
  obtain ⟨w, hw, hstep⟩ := (Option.any_eq_true _ _).mp hrun
  obtain ⟨w', hw', hlog⟩ := (Option.any_eq_true _ _).mp hstep
  obtain ⟨r, hr, hp⟩ := List.any_eq_true.mp hlog
  obtain ⟨reply, hreply⟩ := (World.stepped hw').log
  rw [hreply, List.drop_left, Option.mem_toList] at hr
  rw [hr] at hreply
  exact ⟨w, w', r, World.trace_of_runs hw, hw', hreply, hp⟩

theorem createRun_put :
    ∃ w w' r, StoreReaches (fun _ _ => 0) id createRun w ∧
      (store (fun _ _ => 0) id).Step w (.run 1 0) w' ∧ w'.log = w.log ++ [r] ∧
      decide (r.job = .put 1 ['b'] ['k'] .ifAbsent 1 [[7]]) = true :=
  replied_of_runs (by decide +kernel)

/-- The Complete publishes over the object of one byte 7. -/
theorem completeOverRun_complete :
    ∃ w w' r, StoreReaches (fun _ _ => 0) id completeOverRun w ∧
      (store (fun _ _ => 0) id).Step w (.run 4 0) w' ∧ w'.log = w.log ++ [r] ∧
      decide (r.job = .completeUpload 4 ['u'] ['b'] ['k'] [(1, hex [8])] ∧
        r.reply = .completed (.done ['b'] ['k'] [8] 1) ∧
        r.before.objects.find? (['b'], ['k']) = some ⟨['b'], ['k'], 1, 1, [7], 1, none, none⟩) =
          true :=
  replied_of_runs (by decide +kernel)

/-- The PUT that creates the key, and the Complete over it that names its ETag. -/
theorem preconditions_heeded_iff_createKey :
    (∃ w w' r, StoreReaches (fun _ _ => 0) id createRun w ∧
      (store (fun _ _ => 0) id).Step w (.run 1 0) w' ∧ w'.log = w.log ++ [r] ∧
      Heeds (.putObject createKey) allThere r w'.db) ∧
    ∃ w w' r, StoreReaches (fun _ _ => 0) id completeOverRun w ∧
      (store (fun _ _ => 0) id).Step w (.run 4 0) w' ∧ w'.log = w.log ++ [r] ∧
      Heeds (.completeMultipartUpload (completeKey (some (.etag (.strong (hex [7])))) none)) allThere
        r w'.db := by
  constructor
  · obtain ⟨w, w', r, hreach, hstep, hr, hp⟩ := createRun_put
    have hjob := of_decide_eq_true hp
    have hbegins : (WriteRequest.putObject createKey).begins allThere 1 1 =
      .ok [.put 1 ['b'] ['k'] .ifAbsent 1 [[7]]] := rfl
    exact ⟨w, w', r, hreach, hstep, hr,
      (preconditions_heeded_iff hreach hstep hr hbegins (by simp [hjob])).mpr (by simp)⟩
  · obtain ⟨w, w', r, hreach, hstep, hr, hp⟩ := completeOverRun_complete
    obtain ⟨hjob, -, hold⟩ := of_decide_eq_true hp
    refine ⟨w, w', r, hreach, hstep, hr,
      (preconditions_heeded_iff hreach hstep hr (completeKey_begins _ _)
        (List.mem_singleton.mpr hjob)).mpr ?_⟩
    rintro input ⟨⟩
    left
    change CompleteRequest.Meets _ (r.before.objects.find? (['b'], ['k']))
    rw [hold]
    refine ⟨?_, by simp [completeKey]⟩
    rintro c ⟨⟩
    rfl

/-- The Complete publishes, although the key has a version. -/
theorem complete_overwrites_existing :
    ∃ w w' r, StoreReaches (fun _ _ => 0) id completeOverRun w ∧
      (store (fun _ _ => 0) id).Step w (.run 4 0) w' ∧ w'.log = w.log ++ [r] ∧ ∃ jobs,
      (WriteRequest.completeMultipartUpload (completeKey none (some .any))).begins allThere 4 0 =
        .ok jobs ∧ r.job ∈ jobs ∧
      ¬ Heeds (.completeMultipartUpload (completeKey none (some .any))) allThere r w'.db := by
  obtain ⟨w, w', r, hreach, hstep, hr, hp⟩ := completeOverRun_complete
  obtain ⟨hjob, hreply, hold⟩ := of_decide_eq_true hp
  refine ⟨w, w', r, hreach, hstep, hr, _, rfl, List.mem_singleton.mpr hjob, fun hheeds => ?_⟩
  rcases hheeds ['b'] ['k'] (by rw [hjob]; rfl) with ⟨hrefused, -⟩ | hholds
  · rw [hreply] at hrefused
    cases hrefused
  · exact (hholds _ (List.mem_singleton.mpr rfl)).ifNoneMatch .any rfl _ hold trivial

end Pgvs3
