import Pgvs3.Model.Transactions

/-! # What the store is for

An object store without files, rows or locks: buckets, objects with their bodies, and
uploads with the bodies of their parts. Each transaction is one step of it, with the reply
that the client gets. -/

namespace Pgvs3

open Library

/-- An object as its readers know it. -/
structure Content where
  body : Bytes
  etag : Bytes
  createdAt : ℤ
  deriving DecidableEq

/-- An upload in progress. -/
@[ext] structure Staging where
  bucket : Text
  key : Text
  createdAt : ℤ
  parts : ℤ → Option Bytes

/-- A body whose rows can be numbered. -/
def Storable (body : Bytes) : Prop := body.length ≤ rowBytes * 2 ^ 32

@[ext] structure ObjectStore where
  buckets : Text → Option ℤ
  objects : Text × Text → Option Content
  uploads : Text → Option Staging

def PutCondition.Holds (condition : PutCondition) (old : Option Content) : Prop :=
  match condition with
  | .unconditional => True
  | .ifAbsent => old = none
  | .ifMatch want => ∃ o, old = some o ∧ hex o.etag = want

namespace Staging

/-- The parts of an upload, by ascending number. -/
def Lists (u : Staging) (parts : List (ℤ × Bytes)) : Prop :=
  parts.Pairwise (fun p q => p.1 < q.1) ∧ ∀ no body, (no, body) ∈ parts ↔ u.parts no = some body

/-- The client lists exactly the parts of the upload, each with its hash. -/
def Completes (sha256 : Bytes → Bytes) (u : Staging) (listed : List (ℤ × Text))
    (parts : List (ℤ × Bytes)) : Prop :=
  u.Lists parts ∧ parts ≠ [] ∧ listed.Perm (parts.map fun p => (p.1, hex (sha256 p.2)))

def Stale (u : Staging) (now grace : ℤ) (bucket : Option Text) : Prop :=
  u.createdAt < now - grace ∧ (bucket = none ∨ bucket = some u.bucket)

/-- `v` is `u` with some of its parts. -/
structure Shrinks (u v : Staging) : Prop where
  bucket : v.bucket = u.bucket
  key : v.key = u.key
  createdAt : v.createdAt = u.createdAt
  parts : ∀ no body, v.parts no = some body → u.parts no = some body

theorem Lists.unique {u : Staging} {parts parts' : List (ℤ × Bytes)} (h : u.Lists parts)
    (h' : u.Lists parts') : parts = parts' := by
  have hperm : parts.Perm parts' := by
    refine (List.perm_ext_iff_of_nodup ?_ ?_).mpr fun p => (h.2 p.1 p.2).trans (h'.2 p.1 p.2).symm
    · exact h.1.imp fun hlt heq => absurd (heq ▸ hlt) (lt_irrefl _)
    · exact h'.1.imp fun hlt heq => absurd (heq ▸ hlt) (lt_irrefl _)
  exact hperm.eq_of_pairwise (fun p q _ _ hpq hqp => absurd hpq hqp.asymm) h.1 h'.1

end Staging

def ExpiryBudget.Valid (budget : ExpiryBudget) (grace maxRows : ℤ) : Prop :=
  budget.grace = some grace ∧ budget.maxRows = some maxRows ∧
    0 ≤ grace ∧ 1 ≤ maxRows ∧ maxRows ≤ 8192

namespace ObjectStore

def empty : ObjectStore := ⟨fun _ => none, fun _ => none, fun _ => none⟩

def Occupied (s : ObjectStore) (name : Text) : Prop :=
  (∃ key, s.objects (name, key) ≠ none) ∨ ∃ id u, s.uploads id = some u ∧ u.bucket = name

def UploadAt (s : ObjectStore) (id bucket key : Text) (u : Staging) : Prop :=
  s.uploads id = some u ∧ u.bucket = bucket ∧ u.key = key

/-- One transaction with its reply. -/
inductive Step (sha256 : Bytes → Bytes) (s : ObjectStore) : Job → Outcome → ObjectStore → Prop where
  | createBucket {now : ℤ} {name : Text} (hnone : s.buckets name = none) :
      Step sha256 s (.createBucket now name) .ok
        { s with buckets := Function.update s.buckets name (some now) }
  | createBucketAgain {now : ℤ} {name : Text} (hthere : s.buckets name ≠ none) :
      Step sha256 s (.createBucket now name) .ok s
  | deleteBucket {name : Text} (hthere : s.buckets name ≠ none) (hvacant : ¬ s.Occupied name) :
      Step sha256 s (.deleteBucket name) (.bucketDeletion .deleted)
        { s with buckets := Function.update s.buckets name none }
  | deleteBucketOccupied {name : Text} (hthere : s.buckets name ≠ none)
      (hoccupied : s.Occupied name) :
      Step sha256 s (.deleteBucket name) (.bucketDeletion .notEmpty) s
  | deleteBucketNone {name : Text} (hnone : s.buckets name = none) :
      Step sha256 s (.deleteBucket name) (.bucketDeletion .notFound) s
  | put {now fileId : ℤ} {bucket key : Text} {condition : PutCondition} {pushes : List Bytes}
      (hbucket : s.buckets bucket ≠ none) (hholds : condition.Holds (s.objects (bucket, key)))
      (hstorable : Storable pushes.flatten) :
      Step sha256 s (.put now bucket key condition fileId pushes)
        (.stored pushes.flatten.length (sha256 pushes.flatten))
        { s with
          objects := Function.update s.objects (bucket, key)
            (some ⟨pushes.flatten, sha256 pushes.flatten, now⟩) }
  | putRefused {now fileId : ℤ} {bucket key : Text} {condition : PutCondition}
      {pushes : List Bytes} (hbucket : s.buckets bucket ≠ none)
      (hholds : ¬ condition.Holds (s.objects (bucket, key)))
      (hstorable : Storable pushes.flatten) :
      Step sha256 s (.put now bucket key condition fileId pushes) (.failed .preconditionFailed) s
  | putNoBucket {now fileId : ℤ} {bucket key : Text} {condition : PutCondition}
      {pushes : List Bytes} (hnone : s.buckets bucket = none) :
      Step sha256 s (.put now bucket key condition fileId pushes) (.failed .bucketDoesNotExist) s
  | delete {bucket key : Text} (hthere : s.objects (bucket, key) ≠ none) :
      Step sha256 s (.delete bucket key) (.found true)
        { s with objects := Function.update s.objects (bucket, key) none }
  | deleteNone {bucket key : Text} (hnone : s.objects (bucket, key) = none) :
      Step sha256 s (.delete bucket key) (.found false) s
  | createUpload {now : ℤ} {uuid bucket key : Text} (hbucket : s.buckets bucket ≠ none)
      (hnone : ∀ id u, ¬ s.UploadAt id bucket key u) (hnew : s.uploads uuid = none) :
      Step sha256 s (.createUpload now uuid bucket key) (.upload (some uuid))
        { s with
          uploads := Function.update s.uploads uuid (some ⟨bucket, key, now, fun _ => none⟩) }
  | reattach {now : ℤ} {uuid bucket key id : Text} {u : Staging}
      (hbucket : s.buckets bucket ≠ none) (hup : s.UploadAt id bucket key u) :
      Step sha256 s (.createUpload now uuid bucket key) (.upload (some id)) s
  | uuidTaken {now : ℤ} {uuid bucket key : Text} (htaken : s.uploads uuid ≠ none) :
      Step sha256 s (.createUpload now uuid bucket key) (.failed .uniqueViolation) s
  | createUploadNoBucket {now : ℤ} {uuid bucket key : Text} (hnone : s.buckets bucket = none) :
      Step sha256 s (.createUpload now uuid bucket key) (.upload none) s
  | uploadPart {now partNo fileId : ℤ} {id : Text} {pushes : List Bytes} {u : Staging}
      (hup : s.uploads id = some u) (hstorable : Storable pushes.flatten) :
      Step sha256 s (.uploadPart now id partNo fileId pushes)
        (.stored pushes.flatten.length (sha256 pushes.flatten))
        { s with
          uploads := Function.update s.uploads id
            (some { u with parts := Function.update u.parts partNo (some pushes.flatten) }) }
  | uploadPartNone {now partNo fileId : ℤ} {id : Text} {pushes : List Bytes}
      (hnone : s.uploads id = none) :
      Step sha256 s (.uploadPart now id partNo fileId pushes) (.failed .foreignKeyViolation) s
  | complete {now : ℤ} {id bucket key : Text} {listed : List (ℤ × Text)} {u : Staging}
      {parts : List (ℤ × Bytes)} (hup : s.UploadAt id bucket key u)
      (hparts : u.Completes sha256 listed parts) :
      Step sha256 s (.completeUpload now id bucket key listed)
        (.completed (.done bucket key (sha256 (parts.flatMap fun p => sha256 p.2))
          (parts.flatMap Prod.snd).length))
        { s with
          objects := Function.update s.objects (bucket, key) (some
            ⟨parts.flatMap Prod.snd, sha256 (parts.flatMap fun p => sha256 p.2), now⟩)
          uploads := Function.update s.uploads id none }
  | completeInvalid {now : ℤ} {id bucket key : Text} {listed : List (ℤ × Text)} {u : Staging}
      (hup : s.UploadAt id bucket key u) (hnot : ∀ parts, ¬ u.Completes sha256 listed parts) :
      Step sha256 s (.completeUpload now id bucket key listed) (.completed .invalidPart) s
  | completeNone {now : ℤ} {id bucket key : Text} {listed : List (ℤ × Text)}
      (hnone : ∀ u, ¬ s.UploadAt id bucket key u) :
      Step sha256 s (.completeUpload now id bucket key listed) (.completed .noSuchUpload) s
  | abort {id bucket key : Text} {u : Staging} (hup : s.UploadAt id bucket key u) :
      Step sha256 s (.abortUpload id bucket key) (.found true)
        { s with uploads := Function.update s.uploads id none }
  | abortNone {id bucket key : Text} (hnone : ∀ u, ¬ s.UploadAt id bucket key u) :
      Step sha256 s (.abortUpload id bucket key) (.found false) s
  /-- Stale uploads lose parts or vanish; which ones the budget decides. -/
  | expire {now grace maxRows rows : ℤ} {budget : ExpiryBudget} {uploads : Text → Option Staging}
      (hbudget : budget.Valid grace maxRows)
      (huploads : ∀ id, uploads id = s.uploads id ∨ ∃ u, s.uploads id = some u ∧
        u.Stale now grace budget.bucket ∧ ∀ v, uploads id = some v → u.Shrinks v) :
      Step sha256 s (.expireUploads now budget) (.expired rows) { s with uploads := uploads }
  | expireInvalid {now : ℤ} {budget : ExpiryBudget}
      (hbudget : ∀ grace maxRows, ¬ budget.Valid grace maxRows) :
      Step sha256 s (.expireUploads now budget) (.failed .invalidExpiryBudget) s
  /-- Two first sends of a part meet, or its rows cannot be numbered. -/
  | uploadPartRace {now partNo fileId : ℤ} {id : Text} {pushes : List Bytes} :
      Step sha256 s (.uploadPart now id partNo fileId pushes) (.failed .uniqueViolation) s
  | putTooLong {now fileId : ℤ} {bucket key : Text} {condition : PutCondition}
      {pushes : List Bytes} (hbucket : s.buckets bucket ≠ none)
      (hlong : ¬ Storable pushes.flatten) :
      Step sha256 s (.put now bucket key condition fileId pushes) (.failed .uniqueViolation) s

/-- A history of jobs and replies. -/
def Run (sha256 : Bytes → Bytes) : ObjectStore → List (Job × Outcome) → ObjectStore → Prop :=
  Trace fun s l s' => Step sha256 s l.1 l.2 s'

theorem Run.snoc {sha256 : Bytes → Bytes} {s t u : ObjectStore} {log : List (Job × Outcome)}
    {job : Job} {a : Outcome} (h : Run sha256 s log t) (hstep : Step sha256 t job a u) :
    Run sha256 s (log ++ [(job, a)]) u :=
  Trace.append h (.cons hstep (.nil u))

end ObjectStore

end Pgvs3
