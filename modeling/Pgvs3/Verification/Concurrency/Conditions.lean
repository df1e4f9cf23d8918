import Pgvs3.Verification.Concurrency.Interleaving

/-! # Conditional PUTs

The condition of a PUT that is stored held of the version which its key had when it
committed. So between two creations of a key there is a deletion. -/

namespace Pgvs3

open Library

variable {hash : Text → Text → ℤ} {sha256 : Bytes → Bytes} {held : List Lock} {db db' : Db}
  {job : Job} {a : Outcome} {bucket key : Text}

/-! ## One PUT -/

theorem copyIn_objects {stream : Bytes} (h : copyIn db stream = .ok db') :
    db'.objects = db.objects := by
  unfold copyIn at h
  split at h
  · cases h
  · split at h
    · cases h
      rfl
    · cases h

theorem published_there {now : ℤ} {write : ObjectWrite} {old : Option ObjectRow} :
    (published db (write.row now bucket key) old).objects.find? (bucket, key) ≠ none := by
  have hfind : (db.objects.upsert (write.row now bucket key)).find? (bucket, key) =
    some (write.row now bucket key) := Table.find?_upsert_self
  exact Option.ne_none_iff_exists'.mpr ⟨_, hfind⟩

/-- A PUT that is stored alone was allowed, and its key has a version afterwards. -/
theorem stored_alone {now fileId size : ℤ} {condition : PutCondition} {pushes : List Bytes}
    {sum : Bytes} (h : (Job.put now bucket key condition fileId pushes).serial sha256 db =
      (db', .stored size sum)) :
    condition.allows (db.objects.find? (bucket, key)) = true ∧
      db'.objects.find? (bucket, key) ≠ none := by
  simp only [Job.serial] at h
  split at h
  · cases h
  · rename_i db₂ total etag hingest
    cases h
    simp only [ingestWriter] at hingest
    split at hingest
    · split at hingest
      · cases hingest
      · rename_i db₁ hcopy
        split at hingest
        · cases hingest
        · rename_i hpublish
          cases hingest
          obtain ⟨hallow, -, -, rfl⟩ := swapObject_ok_iff.mp hpublish
          rw [copyIn_objects hcopy] at hallow
          exact ⟨hallow, published_there⟩
    · cases hingest

/-- The condition of a stored PUT held of the version that its key had then. -/
theorem StoreReaches.put_allowed {labels : List (Label Job)} {w : StoreWorld}
    (h : StoreReaches hash sha256 labels w) {r : Reply Db Job Outcome} (hr : r ∈ w.log)
    {now fileId size : ℤ} {condition : PutCondition} {pushes : List Bytes} {sum : Bytes}
    (hjob : r.job = .put now bucket key condition fileId pushes)
    (hreply : r.reply = .stored size sum) :
    condition.allows (r.before.objects.find? (bucket, key)) = true := by
  have halone := (h.serial hr (by simp [hjob])).resolve_right fun hpart => by
    simp [hjob, Job.part?] at hpart
  obtain ⟨db, halone⟩ := halone
  rw [hjob, hreply] at halone
  exact (stored_alone halone).1

theorem allows_ifMatch {want : Text} {old : Option ObjectRow}
    (h : (PutCondition.ifMatch want).allows old = true) : ∃ o, old = some o ∧ hex o.etag = want := by
  cases old with
  | none => cases h
  | some o => exact ⟨o, rfl, of_decide_eq_true h⟩

theorem allows_ifAbsent {old : Option ObjectRow} (h : PutCondition.ifAbsent.allows old = true) :
    old = none :=
  Option.isNone_iff_eq_none.mp h

/-! ## Creations and deletions -/

/-- A PUT with `If-None-Match: *` was stored at the key. -/
def Created (bucket key : Text) (r : Reply Db Job Outcome) : Prop :=
  (∃ now fileId pushes, r.job = .put now bucket key .ifAbsent fileId pushes) ∧
    ∃ size sum, r.reply = .stored size sum

/-- A DELETE found the key. -/
def Removed (bucket key : Text) (r : Reply Db Job Outcome) : Prop :=
  r.job = .delete bucket key ∧ r.reply = .found true

/-- The key was created, and not deleted since. -/
def StandsCreated (bucket key : Text) (log : List (Reply Db Job Outcome)) : Prop :=
  ∃ xs r ys, log = xs ++ r :: ys ∧ Created bucket key r ∧ ∀ q ∈ ys, ¬ Removed bucket key q

theorem StandsCreated.of_snoc {log : List (Reply Db Job Outcome)} {r : Reply Db Job Outcome}
    (h : StandsCreated bucket key (log ++ [r])) :
    Created bucket key r ∨ (StandsCreated bucket key log ∧ ¬ Removed bucket key r) := by
  obtain ⟨xs, q, ys, hlog, hcreated, hnone⟩ := h
  induction ys using List.reverseRecOn with
  | nil =>
      obtain ⟨-, hq⟩ := List.append_inj' hlog rfl
      exact .inl (List.singleton_inj.mp hq ▸ hcreated)
  | append_singleton ys t _ =>
      rw [← List.cons_append, ← List.append_assoc] at hlog
      obtain ⟨rfl, ht⟩ := List.append_inj' hlog rfl
      obtain rfl := List.singleton_inj.mp ht
      exact .inr ⟨⟨xs, q, ys, rfl, hcreated, fun p hp => hnone p (by simp [hp])⟩,
        hnone r (by simp)⟩

/-- What one reply does to a key. -/
structure Tends (bucket key : Text) (r : Reply Db Job Outcome) (db' : Db) : Prop where
  created : Created bucket key r → r.before.objects.find? (bucket, key) = none ∧
    db'.objects.find? (bucket, key) ≠ none
  kept : ¬ Removed bucket key r → r.before.objects.find? (bucket, key) ≠ none →
    db'.objects.find? (bucket, key) ≠ none

theorem Refused.tends (h : Refused sha256 job db a) (i : ℕ) :
    Tends bucket key ⟨i, job, a, db⟩ db := by
  refine ⟨?_, fun _ hthere => hthere⟩
  rintro ⟨⟨now, fileId, pushes, hjob⟩, size, sum, hreply⟩
  obtain rfl : job = .put now bucket key .ifAbsent fileId pushes := hjob
  obtain rfl : a = .stored size sum := hreply
  rcases h with halone | ⟨hpart, -⟩
  · obtain ⟨hallow, hthere⟩ := stored_alone halone
    exact ⟨allows_ifAbsent hallow, hthere⟩
  · exact (hpart rfl).elim

theorem find?_upsert_ne_none {row : ObjectRow} {k : Text × Text}
    (h : db.objects.find? k ≠ none) : (db.objects.upsert row).find? k ≠ none := by
  by_cases hk : row.primaryKey = k
  · subst hk
    simp
  · rwa [Table.find?_upsert_of_ne hk]

/-- Only a deletion takes a key away. -/
theorem Commits.tends (hdb : Admissible db) (hc : Commits hash sha256 held db job a db') (i : ℕ) :
    Tends bucket key ⟨i, job, a, db⟩ db' := by
  refine ⟨?_, ?_⟩
  · rintro ⟨⟨now, fileId, pushes, hjob⟩, size, sum, hreply⟩
    obtain rfl : job = .put now bucket key .ifAbsent fileId pushes := hjob
    obtain rfl : a = .stored size sum := hreply
    obtain ⟨hallow, hthere⟩ := stored_alone (hc.serial hdb (by simp))
    exact ⟨allows_ifAbsent hallow, hthere⟩
  · intro hkept hthere
    cases hc with
    | put => exact find?_upsert_ne_none hthere
    | completeUpload => exact find?_upsert_ne_none hthere
    | @delete bucket' key' r _ hold =>
        have hother : (bucket', key') ≠ (bucket, key) := by
          intro heq
          obtain ⟨rfl, rfl⟩ := Prod.mk.inj heq
          exact hkept ⟨rfl, rfl⟩
        have hpk := (Table.find?_eq_some_iff.mp hold).2
        change (db.objects.deleteWhere _).find? (bucket, key) ≠ none
        rwa [Table.find?_deleteWhere fun o ho => ?_]
        rw [decide_eq_false_iff_not, ho, hpk]
        exact hother.symm
    | expireUploads hexpires => rwa [hexpires.objects_eq]
    | _ => exact hthere

/-- A key that stands created is there, and nobody creates it once more. -/
def CreatesOnce (bucket key : Text) (db : Db) (log : List (Reply Db Job Outcome)) : Prop :=
  (StandsCreated bucket key log → db.objects.find? (bucket, key) ≠ none) ∧
    ∀ xs r zs, log = xs ++ r :: zs → Created bucket key r → ¬ StandsCreated bucket key xs

theorem CreatesOnce.snoc {log : List (Reply Db Job Outcome)} {r : Reply Db Job Outcome}
    (h : CreatesOnce bucket key r.before log) (hr : Tends bucket key r db') :
    CreatesOnce bucket key db' (log ++ [r]) := by
  obtain ⟨hthere, honce⟩ := h
  constructor
  · intro hstands
    rcases hstands.of_snoc with hcreated | ⟨hstands, hkept⟩
    · exact (hr.created hcreated).2
    · exact hr.kept hkept (hthere hstands)
  · intro xs q zs hlog hcreated hstands
    rcases List.eq_nil_or_concat' zs with rfl | ⟨zs, t, rfl⟩
    · obtain ⟨rfl, hq⟩ := List.append_inj' hlog rfl
      obtain rfl := List.singleton_inj.mp hq
      exact hthere hstands (hr.created hcreated).1
    · rw [← List.cons_append, ← List.append_assoc] at hlog
      exact honce xs q zs (List.append_inj' hlog rfl).1 hcreated hstands

theorem StoreReaches.createsOnce {labels : List (Label Job)} {w : StoreWorld}
    (h : StoreReaches hash sha256 labels w) (bucket key : Text) :
    CreatesOnce bucket key w.db w.log := by
  refine World.committed_trace (terms_lawful hash sha256) (fun _ => True) ?_ ?_ ?_
    (World.sound_idle admissible_empty) (fun _ _ => trivial) (fun _ _ => trivial) ?_ h
  · intro db log job db' held _ hstart honce
    rcases Job.start_cases hstart with ⟨-, rfl, -⟩ | ⟨-, -, -, -, rfl, -⟩
    · exact honce
    · exact honce
  · intro db log i job a _ _ hrefused honce
    exact CreatesOnce.snoc honce (hrefused.tends i)
  · intro db log i job a held db' _ hdb hcommit honce
    exact CreatesOnce.snoc honce (Commits.tends hdb hcommit i)
  · constructor
    · rintro ⟨xs, r, ys, hnil, -⟩
      simp [World.idle] at hnil
    · intro xs r zs hnil
      simp [World.idle] at hnil

/-- Between two creations of a key there is a deletion. -/
theorem StoreReaches.removed_between {labels : List (Label Job)} {w : StoreWorld}
    (h : StoreReaches hash sha256 labels w) {xs ys zs : List (Reply Db Job Outcome)}
    {r r' : Reply Db Job Outcome} (hlog : w.log = xs ++ r :: ys ++ r' :: zs)
    (hr : Created bucket key r) (hr' : Created bucket key r') : ∃ q ∈ ys, Removed bucket key q := by
  by_contra hnone
  push Not at hnone
  exact (h.createsOnce bucket key).2 _ r' zs hlog hr' ⟨xs, r, ys, rfl, hr, hnone⟩

end Pgvs3
