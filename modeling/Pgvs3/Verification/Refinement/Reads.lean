import Pgvs3.Verification.Refinement.Linearizable
import Pgvs3.Verification.Multipart.WriteThenRead

/-! # Reads see the object store

A GET between two commits serves what the object store holds, which while no expiry runs is
what the rows make up. -/

namespace Pgvs3

open Library

variable {hash : Text → Text → ℤ} {sha256 : Bytes → Bytes} {db : Db} {written : ℤ → Bytes}

/-- What a GET of an object serves. -/
def Content.slice (o : Content) (first last suffix : ℤ) : Slice :=
  let range := effRange o.body.length first last suffix
  ⟨o.body.length, o.etag, o.createdAt, range.1, range.2,
    sliceOf o.body range.1.toNat (range.2 + 1).toNat⟩

/-! ## GETs -/

/-- A GET of the key serves its object, or finds none; the time it tells is that of the
object or that of the cache entry it found. -/
def Shows (db : Db) (bucket key : Text) (o : Option Content) : Prop :=
  ∀ env c first last suffix, QuietGet db bucket key env c →
    match o with
    | none => get env bucket key first last suffix c = .ok none
    | some o =>
        ∃ now, (now = o.createdAt ∨ ∃ m, c.get bucket key = some m ∧ now = m.createdAt) ∧
          get env bucket key first last suffix c =
            .ok (some ({ o with createdAt := now }.slice first last suffix))

theorem fewRows_of_mem {written : ℤ → Bytes} {files : List ℤ} {f : ℤ} (hf : f ∈ files)
    (h : FewRows (files.flatMap written)) : FewRows (written f) := by
  have hle : (written f).length ≤ (files.flatMap written).length := by
    rw [List.length_flatMap]
    exact List.single_le_sum (by simp) _ (List.mem_map.mpr ⟨f, hf, rfl⟩)
  unfold FewRows at h ⊢
  by_contra hlong
  rw [not_lt] at hlong
  have hlast : 2 ^ 31 - 1 < blockCount rowBytes (written f).length := by omega
  have hlast := (lt_blockCount_iff rowBytes_pos).mp hlast
  have hmore := (lt_blockCount_iff rowBytes_pos).mpr (hlast.trans_le hle)
  omega

theorem shows_none {bucket key : Text} (hnone : db.objects.find? (bucket, key) = none) :
    Shows db bucket key none := by
  intro env c first last suffix hget
  have hcache : c.get bucket key = none := by
    by_contra hsome
    obtain ⟨m, hm⟩ := Option.ne_none_iff_exists'.mp hsome
    obtain ⟨r, -, hr, -⟩ := hget.cached m hm
    rw [hnone] at hr
    cases hr
  have hlookup := (hget.atRest 0).lookupMeta_none hcache
  rw [hnone, Option.map_none] at hlookup
  cases hl : lookupMeta ((env 0).touch c) bucket key (env 0).lookup with
  | mk res c' =>
      rw [hl] at hlookup
      obtain rfl : res = .ok none := hlookup
      simp [get, getBody, getAttempt, hl]

theorem shows_some {bucket key : Text} {r : ObjectRow} (hholds : r.Holds written)
    (hwhole : ∀ f ∈ r.files, FileIs db f (written f))
    (hr : db.objects.find? (bucket, key) = some r) (hfew : FewRows (r.content written).body) :
    Shows db bucket key (some (r.content written)) := by
  intro env c first last suffix hget
  obtain ⟨now, hnow, hserved⟩ := get_whole hr hholds
    (fun f hfile => fewRows_of_mem hfile hfew) hwhole hget.atRest (hget.cachesRow hr)
    first last suffix
  refine ⟨now, hnow.imp_right fun hc => ⟨_, hc, rfl⟩, ?_⟩
  have hsize : (r.metaAt now).size = (r.content written).body.length := hholds.size_eq
  rw [hserved]
  simp only [Meta.slice, hsize, Content.slice]
  rfl

/-- While no expiry has begun, a GET between two commits serves what the object store holds,
which is what the replies so far have made of it. -/
theorem reads_see_store {labels : List (Label Job)} {w : StoreWorld}
    (h : StoreReaches hash sha256 labels w)
    (hexpire : ∀ now budget, .begin (.expireUploads now budget) ∉ labels) :
    ObjectStore.Run sha256 .empty (w.log.map fun r => (r.job, r.reply)) (contentsOf w.db) ∧
      ∀ bucket key, (∀ o, (contentsOf w.db).objects (bucket, key) = some o → FewRows o.body) →
        Shows w.db bucket key ((contentsOf w.db).objects (bucket, key)) := by
  constructor
  · obtain ⟨-, replies, hlog, hrun⟩ := linearized_trace (World.sound_idle admissible_empty)
      (World.audited_idle _) (faithful_empty sha256) h
    have hlog : w.log = replies := hlog
    rwa [← hlog, ← h.contentsOf_eq hexpire] at hrun
  · rw [h.contentsOf_eq hexpire]
    intro bucket key hfew
    cases hr : w.db.objects.find? (bucket, key) with
    | none =>
        rw [contents_object.mpr hr]
        exact shows_none hr
    | some r =>
        have hobject : (w.db.contents (bodies w.log)).objects (bucket, key) = some (r.content (bodies w.log)) :=
          Option.map_eq_some_iff.mpr ⟨r, hr, rfl⟩
        have hmem := (Table.find?_eq_some_iff.mp hr).1
        rw [hobject]
        exact shows_some (h.faithful.objects r hmem)
          (fun f hf => h.filesHold hexpire f (mem_ownedFiles.mpr (.inl ⟨r, hmem, hf⟩))) hr
          (hfew _ hobject)

/-- The object that the Complete has made of the second send of its part. -/
theorem reads_see_store_resendRace :
    ∃ w, StoreReaches (fun _ _ => 0) id resendRace w ∧
      Shows w.db ['b'] ['k'] (some ⟨[7], [7], 0⟩) := by
  have hrun : ((World.idle Db.empty : StoreWorld).runs (store (fun _ _ => 0) id) resendRace).any
      (fun w => (contentsOf w.db).objects (['b'], ['k']) = some ⟨[7], [7], 0⟩) = true := by
    decide +kernel
  obtain ⟨w, hw, hobject⟩ := (Option.any_eq_true _ _).mp hrun
  have hobject := of_decide_eq_true hobject
  have hreach : StoreReaches (fun _ _ => 0) id resendRace w := World.trace_of_runs hw
  have hexpire : ∀ now budget, Label.begin (Job.expireUploads now budget) ∉ resendRace := by
    simp [resendRace]
  have hfew : FewRows [7] := by decide +kernel
  obtain ⟨-, hshows⟩ := reads_see_store hreach hexpire
  refine ⟨w, hreach, hobject ▸ hshows _ _ fun o ho => ?_⟩
  rw [hobject, Option.some.injEq] at ho
  exact ho ▸ hfew

end Pgvs3
