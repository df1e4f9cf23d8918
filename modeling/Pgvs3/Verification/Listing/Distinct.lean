import Pgvs3.Verification.Listing.Rollup

/-! # A listing never repeats itself

The rows that a traversal runs over ascend, whatever happens to the store between its
queries. Keys with one common prefix are contiguous, and a page ends on a row that has none
of the page's common prefixes. -/

namespace Pgvs3

open Library

/-! ## Ascending rows -/

/-- Rows beyond a cursor, in key order. -/
def Ascends (after : Text) (log : List Listed) : Prop :=
  (∀ r ∈ log, utf8 after < utf8 r.key) ∧ log.Pairwise fun q r => utf8 q.key < utf8 r.key

def lastKey (after : Text) (log : List Listed) : Text := ((log.getLast?).map (·.key)).getD after

section Ascends

variable {after : Text} {xs ys : List Listed}

theorem lastKey_concat (after : Text) (xs : List Listed) (q : Listed) :
    lastKey after (xs ++ [q]) = q.key := by
  simp [lastKey]

theorem lastKey_append (after : Text) (xs ys : List Listed) :
    lastKey (lastKey after xs) ys = lastKey after (xs ++ ys) := by
  induction ys using List.reverseRecOn with
  | nil => simp [lastKey]
  | append_singleton ys q _ => rw [← List.append_assoc, lastKey_concat, lastKey_concat]

theorem Ascends.le_lastKey (h : Ascends after xs) {q : Listed} (hq : q ∈ xs) :
    utf8 q.key ≤ utf8 (lastKey after xs) := by
  induction xs using List.reverseRecOn with
  | nil => cases hq
  | append_singleton xs r _ =>
      rw [lastKey_concat]
      rcases List.mem_append.mp hq with hq | hq
      · exact ((List.pairwise_append.mp h.2).2.2 q hq r (by simp)).le
      · rw [List.mem_singleton.mp hq]

theorem Ascends.after_le (h : Ascends after xs) : utf8 after ≤ utf8 (lastKey after xs) := by
  induction xs using List.reverseRecOn with
  | nil => rfl
  | append_singleton xs r _ =>
      rw [lastKey_concat]
      exact (h.1 r (by simp)).le

theorem Ascends.append (hxs : Ascends after xs) (hys : Ascends (lastKey after xs) ys) :
    Ascends after (xs ++ ys) := by
  refine ⟨fun r hr => ?_, List.pairwise_append.mpr ⟨hxs.2, hys.2, fun q hq r hr => ?_⟩⟩
  · rcases List.mem_append.mp hr with hr | hr
    · exact hxs.1 r hr
    · exact hxs.after_le.trans_lt (hys.1 r hr)
  · exact (hxs.le_lastKey hq).trans_lt (hys.1 r hr)

theorem ascends_list {db : Db} {bucket start stop : Text} {limit : ℕ} :
    Ascends after (list db bucket start stop after limit) := by
  refine ⟨fun q hq => ?_, selectKeys_increasing.sublist (List.take_sublist _ _)⟩
  obtain ⟨r, -, -, -, -, hafter, rfl⟩ := mem_selectKeys.mp (List.mem_of_mem_take hq)
  exact hafter

theorem Ascends.of_isPrefix (h : Ascends after ys) (hpre : xs <+: ys) : Ascends after xs :=
  ⟨fun r hr => h.1 r (hpre.subset hr), h.2.sublist hpre.sublist⟩

end Ascends

/-! ## The rows behind a page -/

section Page

variable {start delimiter : Text} {max : ℕ}

/-- A page and the rows that made it. -/
structure Logged (start delimiter : Text) (page : ListPage) (log : List Listed) : Prop where
  contents_sublist : page.contents.Sublist log
  contents_entry : ∀ r ∈ page.contents, r.entry start delimiter = .object r.key
  common_entry : ∀ cp ∈ page.common, ∃ r ∈ log, r.entry start delimiter = .common cp
  common_nodup : page.common.Nodup
  common_seen : ∀ cp ∈ page.common, cp ∈ page.seen

theorem logged_nil : Logged start delimiter ⟨[], [], []⟩ [] where
  contents_sublist := List.Sublist.refl _
  contents_entry := by simp
  common_entry := by simp
  common_nodup := List.nodup_nil
  common_seen := by simp

/-- A row that does not fit has none of the page's common prefixes. -/
def Ends (start delimiter : Text) (page : ListPage) (r : Listed) : Prop :=
  ∀ cp ∈ page.common, r.entry start delimiter ≠ .common cp

theorem Logged.skip {page : ListPage} {log : List Listed} (h : Logged start delimiter page log)
    (r : Listed) : Logged start delimiter page (log ++ [r]) where
  contents_sublist := h.contents_sublist.trans (List.sublist_append_left _ _)
  contents_entry := h.contents_entry
  common_entry := by
    intro cp hcp
    obtain ⟨q, hq, hentry⟩ := h.common_entry cp hcp
    exact ⟨q, List.mem_append_left _ hq, hentry⟩
  common_nodup := h.common_nodup
  common_seen := h.common_seen

theorem Logged.step {r : Listed} {page page' : ListPage} {log : List Listed} {after : Text}
    {full : Bool} (h : Logged start delimiter page log) (hr : start <+: r.key)
    (hstep : listingStep r start delimiter max page = some (page', after, full)) :
    Logged start delimiter page' (log ++ [r]) ∧ (full = true → Ends start delimiter page' r) := by
  obtain ⟨rest, hrest⟩ := hr
  have hentry := @Listed.entry_append start delimiter rest r hrest
  rw [listingStep, ← hrest, dropBytes_append, hrest] at hstep
  dsimp only at hstep
  cases hcp : commonPrefix start delimiter rest with
  | none =>
      rw [hcp] at hstep hentry
      dsimp only at hstep hentry
      split at hstep
      · cases hstep
        exact ⟨h.skip r, fun _ cp _ hcommon => by simp [hentry] at hcommon⟩
      · cases hstep
        refine ⟨⟨?_, ?_, (h.skip r).common_entry, h.common_nodup, h.common_seen⟩, by simp⟩
        · exact h.contents_sublist.append (List.Sublist.refl _)
        · intro q hq
          rcases List.mem_append.mp hq with hq | hq
          · exact h.contents_entry q hq
          · rw [List.mem_singleton.mp hq]
            exact hentry
  | some cp =>
      rw [hcp] at hstep hentry
      dsimp only at hstep hentry
      split at hstep
      · cases hstep
        exact ⟨h.skip r, by simp⟩
      · rename_i hnew
        have hfresh : cp ∉ page.common := fun hmem => hnew (h.common_seen cp hmem)
        split at hstep
        · cases hstep
          refine ⟨{ h.skip r with common_seen := ?_ }, fun _ cp' hcp' hcommon => ?_⟩
          · exact fun cp' hcp' => List.mem_append_left _ (h.common_seen cp' hcp')
          · rw [hentry, Entry.common.injEq] at hcommon
            exact hfresh (hcommon ▸ hcp')
        · cases hstep
          refine ⟨⟨(h.skip r).contents_sublist, h.contents_entry, ?_, ?_, ?_⟩, by simp⟩
          · intro cp' hcp'
            rcases List.mem_append.mp hcp' with hcp' | hcp'
            · exact (h.skip r).common_entry cp' hcp'
            · exact ⟨r, by simp, (List.mem_singleton.mp hcp').symm ▸ hentry⟩
          · exact List.nodup_append.mpr ⟨h.common_nodup, List.nodup_singleton cp,
              fun a ha b hb hab => hfresh (List.mem_singleton.mp hb ▸ hab ▸ ha)⟩
          · intro cp' hcp'
            rcases List.mem_append.mp hcp' with hcp' | hcp'
            · exact List.mem_append_left _ (h.common_seen cp' hcp')
            · exact List.mem_append_right _ hcp'

theorem Logged.rows {rows : List Listed} {page page' : ListPage} {log : List Listed}
    {after after' : Text} {full : Bool} (h : Logged start delimiter page log)
    (hrows : ∀ r ∈ rows, start <+: r.key)
    (hrun : listRows start delimiter max rows page after = some (page', after', full)) :
    ∃ taken, taken <+: rows ∧ Logged start delimiter page' (log ++ taken) ∧
      after' = lastKey after taken ∧
      (full = true → ∃ init b, taken = init ++ [b] ∧ Ends start delimiter page' b) := by
  induction rows generalizing page log after with
  | nil =>
      cases hrun
      exact ⟨[], List.prefix_rfl, by simpa using h, rfl, by simp⟩
  | cons r rows ih =>
      rw [listRows] at hrun
      cases hstep : listingStep r start delimiter max page with
      | none => simp [hstep] at hrun
      | some res =>
          obtain ⟨page₁, after₁, full₁⟩ := res
          obtain rfl := listingStep_cursor hstep
          obtain ⟨hlog, hends⟩ := h.step (hrows r (by simp)) hstep
          rw [hstep] at hrun
          cases full₁ with
          | true =>
              cases hrun
              exact ⟨[r], ⟨rows, rfl⟩, hlog, rfl, fun _ => ⟨[], r, rfl, hends rfl⟩⟩
          | false =>
              obtain ⟨taken, hpre, hlog', rfl, hfull⟩ :=
                ih hlog (fun q hq => hrows q (List.mem_cons_of_mem r hq)) hrun
              refine ⟨r :: taken, List.cons_prefix_cons.mpr ⟨rfl, hpre⟩, by simpa using hlog',
                lastKey_append after [r] taken, fun h => ?_⟩
              obtain ⟨init, b, rfl, hb⟩ := hfull h
              exact ⟨r :: init, b, rfl, hb⟩

variable {bucket : Text}

/-- All rows that the queries of a page can see begin with the prefix. -/
def AllBegin (bucket start : Text) (dbs : List Db) : Prop :=
  ∀ db ∈ dbs, ∀ after, ∀ r ∈ list db bucket start (prefixEnd start) after listBatch,
    start <+: r.key

theorem Logged.loop {dbs : List Db} {page page' : ListPage} {log : List Listed}
    {after after' : Text} {full : Bool} (h : Logged start delimiter page log)
    (hbegin : AllBegin bucket start dbs)
    (hrun : listLoop bucket start delimiter max dbs page after = some (page', after', full)) :
    ∃ taken, Ascends after taken ∧ (∀ r ∈ taken, start <+: r.key) ∧
      Logged start delimiter page' (log ++ taken) ∧ after' = lastKey after taken ∧
      (full = true → ∃ init b, taken = init ++ [b] ∧ Ends start delimiter page' b) := by
  induction dbs generalizing page log after with
  | nil => cases hrun
  | cons db dbs ih =>
      have hrows := hbegin db (by simp) after
      have hasc := @ascends_list after db bucket start (prefixEnd start) listBatch
      rw [listLoop] at hrun
      split at hrun
      · cases hrun
        exact ⟨[], ⟨by simp, List.Pairwise.nil⟩, by simp, by simpa using h, rfl, by simp⟩
      · cases hone : listRows start delimiter max
          (list db bucket start (prefixEnd start) after listBatch) page after with
        | none => simp [hone] at hrun
        | some res =>
            obtain ⟨page₁, after₁, full₁⟩ := res
            obtain ⟨taken, hpre, hlog, rfl, hfull⟩ := h.rows hrows hone
            have htaken := hasc.of_isPrefix hpre
            have hstart : ∀ r ∈ taken, start <+: r.key := fun r hr => hrows r (hpre.subset hr)
            rw [hone] at hrun
            cases full₁ with
            | true =>
                cases hrun
                exact ⟨taken, htaken, hstart, hlog, rfl, hfull⟩
            | false =>
                dsimp only at hrun
                split at hrun
                · cases hrun
                  exact ⟨taken, htaken, hstart, hlog, rfl, hfull⟩
                · obtain ⟨taken', hasc', hstart', hlog', rfl, hfull'⟩ :=
                    ih hlog (fun db' hdb' => hbegin db' (List.mem_cons_of_mem db hdb')) hrun
                  refine ⟨taken ++ taken', htaken.append hasc', ?_, ?_,
                    lastKey_append after taken taken', fun h => ?_⟩
                  · intro r hr
                    rcases List.mem_append.mp hr with hr | hr
                    · exact hstart r hr
                    · exact hstart' r hr
                  · rwa [← List.append_assoc]
                  · obtain ⟨init, b, rfl, hb⟩ := hfull' h
                    exact ⟨taken ++ init, b, by simp, hb⟩

end Page

/-! ## All pages -/

def ListOutput.common (out : ListOutput) : List Text := out.commonPrefixes.getD []

@[simp] theorem common_listOutput (input : ListInput) (page : ListPage) (after : Text)
    (truncated : Bool) : (listOutput input page after truncated).common = page.common := by
  unfold ListOutput.common listOutput
  dsimp only
  split
  · rename_i hnil
    rw [hnil]
    rfl
  · rfl

/-- Pages that follow one another by their tokens, and the states of the store that their
queries saw. -/
inductive Pages : ListInput → List Db → List ListOutput → Prop where
  | first {input checked dbs out} (h : listObjectsV2Through checked dbs input = some (.ok out)) :
      Pages input dbs [out]
  | next {input checked dbs out token dbs' outs}
      (h : listObjectsV2Through checked dbs input = some (.ok out))
      (htoken : out.nextContinuationToken = some token)
      (hrest : Pages { input with continuationToken := some token } dbs' outs) :
      Pages input (dbs ++ dbs') (out :: outs)

def ListInput.after (input : ListInput) : Text :=
  (input.continuationToken.or input.startAfter).getD []

/-- The rows behind some pages. -/
structure Traced (input : ListInput) (outs : List ListOutput) (log : List Listed) : Prop where
  ascends : Ascends input.after log
  begin : ∀ r ∈ log, input.start.getD [] <+: r.key
  contents_sublist : (outs.flatMap (·.contents)).Sublist log
  contents_entry : ∀ r ∈ outs.flatMap (·.contents),
    r.entry (input.start.getD []) (input.delimiter.getD []) = .object r.key
  common_entry : ∀ cp ∈ outs.flatMap ListOutput.common,
    ∃ r ∈ log, r.entry (input.start.getD []) (input.delimiter.getD []) = .common cp
  common_nodup : (outs.flatMap ListOutput.common).Nodup
  tokens_sublist : (outs.filterMap (·.nextContinuationToken)).Sublist (log.map (·.key))

section Pages

variable {input : ListInput} {dbs : List Db} {checked : Db}

/-- The rows behind one page; when it is truncated its token is the key of the last of them. -/
theorem traced_page {out : ListOutput}
    (hbegin : AllBegin input.bucket (input.start.getD []) dbs)
    (h : listObjectsV2Through checked dbs input = some (.ok out)) :
    ∃ log, Traced input [out] log ∧ ∀ token, out.nextContinuationToken = some token →
      ∃ init b, log = init ++ [b] ∧ b.key = token ∧ ∀ cp ∈ out.common,
        b.entry (input.start.getD []) (input.delimiter.getD []) ≠ .common cp := by
  unfold listObjectsV2Through at h
  split at h
  · dsimp only at h
    cases hrun : listLoop input.bucket (input.start.getD []) (input.delimiter.getD [])
        input.pageMax dbs ⟨[], [], []⟩ ((input.continuationToken.or input.startAfter).getD []) with
    | none =>
        rw [hrun] at h
        cases h
    | some res =>
        obtain ⟨page, after, truncated⟩ := res
        rw [hrun] at h
        obtain rfl := Except.ok.inj (Option.some.inj h)
        obtain ⟨log, hasc, hstart, hlog, rfl, hfull⟩ := logged_nil.loop hbegin hrun
        rw [List.nil_append] at hlog
        have htoken : ∀ token, (listOutput input page (lastKey input.after log)
            truncated).nextContinuationToken = some token → truncated = true ∧
              lastKey input.after log = token := by
          intro token htoken
          cases truncated with
          | true => exact ⟨rfl, Option.some.inj htoken⟩
          | false => cases htoken
        refine ⟨log, ⟨hasc, hstart, ?_, ?_, ?_, ?_, ?_⟩, fun token hnext => ?_⟩
        · simpa [listOutput] using hlog.contents_sublist
        · simpa [listOutput] using hlog.contents_entry
        · simpa using hlog.common_entry
        · simpa using hlog.common_nodup
        · cases truncated with
          | false => simp [listOutput]
          | true =>
              obtain ⟨init, b, rfl, -⟩ := hfull rfl
              simp [listOutput, lastKey_concat]
        · obtain ⟨rfl, rfl⟩ := htoken token hnext
          obtain ⟨init, b, rfl, hb⟩ := hfull rfl
          exact ⟨init, b, rfl, (lastKey_concat _ _ _).symm, by simpa [Ends] using hb⟩
  · cases h

theorem common_disjoint {start delimiter : Text} {init ys : List Listed} {b : Listed} {cp : Text}
    {after : Text} (hasc : Ascends after (init ++ [b])) (hasc' : Ascends b.key ys)
    (hbegin : ∀ r ∈ init ++ [b], start <+: r.key) (hbegin' : ∀ r ∈ ys, start <+: r.key)
    (hb : b.entry start delimiter ≠ .common cp)
    (hcp : ∃ r ∈ init ++ [b], r.entry start delimiter = .common cp)
    (hcp' : ∃ r ∈ ys, r.entry start delimiter = .common cp) : False := by
  obtain ⟨q, hq, hqcp⟩ := hcp
  obtain ⟨r, hr, hrcp⟩ := hcp'
  have hqb : q.key ≤ b.key := by
    rw [← utf8_le_iff, ← lastKey_concat after init b]
    exact hasc.le_lastKey hq
  have hbr : b.key ≤ r.key := (utf8_lt_iff.mp (hasc'.1 r hr)).le
  have hpre : cp <+: b.key :=
    isPrefix_of_between (Listed.isPrefix_of_entry_common (hbegin q hq) hqcp)
      (Listed.isPrefix_of_entry_common (hbegin' r hr) hrcp) hqb hbr
  exact hb (Listed.entry_of_isPrefix (hbegin b (by simp)) hqcp hpre)

theorem Pages.traced {outs : List ListOutput} (h : Pages input dbs outs)
    (hbegin : AllBegin input.bucket (input.start.getD []) dbs) :
    ∃ log, Traced input outs log := by
  induction h with
  | first h =>
      obtain ⟨log, hlog, -⟩ := traced_page hbegin h
      exact ⟨log, hlog⟩
  | @next input checked dbs out token dbs' outs h htoken hrest ih =>
      obtain ⟨log, hlog, hends⟩ := traced_page
        (fun db hdb => hbegin db (List.mem_append_left dbs' hdb)) h
      obtain ⟨log', hlog'⟩ := ih fun db hdb => hbegin db (List.mem_append_right dbs hdb)
      obtain ⟨init, b, rfl, rfl, hb⟩ := hends token htoken
      have hasc' : Ascends b.key log' := hlog'.ascends
      refine ⟨init ++ [b] ++ log', ⟨?_, ?_, ?_, ?_, ?_, ?_, ?_⟩⟩
      · refine hlog.ascends.append ?_
        rwa [lastKey_concat]
      · intro r hr
        rcases List.mem_append.mp hr with hr | hr
        · exact hlog.begin r hr
        · exact hlog'.begin r hr
      · rw [List.flatMap_cons]
        exact (by simpa using hlog.contents_sublist : out.contents.Sublist _).append
          hlog'.contents_sublist
      · intro r hr
        rw [List.flatMap_cons] at hr
        rcases List.mem_append.mp hr with hr | hr
        · exact hlog.contents_entry r (by simpa using hr)
        · exact hlog'.contents_entry r hr
      · intro cp hcp
        rw [List.flatMap_cons] at hcp
        rcases List.mem_append.mp hcp with hcp | hcp
        · obtain ⟨r, hr, hentry⟩ := hlog.common_entry cp (by simpa using hcp)
          exact ⟨r, List.mem_append_left _ hr, hentry⟩
        · obtain ⟨r, hr, hentry⟩ := hlog'.common_entry cp hcp
          exact ⟨r, List.mem_append_right _ hr, hentry⟩
      · rw [List.flatMap_cons]
        refine List.nodup_append.mpr ⟨by simpa using hlog.common_nodup, hlog'.common_nodup, ?_⟩
        rintro cp hcp _ hcp' rfl
        exact common_disjoint hlog.ascends hasc' hlog.begin hlog'.begin (hb cp hcp)
          (hlog.common_entry cp (by simpa using hcp)) (hlog'.common_entry cp hcp')
      · have hone := hlog.tokens_sublist
        rw [List.filterMap_cons, htoken] at hone ⊢
        rw [List.map_append]
        exact hone.append hlog'.tokens_sublist

/-- Nothing is listed twice. -/
structure NeverRepeats (input : ListInput) (outs : List ListOutput) : Prop where
  keys_increase : (outs.flatMap (·.contents)).Pairwise fun q r => utf8 q.key < utf8 r.key
  common_distinct : (outs.flatMap ListOutput.common).Nodup
  apart : ∀ r ∈ outs.flatMap (·.contents), ∀ cp ∈ outs.flatMap ListOutput.common, ¬ cp <+: r.key
  tokens_increase : (input.continuationToken.toList ++
    outs.filterMap (·.nextContinuationToken)).Pairwise fun s t => utf8 s < utf8 t

/-- Following the tokens repeats nothing, whatever the states that the queries see. -/
theorem listing_never_repeats {outs : List ListOutput} (h : Pages input dbs outs)
    (hbegin : AllBegin input.bucket (input.start.getD []) dbs) : NeverRepeats input outs := by
  obtain ⟨log, hlog⟩ := h.traced hbegin
  have hkeys : (log.map (·.key)).Pairwise fun s t => utf8 s < utf8 t :=
    List.pairwise_map.mpr hlog.ascends.2
  refine ⟨hlog.ascends.2.sublist hlog.contents_sublist, hlog.common_nodup, ?_, ?_⟩
  · intro r hr cp hcp hpre
    obtain ⟨q, -, hq⟩ := hlog.common_entry cp hcp
    have hcommon := Listed.entry_of_isPrefix
      (hlog.begin r (hlog.contents_sublist.subset hr)) hq hpre
    rw [hlog.contents_entry r hr] at hcommon
    cases hcommon
  · refine List.pairwise_append.mpr ⟨?_, hkeys.sublist hlog.tokens_sublist, ?_⟩
    · cases input.continuationToken with
      | none => exact List.Pairwise.nil
      | some token => exact List.pairwise_singleton _ _
    · intro s hs t ht
      obtain ⟨r, hr, rfl⟩ := List.mem_map.mp (hlog.tokens_sublist.subset ht)
      have hafter := hlog.ascends.1 r hr
      rw [Option.mem_toList] at hs
      rwa [ListInput.after, hs] at hafter

end Pages

/-! ## A key inserted between two pages -/

def keysBefore : Db :=
  { Db.empty with
    buckets := onlyB
    objects := ⟨[⟨['b'], ['a', '/', '1'], 1, 1, [7], 0, none, none⟩,
      ⟨['b'], ['k'], 2, 1, [7], 0, none, none⟩], by decide⟩ }

def keysAfter : Db :=
  { Db.empty with
    buckets := onlyB
    objects := ⟨[⟨['b'], ['a', '/', '2'], 3, 1, [7], 0, none, none⟩,
      ⟨['b'], ['z'], 4, 1, [7], 0, none, none⟩], by decide⟩ }

/-- `a/` is listed once, though `a/2` is new when the second page is queried. -/
theorem listing_never_repeats_inserted :
    NeverRepeats ⟨['b'], none, some ['/'], some 1, none, none⟩
      [⟨['b'], [], 1, 1, none, true, some ['k'], [], some [['a', '/']], some ['/']⟩,
        ⟨['b'], [], 1, 1, some ['k'], false, none, [⟨['z'], 1, [7], 0⟩], none, some ['/']⟩] := by
  refine @listing_never_repeats _ ([keysBefore] ++ [keysAfter]) _ ?_ ?_
  · exact @Pages.next _ keysBefore _ _ _ _ _ (by decide +kernel) rfl
      (@Pages.first _ keysAfter _ _ (by decide +kernel))
  · exact fun _ _ _ _ _ => List.nil_prefix

end Pgvs3
