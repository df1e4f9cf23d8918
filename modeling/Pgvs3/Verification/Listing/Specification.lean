import Pgvs3.Verification.Listing.Lossless

/-! # One page is the plain listing

The plain listing of a bucket goes once over the selected keys in byte order, cuts every key
behind the first delimiter after the prefix, and keeps the first of equal entries. A page is
its beginning, however the rows are batched. -/

namespace Pgvs3

open Library

/-! ## The plain listing -/

/-- Where the delimiter first stands in a key, behind the prefix. -/
def firstDelimiter (start delimiter key : Text) : Option ℕ :=
  if delimiter = [] then none
  else (List.range (key.length + 1)).find? fun i => start.length ≤ i ∧ delimiter <+: key.drop i

/-- A key, or its part up to and including the first delimiter behind the prefix. -/
def plainEntry (start delimiter key : Text) : Entry :=
  match firstDelimiter start delimiter key with
  | some i => .common (key.take (i + delimiter.length))
  | none => .object key

/-- The entries of all selected keys in byte order, the first of equal ones kept. -/
def plainListing (db : Db) (input : ListInput) : List Entry :=
  ((input.rows db).map fun r =>
    plainEntry (input.start.getD []) (input.delimiter.getD []) r.key).eraseDups

theorem findText_eq_find? (pattern s : Text) :
    findText pattern s = (List.range (s.length + 1)).find? fun i => pattern <+: s.drop i := by
  induction s with
  | nil =>
      rw [findText]
      by_cases h : pattern = [] <;> simp [h]
  | cons c s ih =>
      rw [findText, List.length_cons, List.range_succ_eq_map, List.find?_cons, List.drop_zero]
      by_cases h : pattern <+: c :: s
      · simp [h]
      · rw [if_neg h, ih, List.find?_map]
        simp only [h, decide_false]
        rfl

theorem firstDelimiter_append {start delimiter rest : Text} (hne : delimiter ≠ []) :
    firstDelimiter start delimiter (start ++ rest) =
      (findText delimiter rest).map (start.length + ·) := by
  have hnone : (List.range start.length).find?
      (fun i => decide (start.length ≤ i ∧ delimiter <+: (start ++ rest).drop i)) = none := by
    rw [List.find?_eq_none]
    intro i hi
    have := List.mem_range.mp hi
    simp
    omega
  have hshift : ((fun i => decide (start.length ≤ i ∧ delimiter <+: (start ++ rest).drop i)) ∘
      (start.length + ·)) = fun i => decide (delimiter <+: rest.drop i) := by
    funext i
    rw [Function.comp_apply, ← List.drop_drop, List.drop_left]
    simp
  rw [firstDelimiter, if_neg hne, List.length_append, add_assoc, List.range_add,
    List.find?_append, hnone, Option.none_or, List.find?_map, hshift, findText_eq_find?]

theorem Listed.entry_eq_plain {start delimiter : Text} {r : Listed} (h : start <+: r.key) :
    r.entry start delimiter = plainEntry start delimiter r.key := by
  obtain ⟨rest, hrest⟩ := h
  rw [entry_append hrest, plainEntry, ← hrest, commonPrefix]
  by_cases hne : delimiter = []
  · simp [firstDelimiter, hne]
  · rw [firstDelimiter_append hne, if_neg hne]
    cases findText delimiter rest with
    | none => rfl
    | some i => simp [add_assoc, List.take_append]

theorem eraseDups_entries {db : Db} {input : ListInput}
    (hstart : ∀ q ∈ input.rows db, input.start.getD [] <+: q.key) :
    ((input.rows db).map (Listed.entry (input.start.getD []) (input.delimiter.getD []))).eraseDups =
      plainListing db input := by
  rw [plainListing, List.map_congr_left fun r hr => Listed.entry_eq_plain (hstart r hr)]

/-- A traversal drops a key just when the plain listing is longer than one page. -/
theorem ListInput.droppedRows_eq_nil_iff {db : Db} {input : ListInput}
    (hstart : ∀ q ∈ input.rows db, input.start.getD [] <+: q.key) :
    input.droppedRows db = [] ↔ (plainListing db input).length ≤ input.pageMax := by
  rw [← eraseDups_entries hstart]
  exact droppedFrom_eq_nil_iff List.nodup_nil (Nat.zero_le _) _

/-! ## What a page has gathered -/

def Entry.key? : Entry → Option Text
  | .object key => some key
  | .common _ => none

def Entry.common? : Entry → Option Text
  | .object _ => none
  | .common cp => some cp

/-- A page consists of a sequence of entries. -/
structure ListPage.IsOf (page : ListPage) (entries : List Entry) : Prop where
  contents_eq : page.contents.map (·.key) = entries.filterMap Entry.key?
  common_eq : page.common = entries.filterMap Entry.common?

/-- A page under construction, with its distinct entries in order. -/
structure Gathers (page : ListPage) (entries : List Entry) : Prop extends page.IsOf entries where
  seen_iff : ∀ cp, cp ∈ page.seen ↔ .common cp ∈ entries
  nodup : entries.Nodup

theorem length_split (entries : List Entry) : entries.length =
    (entries.filterMap Entry.key?).length + (entries.filterMap Entry.common?).length := by
  induction entries with
  | nil => rfl
  | cons e entries ih =>
      cases e with
      | object key =>
          simp only [List.length_cons, Entry.key?, Entry.common?, List.filterMap_cons]
          omega
      | common cp =>
          simp only [List.length_cons, Entry.key?, Entry.common?, List.filterMap_cons]
          omega

theorem ListPage.IsOf.count_eq {page : ListPage} {entries : List Entry} (h : page.IsOf entries) :
    page.count = entries.length := by
  rw [ListPage.count, length_split, ← h.contents_eq, h.common_eq, List.length_map]

theorem gathers_nil : Gathers ⟨[], [], []⟩ [] where
  contents_eq := rfl
  common_eq := rfl
  seen_iff := by simp
  nodup := List.nodup_nil

section Step

variable {start delimiter : Text} {max : ℕ}

/-- A row whose entry is on the page is passed over. A new entry goes to the end of the page,
and on a full page it ends the listing. -/
theorem listingStep_gathers {r : Listed} {page : ListPage} {entries : List Entry}
    (hpage : Gathers page entries) (hcut : entryOf start delimiter r.key ≠ none)
    (hnew : .object r.key ∉ entries) :
    if r.entry start delimiter ∈ entries then
      listingStep r start delimiter max page = some (page, r.key, false)
    else if entries.length < max then
      ∃ page', listingStep r start delimiter max page = some (page', r.key, false) ∧
        Gathers page' (entries ++ [r.entry start delimiter]) ∧
        page'.contents.Sublist (page.contents ++ [r])
    else
      ∃ page', listingStep r start delimiter max page = some (page', r.key, true) ∧
        page'.IsOf entries ∧ page'.contents = page.contents := by
  unfold listingStep Listed.entry
  unfold entryOf at hcut ⊢
  cases hdrop : dropBytes (utf8 start).length r.key with
  | none => simp [hdrop] at hcut
  | some rest =>
      simp only [Option.map_some, Option.getD_some]
      have hcount := hpage.count_eq
      cases hcp : commonPrefix start delimiter rest with
      | none =>
          simp only [hnew, if_false]
          by_cases hfull : entries.length < max
          · rw [if_pos hfull, if_neg (by omega)]
            refine ⟨_, rfl, ⟨⟨?_, ?_⟩, ?_, ?_⟩, List.Sublist.refl _⟩
            · simp [hpage.contents_eq, Entry.key?]
            · simp [hpage.common_eq, Entry.common?]
            · simpa using hpage.seen_iff
            · exact List.concat_eq_append ▸ hpage.nodup.concat hnew
          · rw [if_neg hfull, if_pos (by omega)]
            exact ⟨page, rfl, hpage.toIsOf, rfl⟩
      | some cp =>
          by_cases hseen : cp ∈ page.seen
          · simp only [(hpage.seen_iff cp).mp hseen, hseen, if_true]
          · have hnot := mt (hpage.seen_iff cp).mpr hseen
            simp only [hnot, hseen, if_false]
            by_cases hfull : entries.length < max
            · rw [if_pos hfull, if_neg (by simp only [ListPage.count] at hcount ⊢; omega)]
              refine ⟨_, rfl, ⟨⟨?_, ?_⟩, ?_, ?_⟩, List.sublist_append_left _ _⟩
              · simp [hpage.contents_eq, Entry.key?]
              · simp [hpage.common_eq, Entry.common?]
              · intro cp'
                simp [hpage.seen_iff]
              · exact List.concat_eq_append ▸ hpage.nodup.concat hnot
            · rw [if_neg hfull, if_pos (by simp only [ListPage.count] at hcount ⊢; omega)]
              exact ⟨_, rfl, ⟨hpage.contents_eq, hpage.common_eq⟩, rfl⟩

theorem listRows_gathers {rows : List Listed} {page : ListPage} {entries : List Entry}
    (after : Text) (hpage : Gathers page entries) (hle : entries.length ≤ max)
    (hcut : ∀ r ∈ rows, entryOf start delimiter r.key ≠ none)
    (hnodup : (rows.map (·.key)).Nodup) (hnew : ∀ r ∈ rows, .object r.key ∉ entries) :
    ∃ page' after' full, listRows start delimiter max rows page after = some (page', after', full) ∧
      page'.IsOf ((entries ++ rows.map (Listed.entry start delimiter)).eraseDups.take max) ∧
      page'.contents.Sublist (page.contents ++ rows) ∧
      (full = true ↔
        max < (entries ++ rows.map (Listed.entry start delimiter)).eraseDups.length) := by
  induction rows generalizing page entries after with
  | nil =>
      refine ⟨page, after, false, rfl, ?_, by simp, ?_⟩
      · rw [List.map_nil, List.append_nil, eraseDups_of_nodup hpage.nodup, List.take_of_length_le hle]
        exact hpage.toIsOf
      · rw [List.map_nil, List.append_nil, eraseDups_of_nodup hpage.nodup]
        simpa using hle
  | cons r rows ih =>
      have hnodup' := List.nodup_cons.mp hnodup
      have hcut' : ∀ q ∈ rows, entryOf start delimiter q.key ≠ none :=
        fun q hq => hcut q (List.mem_cons_of_mem _ hq)
      have hnew' : ∀ q ∈ rows, .object q.key ∉ entries :=
        fun q hq => hnew q (List.mem_cons_of_mem _ hq)
      have hstep := @listingStep_gathers start delimiter max r page entries hpage
        (hcut r (by simp)) (hnew r (by simp))
      rw [listRows, List.map_cons]
      by_cases hold : r.entry start delimiter ∈ entries
      · -- passed over
        rw [if_pos hold] at hstep
        rw [hstep, eraseDups_append_old hold]
        obtain ⟨page', after', full, hrun, hof, hsub, hfull⟩ :=
          ih r.key hpage hle hcut' hnodup'.2 hnew'
        refine ⟨page', after', full, hrun, hof, hsub.trans ?_, hfull⟩
        exact (List.sublist_cons_self r rows).append_left _
      · rw [if_neg hold] at hstep
        by_cases hfits : entries.length < max
        · -- a new entry
          rw [if_pos hfits] at hstep
          obtain ⟨page₁, hstep, hpage₁, hsub₁⟩ := hstep
          have hnew₁ : ∀ q ∈ rows, .object q.key ∉ entries ++ [r.entry start delimiter] := by
            intro q hq hmem
            rcases List.mem_append.mp hmem with hmem | hmem
            · exact hnew' q hq hmem
            · have hkey := Listed.entry_object (List.mem_singleton.mp hmem).symm
              exact hnodup'.1 (List.mem_map.mpr ⟨q, hq, hkey.symm⟩)
          obtain ⟨page', after', full, hrun, hof, hsub, hfull⟩ :=
            ih r.key hpage₁ (by simpa using hfits) hcut' hnodup'.2 hnew₁
          rw [List.append_assoc, List.singleton_append] at hof hfull
          rw [hstep]
          refine ⟨page', after', full, hrun, hof, hsub.trans ?_, hfull⟩
          rw [List.append_cons page.contents r rows]
          exact hsub₁.append_right rows
        · -- the page is full
          rw [if_neg hfits] at hstep
          obtain ⟨page₁, hstep, hof, hcontents⟩ := hstep
          obtain ⟨more, hmore⟩ := @eraseDups_append_new _ _ entries
            (rows.map (Listed.entry start delimiter)) _ hpage.nodup hold
          have hlen : entries.length = max := by omega
          rw [hstep, hmore, ← hlen, List.take_left]
          refine ⟨page₁, r.key, true, rfl, hof, ?_, ?_⟩
          · rw [hcontents]
            exact List.sublist_append_left _ _
          · simp

end Step

/-! ## The answer -/

/-- An answer is the page of the first `max` entries of a listing. -/
structure ListOutput.IsPage (out : ListOutput) (listing : List Entry) (max : ℕ) : Prop where
  contents_eq : out.contents.map (·.key) = (listing.take max).filterMap Entry.key?
  common_eq : out.commonPrefixes.getD [] = (listing.take max).filterMap Entry.common?
  keyCount_le : out.keyCount ≤ max
  truncated_iff : out.isTruncated = true ↔ max < listing.length

def listObjectsBy (batch : ℕ) (db : Db) (input : ListInput) : Option (Except S3Error ListOutput) :=
  if bucketExists db input.bucket then
    let after := (input.continuationToken.or input.startAfter).getD []
    (listLoopBy batch input.bucket (input.start.getD []) (input.delimiter.getD []) input.pageMax
      (List.replicate (db.objects.rows.length + 1) db) ⟨[], [], []⟩ after).map
        fun res => .ok (listOutput input res.1 res.2.1 res.2.2)
  else some (.error .noSuchBucket)

theorem listObjectsBy_eq {batch : ℕ} (hbatch : 0 < batch) (db : Db) (input : ListInput) :
    listObjectsBy batch db input = listObjectsV2 db input := by
  by_cases hbucket : bucketExists db input.bucket = true
  · rw [listObjectsBy, if_pos hbucket, listObjectsV2_eq hbucket]
    dsimp only
    rw [listLoopBy_eq hbatch length_rows_lt, ListInput.rows]
  · rw [listObjectsBy, listObjectsV2, listObjectsV2Through, if_neg hbucket, if_neg hbucket]

theorem isPage_listOutput {input : ListInput} {page : ListPage} {listing : List Entry}
    {after : Text} {truncated : Bool} (hpage : page.IsOf (listing.take input.pageMax))
    (htruncated : truncated = true ↔ input.pageMax < listing.length) :
    (listOutput input page after truncated).IsPage listing input.pageMax where
  contents_eq := hpage.contents_eq
  common_eq := by
    rw [← hpage.common_eq]
    by_cases hnil : page.common = []
    · simp [listOutput, hnil]
    · simp [listOutput, hnil]
  keyCount_le := by
    have hcount := hpage.count_eq
    rw [List.length_take] at hcount
    exact Int.ofNat_le.mpr (hcount ▸ min_le_left _ _)
  truncated_iff := htruncated

/-- A page is the first `max_keys` entries of the plain listing, whatever the size of the
queries that it is built from. -/
theorem page_is_plain_listing {db : Db} {input : ListInput}
    (hbucket : bucketExists db input.bucket = true)
    (hstart : ∀ q ∈ input.rows db, input.start.getD [] <+: q.key) :
    ∃ out, listObjectsV2 db input = some (.ok out) ∧
      out.IsPage (plainListing db input) input.pageMax ∧ out.contents.Sublist (input.rows db) ∧
      ∀ batch, 0 < batch → listObjectsBy batch db input = some (.ok out) := by
  have hcut : ∀ q ∈ input.rows db,
      entryOf (input.start.getD []) (input.delimiter.getD []) q.key ≠ none := by
    intro q hq
    obtain ⟨rest, hrest⟩ := hstart q hq
    rw [entryOf, ← hrest, dropBytes_append]
    simp
  obtain ⟨page, after, full, hrun, hof, hsub, hfull⟩ :=
    @listRows_gathers _ _ input.pageMax _ _ _
      ((input.continuationToken.or input.startAfter).getD []) gathers_nil (Nat.zero_le _) hcut
      nodup_selectKeys (by simp)
  rw [List.nil_append, eraseDups_entries hstart] at hof hfull
  have hlist : listObjectsV2 db input = some (.ok (listOutput input page after full)) := by
    rw [listObjectsV2_eq hbucket, hrun]
    rfl
  exact ⟨_, hlist, isPage_listOutput hof hfull, hsub,
    fun batch hbatch => (listObjectsBy_eq hbatch db input).trans hlist⟩

/-- Two of the four keys roll up to one common prefix. -/
def fourKeys : Db :=
  { Db.empty with
    buckets := onlyB
    objects := ⟨[.small ['p', 'c'] 1, .small ['p', 'a', '/', 'y'] 2, .small ['p', 'a', '/', 'x'] 3,
      .small ['q'] 4], by decide⟩ }

theorem page_is_plain_listing_fourKeys :
    ∃ out, listObjectsV2 fourKeys ⟨['b'], some ['p'], some ['/'], some 1, none, none⟩ =
        some (.ok out) ∧
      out.IsPage [.common ['p', 'a', '/'], .object ['p', 'c']] 1 := by
  obtain ⟨out, hout, hpage, -, -⟩ := @page_is_plain_listing fourKeys
    ⟨['b'], some ['p'], some ['/'], some 1, none, none⟩ (by decide) (by decide +kernel)
  have hlisting : plainListing fourKeys ⟨['b'], some ['p'], some ['/'], some 1, none, none⟩ =
      [.common ['p', 'a', '/'], .object ['p', 'c']] := by decide +kernel
  rw [hlisting] at hpage
  exact ⟨out, hout, hpage⟩

end Pgvs3
