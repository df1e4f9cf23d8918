import Pgvs3.Verification.Listing.Rollup

/-! # Which keys a listing loses

The cursor of a full page stands on the row that did not fit, and the next page begins
after it: that row is listed nowhere, unless its common prefix is. -/

namespace Pgvs3

open Library

/-! ## The rows after a cursor -/

section Select

variable {db : Db} {bucket start stop after : Text}

theorem nodup_selectKeys : ((selectKeys db bucket start stop after).map (·.key)).Nodup := by
  rw [List.Nodup, List.pairwise_map]
  exact selectKeys_increasing.imp fun h heq => absurd (congrArg utf8 heq) h.ne

/-- The rows after a row's key are those that follow it. -/
theorem selectKeys_after {xs ys : List Listed} {q : Listed}
    (h : selectKeys db bucket start stop after = xs ++ q :: ys) :
    selectKeys db bucket start stop q.key = ys := by
  have hsorted := @selectKeys_increasing db bucket start stop after
  rw [h, List.pairwise_append, List.pairwise_cons] at hsorted
  obtain ⟨-, ⟨hbehind, hys⟩, hbefore⟩ := hsorted
  have hq := mem_selectKeys.mp (h.symm ▸ List.mem_append_right xs List.mem_cons_self :
    q ∈ selectKeys db bucket start stop after)
  refine sortByKey_eq_of_perm ?_ hys
  rw [List.perm_ext_iff_of_nodup nodup_selected.of_map (hys.imp fun h heq => absurd (heq ▸ h)
    (lt_irrefl _))]
  intro p
  have hp : p ∈ selectKeys db bucket start stop after ↔ p ∈ xs ∨ p = q ∨ p ∈ ys := by
    rw [h, List.mem_append, List.mem_cons]
  rw [← @mem_sortByKey _ _ _ fun r : Listed => utf8 r.key, ← selectKeys, mem_selectKeys]
  constructor
  · rintro ⟨r, hr, hb, h1, h2, hlater, rfl⟩
    obtain ⟨r', -, -, -, -, hafter, rfl⟩ := hq
    have hmem : r.listed ∈ selectKeys db bucket start stop after :=
      mem_selectKeys.mpr ⟨r, hr, hb, h1, h2, hafter.trans hlater, rfl⟩
    rcases hp.mp hmem with hxs | heq | hys
    · exact absurd (hbefore _ hxs _ List.mem_cons_self) (lt_asymm hlater)
    · exact absurd hlater (heq ▸ lt_irrefl _)
    · exact hys
  · intro hys
    obtain ⟨r, hr, hb, h1, h2, -, rfl⟩ := mem_selectKeys.mp (hp.mpr (.inr (.inr hys)))
    exact ⟨r, hr, hb, h1, h2, hbehind _ hys, rfl⟩

end Select

/-! ## One page -/

section Page

variable {db : Db} {bucket start delimiter : Text} {max : ℕ}

def listLoopBy (batch : ℕ) (bucket start delimiter : Text) (max : ℕ) :
    List Db → ListPage → Text → Option (ListPage × Text × Bool)
  | [], _, _ => none
  | db :: dbs, page, after =>
      let rows := list db bucket start (prefixEnd start) after batch
      if rows = [] then some (page, after, false)
      else
        match listRows start delimiter max rows page after with
        | none => none
        | some (page, after, true) => some (page, after, true)
        | some (page, after, false) =>
            if rows.length < batch then some (page, after, false)
            else listLoopBy batch bucket start delimiter max dbs page after

theorem listLoop_eq_by (dbs : List Db) (page : ListPage) (after : Text) :
    listLoop bucket start delimiter max dbs page after =
      listLoopBy listBatch bucket start delimiter max dbs page after := by
  induction dbs generalizing page after with
  | nil => rfl
  | cons db dbs ih =>
      simp only [listLoop, listLoopBy]
      by_cases hnil : list db bucket start (prefixEnd start) after listBatch = []
      · rw [if_pos hnil, if_pos hnil]
      · rw [if_neg hnil, if_neg hnil]
        rcases listRows start delimiter max (list db bucket start (prefixEnd start) after listBatch)
          page after with _ | ⟨page', after', _ | _⟩
        · rfl
        · exact if_congr Iff.rfl rfl (ih page' after')
        · rfl

/-- The queries of a page together run over all rows after the cursor, whatever their size. -/
theorem listLoopBy_eq {batch fuel : ℕ} {page : ListPage} {after : Text} (hbatch : 0 < batch)
    (hfuel : (selectKeys db bucket start (prefixEnd start) after).length < fuel) :
    listLoopBy batch bucket start delimiter max (List.replicate fuel db) page after =
      listRows start delimiter max (selectKeys db bucket start (prefixEnd start) after)
        page after := by
  induction fuel generalizing page after with
  | zero => omega
  | succ fuel ih =>
      set rows := selectKeys db bucket start (prefixEnd start) after with hrows
      rw [List.replicate_succ, listLoopBy, list, ← hrows]
      by_cases hnil : rows = []
      · rw [hnil, List.take_nil]
        rfl
      · have htake : rows.take batch ≠ [] := by simp [hnil, hbatch.ne']
        conv_rhs => rw [← List.take_append_drop batch rows, listRows_append]
        rw [if_neg htake]
        rcases hrun : listRows start delimiter max (rows.take batch) page after with
          _ | ⟨page', after', _ | _⟩
        · rfl
        · dsimp only
          obtain ⟨taken, rest, hsplit, -, hcursor, hend, -⟩ := listRows_stop hrun
          rw [hend rfl, List.append_nil] at hsplit
          subst hsplit
          split
          · rename_i hshort
            rw [List.length_take] at hshort
            rw [List.drop_eq_nil_of_le (by omega), listRows]
          · -- the cursor is the last row of the batch
            obtain ⟨init, last, hlast⟩ := (List.eq_nil_or_concat' _).resolve_left htake
            have hafter : after' = last.key := by simp [hcursor, hlast]
            have hsplit : rows = init ++ last :: rows.drop batch := by
              conv_lhs => rw [← List.take_append_drop batch rows, hlast]
              simp
            have hrest := selectKeys_after (hrows.symm.trans hsplit)
            have hlen : (rows.drop batch).length < fuel := by
              have := congrArg List.length hsplit
              simp only [List.length_append, List.length_cons] at this
              omega
            rw [hafter, ih (hrest ▸ hlen), hrest]
        · rfl

theorem listLoop_eq {fuel : ℕ} {page : ListPage} {after : Text}
    (hfuel : (selectKeys db bucket start (prefixEnd start) after).length < fuel) :
    listLoop bucket start delimiter max (List.replicate fuel db) page after =
      listRows start delimiter max (selectKeys db bucket start (prefixEnd start) after)
        page after :=
  (listLoop_eq_by _ page after).trans (listLoopBy_eq (by decide) hfuel)

end Page

/-! ## All pages -/

/-- Follow `next_continuation_token` from page to page to the last one. -/
inductive Traversal (db : Db) : ListInput → List ListOutput → Prop where
  | last {input out} (h : listObjectsV2 db input = some (.ok out)) (hend : out.isTruncated = false) :
      Traversal db input [out]
  | next {input out token pages} (h : listObjectsV2 db input = some (.ok out))
      (htrunc : out.isTruncated = true) (htoken : out.nextContinuationToken = some token)
      (hrest : Traversal db { input with continuationToken := some token } pages) :
      Traversal db input (out :: pages)

def ListOutput.shows (out : ListOutput) : Entry → Prop
  | .object key => ∃ r ∈ out.contents, r.key = key
  | .common cp => ∃ common, out.commonPrefixes = some common ∧ cp ∈ common

/-- A request lists everything: the pages come to an end, and every key with the prefix
after `start_after` is on one of them or under one of their common prefixes. -/
def Lossless (db : Db) (input : ListInput) : Prop :=
  ∃ pages, Traversal db input pages ∧ ∀ r ∈ db.objects, r.bucket = input.bucket →
    input.start.getD [] <+: r.key → utf8 (input.startAfter.getD []) < utf8 r.key →
    ∃ out ∈ pages, out.shows (.object r.key) ∨ ∃ cp, out.shows (.common cp) ∧ cp <+: r.key

/-- The rows a request selects, from its token or `start_after` on. -/
def ListInput.rows (db : Db) (input : ListInput) : List Listed :=
  selectKeys db input.bucket (input.start.getD []) (prefixEnd (input.start.getD []))
    ((input.continuationToken.or input.startAfter).getD [])

def ListInput.entry (input : ListInput) (r : Listed) : Entry :=
  r.entry (input.start.getD []) (input.delimiter.getD [])

/-- The selected rows that pages of `max` entries take. -/
def ListInput.kept (db : Db) (input : ListInput) : List Listed :=
  dealt input.entry input.pageMax [] (input.rows db)

/-- The selected rows that end a page. -/
def ListInput.droppedRows (db : Db) (input : ListInput) : List Listed :=
  droppedFrom input.entry input.pageMax [] (input.rows db)

/-- The key can be cut at the byte length of the prefix. -/
def ListInput.cuts (input : ListInput) (key : Text) : Prop :=
  dropBytes (utf8 (input.start.getD [])).length key ≠ none

section Traversal

variable {db : Db} {input : ListInput}

theorem cuts_iff {key : Text} : input.cuts key ↔
    entryOf (input.start.getD []) (input.delimiter.getD []) key ≠ none := by
  simp [ListInput.cuts, entryOf]

theorem length_rows_lt : (input.rows db).length < db.objects.rows.length + 1 := by
  rw [ListInput.rows, selectKeys, length_sortByKey, List.length_map]
  exact Nat.lt_succ_of_le (List.length_filter_le _ _)

theorem listObjectsV2_eq (hbucket : bucketExists db input.bucket = true) :
    listObjectsV2 db input = (listRows (input.start.getD []) (input.delimiter.getD []) input.pageMax
      (input.rows db) ⟨[], [], []⟩ ((input.continuationToken.or input.startAfter).getD [])).map
        fun res => .ok (listOutput input res.1 res.2.1 res.2.2) := by
  rw [listObjectsV2, listObjectsV2Through, if_pos hbucket]
  dsimp only
  rw [listLoop_eq length_rows_lt, ListInput.rows]
  cases listRows (input.start.getD []) (input.delimiter.getD []) input.pageMax _
    ⟨[], [], []⟩ ((input.continuationToken.or input.startAfter).getD []) <;> rfl

theorem shows_listOutput (input : ListInput) (page : ListPage) (after : Text) (truncated : Bool)
    (e : Entry) : (listOutput input page after truncated).shows e ↔ page.shows e := by
  cases e with
  | object key => rfl
  | common cp =>
      by_cases hnil : page.common = []
      · simp [ListOutput.shows, ListPage.shows, listOutput, hnil]
      · simp [ListOutput.shows, ListPage.shows, listOutput, hnil]

theorem rows_next {taken rest : List Listed} {q : Listed}
    (h : input.rows db = taken ++ q :: rest) :
    ListInput.rows db { input with continuationToken := some q.key } = rest :=
  selectKeys_after h

/-- A traversal that ends has cut every selected key. -/
theorem Traversal.cuts {pages : List ListOutput} (h : Traversal db input pages)
    (hbucket : bucketExists db input.bucket = true) : ∀ q ∈ input.rows db, input.cuts q.key := by
  induction h with
  | @last input out h hend =>
      rw [listObjectsV2_eq hbucket, Option.map_eq_some_iff] at h
      obtain ⟨⟨page, after, truncated⟩, hrun, hout⟩ := h
      obtain rfl := Except.ok.inj hout
      obtain ⟨taken, rest, hsplit, hcut, -, hall, -⟩ := listRows_stop hrun
      rw [hall hend, List.append_nil] at hsplit
      rw [hsplit]
      exact fun q hq => cuts_iff.mpr (hcut q hq)
  | @next input out token pages h htrunc htoken hrest ih =>
      rw [listObjectsV2_eq hbucket, Option.map_eq_some_iff] at h
      obtain ⟨⟨page, after, truncated⟩, hrun, hout⟩ := h
      obtain rfl := Except.ok.inj hout
      obtain rfl : truncated = true := htrunc
      obtain rfl : after = token := Option.some.inj htoken
      obtain ⟨taken, rest, hsplit, hcut, hcursor, -, hne⟩ := listRows_stop hrun
      obtain ⟨init, last, rfl⟩ := (List.eq_nil_or_concat' _).resolve_left (hne rfl)
      have hlast : after = last.key := by simp [hcursor]
      have hsplit' : input.rows db = init ++ last :: rest := by simpa using hsplit
      have hcuts := ih hbucket
      rw [hlast, rows_next hsplit'] at hcuts
      intro q hq
      rw [hsplit] at hq
      rcases List.mem_append.mp hq with hq | hq
      · exact cuts_iff.mpr (hcut q hq)
      · exact hcuts q hq

/-- When every selected key can be cut, the traversal ends and shows the entries of the rows
that its pages take. -/
theorem exists_traversal (hbucket : bucketExists db input.bucket = true)
    (hcuts : ∀ q ∈ input.rows db, input.cuts q.key) :
    ∃ pages, Traversal db input pages ∧
      ∀ e, (∃ out ∈ pages, out.shows e) ↔ ∃ q ∈ input.kept db, input.entry q = e := by
  induction hn : (input.rows db).length using Nat.strong_induction_on generalizing input with
  | _ n ih =>
      have hpage := @listRows_dealt (input.start.getD []) (input.delimiter.getD []) input.pageMax
        (input.rows db) ⟨[], [], []⟩ [] ((input.continuationToken.or input.startAfter).getD [])
        collects_nil (fun q hq => cuts_iff.mp (hcuts q hq)) nodup_selectKeys (by simp)
      have hrun := @listObjectsV2_eq db input hbucket
      rcases hpage with ⟨page, after, hrows, hshows, hdealt⟩ |
        ⟨taken, q, rest, page, hsplit, hrows, hshows, hdealt⟩
      · rw [hrows] at hrun
        refine ⟨_, .last hrun rfl, fun e => ?_⟩
        have hkept : input.kept db = input.rows db := hdealt
        simp only [List.mem_singleton, exists_eq_left, shows_listOutput, hshows, hkept,
          List.not_mem_nil, false_or]
        rfl
      · rw [hrows] at hrun
        have hnext := rows_next hsplit
        set input' : ListInput := { input with continuationToken := some q.key } with hinput'
        have hkept : input.kept db = taken ++ input'.kept db :=
          hdealt.trans (congrArg (taken ++ dealt _ _ [] ·) hnext.symm)
        have hlen : (input'.rows db).length < n := by
          rw [hnext, ← hn, hsplit]
          simp only [List.length_append, List.length_cons]
          omega
        have hcuts' : ∀ p ∈ input'.rows db, input'.cuts p.key := by
          intro p hp
          refine hcuts p ?_
          rw [hsplit]
          exact List.mem_append_right _ (List.mem_cons_of_mem _ (hnext ▸ hp))
        obtain ⟨pages, htrav, hall⟩ := @ih _ hlen input' hbucket hcuts' rfl
        refine ⟨_, .next hrun rfl rfl htrav, fun e => ?_⟩
        simp only [List.mem_cons, hall, hkept, List.mem_append, or_and_right, exists_or,
          exists_eq_left, shows_listOutput, hshows, List.not_mem_nil, false_or]
        rfl

theorem Traversal.unique {pages pages' : List ListOutput} (h : Traversal db input pages)
    (h' : Traversal db input pages') : pages = pages' := by
  induction h generalizing pages' with
  | @last input out hout hend =>
      cases h' with
      | last hout' hend' => rw [Except.ok.inj (Option.some.inj (hout.symm.trans hout'))]
      | next hout' htrunc' _ _ =>
          rw [Except.ok.inj (Option.some.inj (hout'.symm.trans hout)), hend] at htrunc'
          cases htrunc'
  | @next input out token pages hout htrunc htoken hrest ih =>
      cases h' with
      | last hout' hend' =>
          rw [Except.ok.inj (Option.some.inj (hout'.symm.trans hout)), htrunc] at hend'
          cases hend'
      | next hout' htrunc' htoken' hrest' =>
          obtain rfl := Except.ok.inj (Option.some.inj (hout.symm.trans hout'))
          obtain rfl := Option.some.inj (htoken.symm.trans htoken')
          rw [ih hrest']

end Traversal

/-! ## What is lost -/

section Lossless

variable {db : Db} {input : ListInput}

theorem lastText_isPrefix {key : Text} (h : lastText ≤ key) : lastText <+: key := by
  cases key with
  | nil => exact absurd h (not_le_of_gt (List.nil_lt_cons _ _))
  | cons c key =>
      have hc : Char.ofNat 0x10FFFF = c := by
        rcases cons_le_cons_iff.mp h with hlt | ⟨heq, -⟩
        · have hlt : 0x10FFFF < c.toNat := hlt
          have hvalid : c.toNat.isValidChar := c.valid
          unfold Nat.isValidChar at hvalid
          omega
        · exact heq
      exact ⟨key, by rw [← hc]; rfl⟩

theorem commonPrefix_ne_nil {start delimiter rest cp : Text}
    (h : commonPrefix start delimiter rest = some cp) : cp ≠ [] := by
  unfold commonPrefix at h
  split at h
  · cases h
  · rename_i hne
    rw [Option.map_eq_some_iff] at h
    obtain ⟨i, hi, rfl⟩ := h
    have hlen := findText_le hi
    have hpos := List.length_pos_of_ne_nil hne
    intro hnil
    have htake := congrArg List.length (List.append_eq_nil_iff.mp hnil).2
    rw [List.length_take, List.length_nil] at htake
    omega

theorem lt_prefixEnd_of_common {start delimiter cp key : Text} {q : Listed}
    (hq : utf8 start ≤ utf8 q.key ∧ utf8 q.key < utf8 (prefixEnd start))
    (hcp : q.entry start delimiter = .common cp) (hkey : start <+: key) (hpre : cp <+: key) :
    utf8 key < utf8 (prefixEnd start) := by
  rw [within_bounds_iff] at hq
  refine (within_bounds_iff.mpr ⟨le_of_isPrefix hkey, (stem_isPrefix start).trans hkey,
    fun hstem => ?_⟩).2
  by_contra hle
  have hlast := lastText_isPrefix (not_lt.mp hle)
  refine absurd (hq.2.2 hstem) (not_lt.mpr ?_)
  by_cases hnil : start = []
  · -- the common prefix begins with U+10FFFF
    subst hnil
    obtain ⟨rest, hrest⟩ := Listed.exists_of_entry_common hcp
    have hpos := List.length_pos_of_ne_nil (commonPrefix_ne_nil hrest)
    have hin : lastText <+: cp := List.prefix_of_prefix_length_le hlast hpre hpos
    exact le_of_isPrefix (hin.trans (Listed.isPrefix_of_entry_common List.nil_prefix hcp))
  · -- the prefix begins with U+10FFFF
    have hpos := List.length_pos_of_ne_nil hnil
    have hin : lastText <+: start := List.prefix_of_prefix_length_le hlast hkey hpos
    exact (le_of_isPrefix hin).trans hq.1

theorem ListInput.mem_rows (htoken : input.continuationToken = none) {q : Listed} :
    q ∈ input.rows db ↔ ∃ r ∈ db.objects, r.bucket = input.bucket ∧
      utf8 (input.start.getD []) ≤ utf8 r.key ∧
      utf8 r.key < utf8 (prefixEnd (input.start.getD [])) ∧
      utf8 (input.startAfter.getD []) < utf8 r.key ∧ r.listed = q := by
  rw [ListInput.rows, mem_selectKeys, htoken, Option.none_or]

theorem ListInput.bounds_of_mem_rows {q : Listed} (h : q ∈ input.rows db) :
    utf8 (input.start.getD []) ≤ utf8 q.key ∧
      utf8 q.key < utf8 (prefixEnd (input.start.getD [])) := by
  obtain ⟨r, -, -, hstart, hstop, -, rfl⟩ := mem_selectKeys.mp h
  exact ⟨hstart, hstop⟩

theorem ListInput.entry_congr {p q : Listed} (h : p.key = q.key) :
    input.entry p = input.entry q := by
  rw [ListInput.entry, ListInput.entry, Listed.entry, Listed.entry, h]

theorem ListInput.covered_iff {q : Listed} (hq : input.start.getD [] <+: q.key) :
    (∃ p ∈ input.kept db, input.entry p = .object q.key ∨
      ∃ cp, input.entry p = .common cp ∧ cp <+: q.key) ↔
      ∃ p ∈ input.kept db, input.entry p = input.entry q := by
  constructor
  · rintro ⟨p, hp, hentry | ⟨cp, hentry, hpre⟩⟩
    · exact ⟨p, hp, ListInput.entry_congr (Listed.entry_object hentry)⟩
    · exact ⟨p, hp, hentry.trans (Listed.entry_of_isPrefix hq hentry hpre).symm⟩
  · rintro ⟨p, hp, hentry⟩
    refine ⟨p, hp, ?_⟩
    cases hshown : input.entry q with
    | object key =>
        left
        rw [hentry, hshown, Listed.entry_object hshown]
    | common cp =>
        exact .inr ⟨cp, hentry.trans hshown, Listed.isPrefix_of_entry_common hq hshown⟩

/-- Listing loses nothing exactly when every selected key can be cut, every key with the
prefix is selected, and every row that ends a page shares its entry with a listed row. -/
theorem listing_lossless_iff (hbucket : bucketExists db input.bucket = true)
    (htoken : input.continuationToken = none) : Lossless db input ↔
      (∀ q ∈ input.rows db, input.cuts q.key) ∧
      (∀ r ∈ db.objects, r.bucket = input.bucket → input.start.getD [] <+: r.key →
        utf8 (input.startAfter.getD []) < utf8 r.key →
          utf8 r.key < utf8 (prefixEnd (input.start.getD []))) ∧
      ∀ q ∈ input.droppedRows db, input.start.getD [] <+: q.key →
        ∃ p ∈ input.kept db, input.entry p = input.entry q := by
  have hsplit : ∀ q, q ∈ input.rows db ↔ q ∈ input.kept db ∨ q ∈ input.droppedRows db :=
    fun q => mem_iff_dealt_or_dropped [] _
  -- what a traversal shows of a key, in terms of the kept rows
  have hshown : ∀ {pages : List ListOutput} (key : Text),
      (∀ e, (∃ out ∈ pages, out.shows e) ↔ ∃ q ∈ input.kept db, input.entry q = e) →
      ((∃ out ∈ pages, out.shows (.object key) ∨ ∃ cp, out.shows (.common cp) ∧ cp <+: key) ↔
        ∃ p ∈ input.kept db, input.entry p = .object key ∨
          ∃ cp, input.entry p = .common cp ∧ cp <+: key) := by
    intro pages key hall
    constructor
    · rintro ⟨out, hout, hobj | ⟨cp, hcp, hpre⟩⟩
      · obtain ⟨p, hp, hentry⟩ := (hall _).mp ⟨out, hout, hobj⟩
        exact ⟨p, hp, .inl hentry⟩
      · obtain ⟨p, hp, hentry⟩ := (hall _).mp ⟨out, hout, hcp⟩
        exact ⟨p, hp, .inr ⟨cp, hentry, hpre⟩⟩
    · rintro ⟨p, hp, hentry | ⟨cp, hentry, hpre⟩⟩
      · obtain ⟨out, hout, hobj⟩ := (hall _).mpr ⟨p, hp, hentry⟩
        exact ⟨out, hout, .inl hobj⟩
      · obtain ⟨out, hout, hcp⟩ := (hall _).mpr ⟨p, hp, hentry⟩
        exact ⟨out, hout, .inr ⟨cp, hcp, hpre⟩⟩
  constructor
  · rintro ⟨pages, htrav, hlossless⟩
    have hcuts := htrav.cuts hbucket
    obtain ⟨pages', htrav', hall⟩ := exists_traversal hbucket hcuts
    obtain rfl := htrav.unique htrav'
    refine ⟨hcuts, ?_, ?_⟩
    · intro r hr hb hpre hafter
      obtain ⟨p, hp, hentry | ⟨cp, hentry, hcp⟩⟩ :=
        (hshown r.key hall).mp (hlossless r hr hb hpre hafter)
      · rw [← Listed.entry_object hentry]
        exact (ListInput.bounds_of_mem_rows ((hsplit p).mpr (.inl hp))).2
      · exact lt_prefixEnd_of_common (ListInput.bounds_of_mem_rows ((hsplit p).mpr (.inl hp)))
          hentry hpre hcp
    · intro q hq hpre
      obtain ⟨r, hr, hb, -, -, hafter, rfl⟩ :=
        (ListInput.mem_rows htoken).mp ((hsplit q).mpr (.inr hq))
      exact (ListInput.covered_iff hpre).mp
        ((hshown r.key hall).mp (hlossless r hr hb hpre hafter))
  · rintro ⟨hcuts, hselected, hdropped⟩
    obtain ⟨pages, htrav, hall⟩ := exists_traversal hbucket hcuts
    refine ⟨pages, htrav, fun r hr hb hpre hafter => (hshown r.key hall).mpr ?_⟩
    have hrow : r.listed ∈ input.rows db := (ListInput.mem_rows htoken).mpr
      ⟨r, hr, hb, utf8_le_iff.mpr (le_of_isPrefix hpre), hselected r hr hb hpre hafter, hafter, rfl⟩
    refine (ListInput.covered_iff (show input.start.getD [] <+: r.listed.key from hpre)).mpr ?_
    rcases (hsplit _).mp hrow with hkept | hq
    · exact ⟨_, hkept, rfl⟩
    · exact hdropped _ hq hpre

end Lossless

/-! ## Three keys in a bucket -/

def ObjectRow.small (key : Text) (fileId : ℤ) : ObjectRow :=
  ⟨['b'], key, fileId, 1, [7], 0, none, none⟩

def threeKeys : Db :=
  { Db.empty with
    buckets := onlyB
    objects := ⟨[.small ['a'] 1, .small ['b'] 2, .small ['c'] 3], by decide⟩ }

/-- A page with room for all keys loses none. -/
theorem listing_lossless_iff_threeKeys :
    Lossless threeKeys ⟨['b'], none, none, some 3, none, none⟩ := by
  refine (listing_lossless_iff (by decide) rfl).mpr ⟨?_, ?_, ?_⟩
  · unfold ListInput.cuts
    decide +kernel
  · intro r hr
    have hrows : r ∈ threeKeys.objects.rows := hr
    fin_cases hrows <;> decide +kernel
  · intro q hq
    have hnone : ListInput.droppedRows threeKeys
        ⟨['b'], none, none, some 3, none, none⟩ = [] := by decide +kernel
    rw [hnone] at hq
    cases hq

/-- With one key a page, the row that ends a page is skipped. -/
theorem listing_skips_key :
    ¬ Lossless threeKeys ⟨['b'], none, none, some 1, none, none⟩ := by
  rintro ⟨pages, htrav, hlossless⟩
  have hpages : Traversal threeKeys ⟨['b'], none, none, some 1, none, none⟩
      [⟨['b'], [], 1, 1, none, true, some ['b'], [⟨['a'], 1, [7], 0⟩], none, none⟩,
        ⟨['b'], [], 1, 1, some ['b'], false, none, [⟨['c'], 1, [7], 0⟩], none, none⟩] :=
    .next (by decide +kernel) rfl rfl (.last (by decide +kernel) rfl)
  obtain rfl := htrav.unique hpages
  have hb := hlossless (.small ['b'] 2) (by decide +kernel) rfl (by decide) (by decide)
  simp [ListOutput.shows, ObjectRow.small] at hb

end Pgvs3
