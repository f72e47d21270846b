import RizzyVault.Sync.LiteralWorker

/-!
# The covers of a fetch

The selection goes over an item's snapshots newest first and takes one that covers a bodiless header
which the ones taken so far cover by no author, or by one author other than its own. Every header
that some snapshot covers ends with covers by two authors, or by the one it has, and each snapshot
taken brings some header a first or a second author, so at most two are taken per header.

## Main definitions

* `Selects`: what holds while the selection runs.

## Main results

* `Selects.step`: one snapshot keeps it.
* `selectCovers_spec`.

## References

* `crates/rizzy-sync/src/compaction.rs`.
-/

namespace RizzyVault.Sync

open Std (ExtTreeMap)
open RizzyVault.Lib

theorem coverAuthors_append_singleton (snapshots : List RetainedSnapshot) (s : RetainedSnapshot)
    (dot : Dot) : coverAuthors (snapshots ++ [s]) dot =
      if s.covers dot then insert s.author (coverAuthors snapshots dot)
      else coverAuthors snapshots dot := by
  ext author
  split_ifs with hcov
  · simp only [Finset.mem_insert, mem_coverAuthors, List.mem_append, List.mem_singleton]
    constructor
    · rintro ⟨t, ht | rfl, htcov, rfl⟩
      · exact .inr ⟨t, ht, htcov, rfl⟩
      · exact .inl rfl
    · rintro (rfl | ⟨t, ht, htcov, rfl⟩)
      · exact ⟨s, .inr rfl, hcov, rfl⟩
      · exact ⟨t, .inl ht, htcov, rfl⟩
  · simp only [mem_coverAuthors, List.mem_append, List.mem_singleton]
    constructor
    · rintro ⟨t, ht | rfl, htcov, rfl⟩
      · exact ⟨t, ht, htcov, rfl⟩
      · exact absurd htcov hcov
    · rintro ⟨t, ht, htcov, rfl⟩
      exact ⟨t, .inl ht, htcov, rfl⟩

/-- The authors of the covers, as the selection keeps them. -/
abbrev CoverAuthors := ExtTreeMap Dot (Finset DeviceId)

theorem getElem?_foldl_insert_author {headers : List Dot} (hnodup : headers.Nodup)
    (m : CoverAuthors) (author : DeviceId) (dot : Dot) :
    (headers.foldl (fun m dot => m.insert dot (insert author (m.getD dot ∅))) m)[dot]? =
      if dot ∈ headers then some (insert author (m.getD dot ∅)) else m[dot]? := by
  induction headers generalizing m with
  | nil => simp
  | cons d headers ih =>
    obtain ⟨hd, hrest⟩ := List.nodup_cons.mp hnodup
    rw [List.foldl_cons, ih hrest, ExtTreeMap.getElem?_insert_iff]
    by_cases hdot : d = dot
    · subst hdot
      simp [hd]
    · have hdot' : dot ≠ d := fun h => hdot h.symm
      simp [hdot, hdot', ExtTreeMap.getD_insert]

/-- The state of the selection once it has gone over `seen` and taken `chosen`. -/
structure Selects (headers : List Dot) (seen chosen : List RetainedSnapshot)
    (acc : CoverAuthors × List ℕ) : Prop where
  covers : acc.2 = chosen.map RetainedSnapshot.storeSeq
  sublist : chosen.Sublist seen
  authors : ∀ dot, acc.1[dot]? = if dot ∈ headers ∧ coverAuthors chosen dot ≠ ∅ then
    some (coverAuthors chosen dot) else none
  enough : ∀ dot ∈ headers, min 2 (coverAuthors seen dot).card ≤ (coverAuthors chosen dot).card
  bound : chosen.length ≤ ∑ dot ∈ headers.toFinset, min 2 (coverAuthors chosen dot).card

namespace Selects

variable {headers : List Dot} {seen chosen : List RetainedSnapshot} {acc : CoverAuthors × List ℕ}

theorem nil (headers : List Dot) : Selects headers [] [] (∅, []) := by
  have hnone (dot : Dot) : coverAuthors [] dot = ∅ := rfl
  refine ⟨rfl, List.Sublist.refl _, fun dot => ?_, fun dot _ => ?_, Nat.zero_le _⟩
  · simp [hnone]
  · simp [hnone]

theorem getD_eq (h : Selects headers seen chosen acc) {dot : Dot} (hdot : dot ∈ headers) :
    acc.1.getD dot ∅ = coverAuthors chosen dot := by
  rw [ExtTreeMap.getD_eq_getD_getElem?, h.authors]
  split_ifs with hmem
  · rfl
  · exact (not_not.mp fun hne => hmem ⟨hdot, hne⟩).symm

/-- Whether the selection takes a snapshot. -/
theorem adds_iff (h : Selects headers seen chosen acc) (s : RetainedSnapshot) :
    (headers.any fun dot => s.covers dot && match acc.1[dot]? with
      | none => true
      | some authors => authors.card = 1 && s.author ∉ authors) = true ↔
      ∃ dot ∈ headers, s.covers dot ∧ (coverAuthors chosen dot).card < 2 ∧
        s.author ∉ coverAuthors chosen dot := by
  rw [List.any_eq_true]
  refine exists_congr fun dot => and_congr_right fun hdot => ?_
  rw [Bool.and_eq_true, decide_eq_true_eq]
  refine and_congr_right fun _ => ?_
  rw [h.authors]
  by_cases hnone : coverAuthors chosen dot = ∅
  · simp [hnone]
  · have hpos := Finset.card_pos.mpr (Finset.nonempty_iff_ne_empty.mpr hnone)
    rw [if_pos ⟨hdot, hnone⟩]
    simp only [Bool.and_eq_true, decide_eq_true_eq]
    refine and_congr_left fun _ => ?_
    omega

/-- One snapshot that is taken brings some header an author. -/
theorem taken (h : Selects headers seen chosen acc) {s : RetainedSnapshot}
    (hnodup : headers.Nodup) (hadds : ∃ dot ∈ headers, s.covers dot ∧
      (coverAuthors chosen dot).card < 2 ∧ s.author ∉ coverAuthors chosen dot) :
    Selects headers (seen ++ [s]) (chosen ++ [s])
      ((headers.filter fun dot => s.covers dot).foldl (fun authors dot =>
        authors.insert dot (insert s.author (authors.getD dot ∅))) acc.1,
        acc.2 ++ [s.storeSeq]) := by
  refine ⟨?_, h.sublist.append (List.Sublist.refl _), fun dot => ?_, fun dot hdot => ?_, ?_⟩
  · rw [h.covers, List.map_append]
    rfl
  · rw [getElem?_foldl_insert_author (hnodup.filter _), coverAuthors_append_singleton]
    simp only [List.mem_filter, decide_eq_true_eq]
    by_cases hcov : s.covers dot
    · by_cases hdot : dot ∈ headers
      · simp [hcov, hdot, h.getD_eq hdot]
      · simp [hdot, h.authors]
    · simp [hcov, h.authors]
  · have henough := h.enough dot hdot
    rw [coverAuthors_append_singleton, coverAuthors_append_singleton]
    split_ifs with hcov
    · by_cases hmem : s.author ∈ coverAuthors chosen dot
      · have hmem' := coverAuthors_subset h.sublist.subset dot hmem
        rwa [Finset.insert_eq_of_mem hmem, Finset.insert_eq_of_mem hmem']
      · have hle := Finset.card_insert_le s.author (coverAuthors seen dot)
        rw [Finset.card_insert_of_notMem hmem]
        omega
    · exact henough
  · obtain ⟨dot, hdot, hcov, htwo, hnew⟩ := hadds
    rw [List.length_append, List.length_singleton]
    refine Nat.succ_le_of_lt (h.bound.trans_lt (Finset.sum_lt_sum (fun d _ => ?_)
      ⟨dot, List.mem_toFinset.mpr hdot, ?_⟩))
    · exact min_le_min_left 2 (Finset.card_le_card
        (coverAuthors_subset (List.subset_append_left chosen [s]) d))
    · rw [coverAuthors_append_singleton, if_pos hcov, Finset.card_insert_of_notMem hnew]
      omega

/-- One snapshot that is passed over brings no header an author it lacks. -/
theorem passed (h : Selects headers seen chosen acc) {s : RetainedSnapshot}
    (hadds : ¬ ∃ dot ∈ headers, s.covers dot ∧ (coverAuthors chosen dot).card < 2 ∧
      s.author ∉ coverAuthors chosen dot) :
    Selects headers (seen ++ [s]) chosen acc := by
  refine ⟨h.covers, h.sublist.trans (List.sublist_append_left _ _), h.authors, fun dot hdot => ?_,
    h.bound⟩
  have henough := h.enough dot hdot
  rw [coverAuthors_append_singleton]
  split_ifs with hcov
  · by_cases hmem : s.author ∈ coverAuthors chosen dot
    · rwa [Finset.insert_eq_of_mem (coverAuthors_subset h.sublist.subset dot hmem)]
    · have htwo : ¬ (coverAuthors chosen dot).card < 2 := fun hlt =>
        hadds ⟨dot, hdot, hcov, hlt, hmem⟩
      omega
  · exact henough

theorem step (h : Selects headers seen chosen acc) (hnodup : headers.Nodup)
    (s : RetainedSnapshot) :
    ∃ chosen', Selects headers (seen ++ [s]) chosen' (selectStep headers acc s) := by
  rw [selectStep]
  split_ifs with hadds
  · exact ⟨_, h.taken hnodup ((h.adds_iff s).mp hadds)⟩
  · exact ⟨_, h.passed fun hex => hadds ((h.adds_iff s).mpr hex)⟩

theorem foldl (h : Selects headers seen chosen acc) (hnodup : headers.Nodup)
    (snapshots : List RetainedSnapshot) :
    ∃ chosen', Selects headers (seen ++ snapshots) chosen'
      (snapshots.foldl (selectStep headers) acc) := by
  induction snapshots generalizing seen chosen acc with
  | nil => exact ⟨chosen, (List.append_nil seen).symm ▸ h⟩
  | cons s snapshots ih =>
    obtain ⟨_, hstep⟩ := h.step hnodup s
    obtain ⟨chosen', hrest⟩ := ih hstep
    exact ⟨chosen', by rwa [List.append_assoc, List.singleton_append] at hrest⟩

/-- A header is left without an entry exactly when no snapshot seen covers it. -/
theorem notMem_iff (h : Selects headers seen chosen acc) {dot : Dot} (hdot : dot ∈ headers) :
    dot ∉ acc.1 ↔ coverAuthors seen dot = ∅ := by
  have henough := h.enough dot hdot
  have hle := Finset.card_le_card (coverAuthors_subset h.sublist.subset dot)
  rw [← Finset.card_eq_zero, ExtTreeMap.mem_iff_isSome_getElem?, h.authors]
  have hempty : coverAuthors chosen dot ≠ ∅ ↔ (coverAuthors chosen dot).card ≠ 0 :=
    Finset.card_ne_zero.trans Finset.nonempty_iff_ne_empty |>.symm
  split_ifs with hmem
  · have hne := hempty.mp hmem.2
    simp only [Option.isSome_some, not_true_eq_false, false_iff]
    omega
  · have hzero : (coverAuthors chosen dot).card = 0 :=
      not_not.mp fun hne => hmem ⟨hdot, hempty.mpr hne⟩
    simp only [Option.isSome_none, Bool.false_eq_true, not_false_eq_true, true_iff]
    omega

end Selects

theorem selectCovers_eq_ok_iff {snapshots : List RetainedSnapshot} {bodiless : List Dot}
    {selection : CoverSelection} : selectCovers snapshots bodiless = .ok selection ↔
      (snapshots.map RetainedSnapshot.storeSeq).Nodup ∧ ∃ acc,
        (oldestFirst snapshots).reverse.foldl
          (selectStep (Std.ExtTreeSet.ofList bodiless).toList) (∅, []) = acc ∧
        selection = ⟨acc.2, (Std.ExtTreeSet.ofList bodiless).toList.filter fun dot =>
          dot ∉ acc.1⟩ := by
  rw [selectCovers, except_bind_eq_ok]
  simp only [byStoreSeq_eq_ok_iff]
  constructor
  · rintro ⟨_, ⟨hseqs, rfl⟩, h⟩
    cases h
    exact ⟨hseqs, _, rfl, rfl⟩
  · rintro ⟨hseqs, _, rfl, rfl⟩
    exact ⟨_, ⟨hseqs, rfl⟩, rfl⟩

/-- The chosen snapshots, found again by their store sequences. -/
theorem mem_filter_storeSeq {snapshots chosen : List RetainedSnapshot}
    (hseqs : (snapshots.map RetainedSnapshot.storeSeq).Nodup) (hchosen : chosen ⊆ snapshots)
    (s : RetainedSnapshot) :
    s ∈ snapshots.filter (fun s => s.storeSeq ∈ chosen.map RetainedSnapshot.storeSeq) ↔
      s ∈ chosen := by
  rw [List.mem_filter, decide_eq_true_eq]
  constructor
  · rintro ⟨hs, hmem⟩
    obtain ⟨t, ht, heq⟩ := List.mem_map.mp hmem
    rwa [← List.inj_on_of_nodup_map hseqs (hchosen ht) hs heq]
  · exact fun hs => ⟨hchosen hs, List.mem_map_of_mem hs⟩

/-- The selection of covers fails only on a repeated store sequence. Each header that some snapshot
covers is covered by chosen snapshots of two authors, or of the one author whose snapshots cover it;
the headers reported as uncovered are those that no snapshot covers; and the chosen snapshots are
distinct snapshots of the list, at most two for each distinct header. -/
theorem selectCovers_spec (snapshots : List RetainedSnapshot) (bodiless : List Dot) :
    ((∃ selection, selectCovers snapshots bodiless = .ok selection) ↔
        (snapshots.map RetainedSnapshot.storeSeq).Nodup) ∧
      ∀ selection, selectCovers snapshots bodiless = .ok selection →
        (∀ dot ∈ bodiless, min 2 (coverAuthors snapshots dot).card ≤
          (coverAuthors (snapshots.filter fun s => s.storeSeq ∈ selection.covers) dot).card) ∧
        (∀ dot, dot ∈ selection.uncovered ↔
          dot ∈ bodiless ∧ ∀ s ∈ snapshots, ¬ s.covers dot) ∧
        selection.covers.Nodup ∧ selection.covers ⊆ snapshots.map RetainedSnapshot.storeSeq ∧
        selection.covers.length ≤ 2 * bodiless.toFinset.card := by
  refine ⟨⟨fun ⟨_, h⟩ => (selectCovers_eq_ok_iff.mp h).1,
    fun hseqs => ⟨_, selectCovers_eq_ok_iff.mpr ⟨hseqs, _, rfl, rfl⟩⟩⟩, fun selection h => ?_⟩
  obtain ⟨hseqs, acc, hacc, rfl⟩ := selectCovers_eq_ok_iff.mp h
  set headers := (Std.ExtTreeSet.ofList bodiless).toList with hheaders
  have hmem (dot : Dot) : dot ∈ headers ↔ dot ∈ bodiless := Std.ExtTreeSet.mem_toList_ofList _ _
  have hnodup : headers.Nodup := (Std.ExtTreeSet.pairwise_toList _).imp ne_of_lt
  obtain ⟨chosen, hsel⟩ := (Selects.nil headers).foldl hnodup (oldestFirst snapshots).reverse
  rw [List.nil_append, hacc] at hsel
  have hseen (s : RetainedSnapshot) : s ∈ (oldestFirst snapshots).reverse ↔ s ∈ snapshots := by
    rw [List.mem_reverse, mem_oldestFirst]
  have hchosen : chosen ⊆ snapshots := fun s hs => (hseen s).mp (hsel.sublist.subset hs)
  have hseqs' : (chosen.map RetainedSnapshot.storeSeq).Nodup := by
    refine List.Nodup.sublist (hsel.sublist.map _) ?_
    rw [List.map_reverse, List.nodup_reverse]
    exact ((List.mergeSort_perm _ _).map _).nodup_iff.mpr hseqs
  dsimp only
  rw [hsel.covers]
  refine ⟨fun dot hdot => ?_, fun dot => ?_, hseqs', List.map_subset _ hchosen, ?_⟩
  · rw [coverAuthors_congr (mem_filter_storeSeq hseqs hchosen) dot,
      ← coverAuthors_congr hseen dot]
    exact hsel.enough dot ((hmem dot).mpr hdot)
  · rw [List.mem_filter, decide_eq_true_eq, hmem]
    refine and_congr_right fun hdot => ?_
    rw [hsel.notMem_iff ((hmem dot).mpr hdot), Finset.eq_empty_iff_forall_notMem]
    simp only [mem_coverAuthors, hseen, not_exists, not_and]
    exact ⟨fun h s hs hcov => h s.author s hs hcov rfl, fun h _ s hs hcov _ => h s hs hcov⟩
  · rw [List.length_map]
    refine hsel.bound.trans ((Finset.sum_le_card_nsmul _ _ 2 fun dot _ => min_le_left _ _).trans ?_)
    have hset : headers.toFinset = bodiless.toFinset := by
      ext dot
      rw [List.mem_toFinset, List.mem_toFinset, hmem]
    rw [hset, smul_eq_mul, Nat.mul_comm]

/-- Of three snapshots by two authors that cover a header, the newest of each author is taken. -/
theorem selectCovers_spec_newest :
    2 ≤ (coverAuthors ([⟨1, .ofDots [firstDot ⟨1⟩], ⟨1⟩⟩, firstCover 2 ⟨3⟩,
        ⟨3, .ofDots [firstDot ⟨1⟩], ⟨2⟩⟩, ⟨4, .ofDots [firstDot ⟨1⟩], ⟨2⟩⟩].filter
          fun s => s.storeSeq ∈ [4, 1]) (firstDot ⟨1⟩)).card ∧
      [4, 1].length ≤ 2 * [firstDot ⟨1⟩, firstDot ⟨2⟩].toFinset.card := by
  have hselect : selectCovers [⟨1, .ofDots [firstDot ⟨1⟩], ⟨1⟩⟩, firstCover 2 ⟨3⟩,
      ⟨3, .ofDots [firstDot ⟨1⟩], ⟨2⟩⟩, ⟨4, .ofDots [firstDot ⟨1⟩], ⟨2⟩⟩]
      [firstDot ⟨1⟩, firstDot ⟨2⟩] = .ok ⟨[4, 1], [firstDot ⟨2⟩]⟩ := by
    rw [selectCovers, byStoreSeq_eq_ok_iff.mpr ⟨by decide +kernel, (oldestFirst_eq
      (by decide +kernel) (by simp [Older, firstCover]) fun _ => Iff.rfl).symm⟩]
    decide +kernel
  obtain ⟨hauthors, -, -, -, hlength⟩ := (selectCovers_spec _ _).2 _ hselect
  exact ⟨hauthors (firstDot ⟨1⟩) (by simp), hlength⟩

end RizzyVault.Sync
