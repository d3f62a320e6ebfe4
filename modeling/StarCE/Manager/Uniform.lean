import StarCE.Join.RowCount
import StarCE.Manager.Weighted
import StarCE.Seq.Damped

/-!
# One coefficient for a class

With `PredMethod` 1 a class is scaled by a damped product of the shares of its
filtered relations. One more filter lowers the estimate, unless the clamp of
the coefficient to the reciprocal of a collected part of the class raises it
(`estimateCardinality_addFilter`). The roots are those of the real numbers.
-/

namespace StarCE

namespace StatisticManager

open DSStatistic

/-! ## The shares of the filtered relations -/

section Shares

variable {K : Type} [Field K] [LinearOrder K] [FloorRing K] {sm : StatisticManager K}
  {l : List Attribute} {coeffs : List (K × Attribute)} {rel : ℕ}

/-- `sm` with a filter on one more relation. -/
def addFilter (sm : StatisticManager K) (rel : ℕ) (filter : String) : StatisticManager K :=
  { sm with filterString := sm.filterString.insert rel filter }

def Filtered (sm : StatisticManager K) (rel : ℕ) : Prop :=
  ∃ filter, sm.filterString.find? rel = some filter ∧ filter ≠ ""

/-- The share of a relation's rows that pass its filter is known to be `c`. -/
def HasShare (sm : StatisticManager K) (rel : ℕ) (c : K) : Prop :=
  ∃ card table n, sm.getTableCard rel = .ok card ∧ sm.tableName.find? rel = some table ∧
    sm.getNDV table = .ok n ∧ c = (card : K) / (n : K)

theorem HasShare.unique {c d : K} (h : sm.HasShare rel c) (h' : sm.HasShare rel d) : c = d := by
  obtain ⟨card, table, n, hcard, htable, hn, rfl⟩ := h
  obtain ⟨card', table', n', hcard', htable', hn', rfl⟩ := h'
  obtain rfl := Except.ok.inj (hcard.symm.trans hcard')
  obtain rfl := Option.some.inj (htable.symm.trans htable')
  obtain rfl := Except.ok.inj (hn.symm.trans hn')
  rfl

/-- What `tableCoeffs` makes of the attributes of a class: the filtered ones, in order, with the
shares of their relations. -/
inductive Coeffs (sm : StatisticManager K) : List Attribute → List (K × Attribute) → Prop
  | nil : Coeffs sm [] []
  | unfiltered {l : List Attribute} {coeffs : List (K × Attribute)} (h : Coeffs sm l coeffs)
      (a : Attribute) (hf : sm.filterString.find? (ofLex a).1 = some "") : Coeffs sm (l ++ [a]) coeffs
  | filtered {l : List Attribute} {coeffs : List (K × Attribute)} (h : Coeffs sm l coeffs)
      (a : Attribute) (hf : sm.Filtered (ofLex a).1) {c : K} (hc : sm.HasShare (ofLex a).1 c) :
      Coeffs sm (l ++ [a]) (coeffs ++ [(c, a)])

theorem tableCoeffs_snoc (l : List Attribute) (a : Attribute) :
    sm.tableCoeffs (l ++ [a]) = (sm.tableCoeffs l >>= fun coeffs => do
      let filter ← sm.filterString.lookup (ofLex a).1
      if filter = "" then pure coeffs
      else do
        let card ← sm.getTableCard (ofLex a).1
        let table ← sm.tableName.lookup (ofLex a).1
        let ndv ← sm.getNDV table
        pure (coeffs ++ [((card : K) / (ndv : K), a)])) := by
  unfold tableCoeffs
  rw [List.foldlM_append]
  apply bind_congr
  intro coeffs
  rw [List.foldlM_cons]
  exact bind_pure _

theorem tableCoeffs_eq_ok : sm.tableCoeffs l = .ok coeffs ↔ sm.Coeffs l coeffs := by
  constructor
  · intro h
    induction l using List.reverseRecOn generalizing coeffs with
    | nil =>
      obtain rfl := Except.ok.inj h
      exact .nil
    | append_singleton l a ih =>
      rw [tableCoeffs_snoc] at h
      obtain ⟨coeffs', hl, h⟩ := bind_eq_ok.mp h
      obtain ⟨filter, hfilter, h⟩ := bind_eq_ok.mp h
      have hfind := OrdMap.lookup_eq_ok.mp hfilter
      split at h
      · next hempty =>
        obtain rfl := Except.ok.inj h
        exact .unfiltered (ih hl) a (hempty ▸ hfind)
      · next hne =>
        obtain ⟨card, hcard, h⟩ := bind_eq_ok.mp h
        obtain ⟨table, htable, h⟩ := bind_eq_ok.mp h
        obtain ⟨n, hn, h⟩ := bind_eq_ok.mp h
        obtain rfl := Except.ok.inj h
        exact .filtered (ih hl) a ⟨filter, hfind, hne⟩
          ⟨card, table, n, hcard, OrdMap.lookup_eq_ok.mp htable, hn, rfl⟩
  · intro h
    induction h with
    | nil => rfl
    | unfiltered _ a hf ih =>
      rw [tableCoeffs_snoc, ih, OrdMap.lookup, hf]
      rfl
    | filtered _ a hf hc ih =>
      obtain ⟨filter, hfilter, hne⟩ := hf
      obtain ⟨card, table, n, hcard, htable, hn, rfl⟩ := hc
      rw [tableCoeffs_snoc, ih, OrdMap.lookup, hfilter]
      simp only [bind, Except.bind, if_neg hne, hcard, OrdMap.lookup, htable, hn]
      rfl

theorem Coeffs.tags (h : sm.Coeffs l coeffs) : (coeffs.map (·.2)).Sublist l := by
  induction h with
  | nil => exact .slnil
  | unfiltered _ a _ ih => exact ih.trans (List.sublist_append_left _ _)
  | filtered _ a _ _ ih =>
    rw [List.map_append]
    exact ih.append (.refl _)

theorem Coeffs.mem (h : sm.Coeffs l coeffs) :
    ∀ c ∈ coeffs, sm.Filtered (ofLex c.2).1 ∧ sm.HasShare (ofLex c.2).1 c.1 := by
  induction h with
  | nil => simp
  | unfiltered _ a _ ih => exact ih
  | filtered _ a hf hc ih =>
    intro c hm
    rcases List.mem_append.mp hm with hm | hm
    · exact ih c hm
    · rw [List.mem_singleton.mp hm]
      exact ⟨hf, hc⟩

theorem Coeffs.isSome (h : sm.Coeffs l coeffs) :
    ∀ a ∈ l, (sm.filterString.find? (ofLex a).1).isSome := by
  induction h with
  | nil => simp
  | unfiltered _ a hf ih =>
    intro b hb
    rcases List.mem_append.mp hb with hb | hb
    · exact ih b hb
    · rw [List.mem_singleton.mp hb, hf]
      rfl
  | filtered _ a hf _ ih =>
    intro b hb
    rcases List.mem_append.mp hb with hb | hb
    · exact ih b hb
    · obtain ⟨filter, hfilter, -⟩ := hf
      rw [List.mem_singleton.mp hb, hfilter]
      rfl

omit [Field K] [LinearOrder K] [FloorRing K] in
/-- Without recorded single-table results the cardinality is the one of the relation. -/
theorem getTableCard_eq {filter : String} {table : Table} {n : ℕ}
    (hu : sm.useSingleTableCard = false) (hf : sm.filterString.find? rel = some filter)
    (ht : sm.tableName.find? rel = some table) (hn : sm.tabelCard.find? rel = some n) :
    sm.getTableCard rel = .ok (n : ℤ) := by
  have hquery : ∃ text, sm.getSingleQuery rel = .ok text := by
    rw [getSingleQuery, OrdMap.lookup_eq_ok.mpr ht, OrdMap.lookup_eq_ok.mpr hf]
    exact ⟨_, rfl⟩
  obtain ⟨text, hquery⟩ := hquery
  unfold getTableCard
  rw [OrdMap.lookup_eq_ok.mpr hf, OrdMap.lookup_eq_ok.mpr hn, hu, hquery]
  simp only [bind, Except.bind]
  split
  · rfl
  · split <;> rfl

/-! ### One more filter -/

variable {filter : String} {R : ℕ}

section

omit [Field K] [LinearOrder K] [FloorRing K]

theorem find?_addFilter (sm : StatisticManager K) (R : ℕ) (filter : String) (rel : ℕ) :
    (sm.addFilter R filter).filterString.find? rel =
      if rel = R then some filter else sm.filterString.find? rel :=
  OrdMap.find?_insert _ _ _ _

theorem getTableCard_addFilter (sm : StatisticManager K) (filter : String) (h : rel ≠ R) :
    (sm.addFilter R filter).getTableCard rel = sm.getTableCard rel := by
  have hfilter : (sm.addFilter R filter).filterString.lookup rel = sm.filterString.lookup rel := by
    rw [OrdMap.lookup, find?_addFilter, if_neg h]
    rfl
  unfold getTableCard getSingleQuery
  rw [hfilter]
  rfl

end

/-- The coefficients before and after a filter on a relation that had none. -/
theorem Coeffs.addFilter (h : sm.Coeffs l coeffs) (hR : sm.filterString.find? R = some "")
    (hne : filter ≠ "")
    (hshare : ∀ a ∈ l, (sm.addFilter R filter).Filtered (ofLex a).1 →
      ∃ c, (sm.addFilter R filter).HasShare (ofLex a).1 c) :
    ∃ coeffs', (sm.addFilter R filter).Coeffs l coeffs' ∧ coeffs.Sublist coeffs' ∧
      ∀ c ∈ coeffs', (ofLex c.2).1 = R ∨ c ∈ coeffs := by
  induction h with
  | nil => exact ⟨[], .nil, .slnil, by simp⟩
  | @unfiltered l coeffs _ a hf ih =>
    obtain ⟨coeffs', hc, hsub, hold⟩ := ih fun b hb => hshare b (List.mem_append_left _ hb)
    by_cases ha : (ofLex a).1 = R
    · have hfilter : (sm.addFilter R filter).Filtered (ofLex a).1 :=
        ⟨filter, by rw [find?_addFilter, if_pos ha], hne⟩
      obtain ⟨c, hca⟩ := hshare a (List.mem_append_right _ (.head _)) hfilter
      refine ⟨_, hc.filtered a hfilter hca, hsub.trans (List.sublist_append_left _ _), fun d hd => ?_⟩
      rcases List.mem_append.mp hd with hd | hd
      · exact hold d hd
      · rw [List.mem_singleton.mp hd]
        exact .inl ha
    · exact ⟨_, hc.unfiltered a (by rw [find?_addFilter, if_neg ha, hf]), hsub, hold⟩
  | @filtered l coeffs _ a hf c hc ih =>
    obtain ⟨coeffs', hc', hsub, hold⟩ := ih fun b hb => hshare b (List.mem_append_left _ hb)
    obtain ⟨old, hold', hne'⟩ := hf
    have ha : (ofLex a).1 ≠ R := by
      rintro heq
      rw [heq, hR] at hold'
      exact hne' (Option.some.inj hold').symm
    have hfilter : (sm.addFilter R filter).Filtered (ofLex a).1 :=
      ⟨old, by rw [find?_addFilter, if_neg ha, hold'], hne'⟩
    have hshare' : (sm.addFilter R filter).HasShare (ofLex a).1 c := by
      obtain ⟨card, table, n, hcard, htable, hn, hceq⟩ := hc
      exact ⟨card, table, n, by rw [getTableCard_addFilter _ _ ha, hcard], htable, hn, hceq⟩
    refine ⟨_, hc'.filtered a hfilter hshare', hsub.append (.refl _), fun d hd => ?_⟩
    rcases List.mem_append.mp hd with hd | hd
    · exact (hold d hd).imp id fun h => List.mem_append_left _ h
    · exact .inr (List.mem_append_right _ hd)

end Shares

/-! ## The coefficient -/

variable {sm : StatisticManager ℝ} {A : AttrEset} {st : DSStatistic ℝ} {done : List Attribute}
  {s : ℝ} {l coeffs : List (ℝ × Attribute)} {sort : Sorting ℝ}

/-- `std::pow`. -/
noncomputable def realPow (x y : ℝ) : ℝ := x ^ y

/-- What clamps the coefficient of some attributes: the reciprocal of the cardinality collected for
them. -/
noncomputable def clamp (sm : StatisticManager ℝ) (B : List Attribute) : ℝ :=
  match sm.statistics.find? (sm.columnsOf (.ofList B)) with
  | some part => if 0 < part.card then 1 / part.card else 0
  | none => 0

theorem ofList_snoc (B : List Attribute) (a : Attribute) :
    (OrdSet.ofList B).insert a = OrdSet.ofList (B ++ [a]) := by
  rw [OrdSet.ofList, OrdSet.ofList, List.foldl_append]
  rfl

/-- The loop over the sorted coefficients computes the damped product. -/
theorem refineCoeff_run (hA : sm.Named A) (hdone : ∀ a ∈ done, a ∈ A) (hs : 0 ≤ s)
    (h : ∀ c ∈ l, 0 ≤ c.1 ∧ c.2 ∈ A) :
    (l.zipIdx done.length).foldlM (refineCoeff realPow sm) (s, OrdSet.ofList done) =
      .ok (damped sm.clamp done s l, OrdSet.ofList (done ++ l.map (·.2))) := by
  induction l generalizing done s with
  | nil =>
    rw [List.map_nil, List.append_nil]
    rfl
  | cons c l ih =>
    obtain ⟨⟨hc0, hcA⟩, hl⟩ := List.forall_mem_cons.mp h
    have hdone' : ∀ a ∈ done ++ [c.2], a ∈ A := by
      intro a ha
      rcases List.mem_append.mp ha with ha | ha
      · exact hdone a ha
      · rw [List.mem_singleton.mp ha]
        exact hcA
    have hr : 0 ≤ s * realPow c.1 (1 / ((done.length + 1 : ℕ) : ℝ)) :=
      mul_nonneg hs (Real.rpow_nonneg hc0 _)
    obtain ⟨idx, hok, -⟩ := getEqualSetFromAttrEset_ok (hA.subset (B := OrdSet.ofList (done ++ [c.2]))
      (fun a ha => hdone' a (OrdSet.mem_ofList.mp ha)) ⟨c.2, OrdSet.mem_ofList.mpr (by simp)⟩)
    have hstep : refineCoeff realPow sm (s, OrdSet.ofList done) (c, done.length) =
        .ok (max (s * realPow c.1 (1 / ((done.length + 1 : ℕ) : ℝ))) (sm.clamp (done ++ [c.2])),
          OrdSet.ofList (done ++ [c.2])) := by
      rw [refineCoeff]
      simp only [ofList_snoc, hok, bind, Except.bind, pure, Except.pure, Except.ok.injEq, Prod.mk.injEq,
        and_true]
      unfold clamp
      cases sm.statistics.find? (sm.columnsOf (OrdSet.ofList (done ++ [c.2]))) with
      | none => exact (max_eq_left hr).symm
      | some part =>
        show (if 0 < part.card then _ else _) = max _ (if 0 < part.card then _ else _)
        split
        · rfl
        · exact (max_eq_left hr).symm
    rw [List.zipIdx_cons, List.foldlM_cons]
    refine bind_eq_ok.mpr ⟨_, hstep, ?_⟩
    have hs' : 0 ≤ max (s * realPow c.1 (1 / ((done.length + 1 : ℕ) : ℝ)))
        (sm.clamp (done ++ [c.2])) := hr.trans (le_max_left _ _)
    have hrun := @ih (done ++ [c.2]) _ hdone' hs' hl
    rw [List.length_append, List.length_singleton, List.append_assoc] at hrun
    exact hrun

/-- The coefficient of a class. -/
noncomputable def classCoeff (sort : Sorting ℝ) (sm : StatisticManager ℝ)
    (coeffs : List (ℝ × Attribute)) : ℝ :=
  damped sm.clamp [] 1 (sort.order coeffs)

theorem classCoeff_nonneg (h : ∀ c ∈ coeffs, 0 ≤ c.1) : 0 ≤ classCoeff sort sm coeffs :=
  damped_nonneg zero_le_one fun c hc => h c ((sort.perm coeffs).subset hc)

theorem filterUniform_eq (hA : sm.Named A) (hc : sm.Coeffs A.toList coeffs)
    (h0 : ∀ c ∈ coeffs, 0 ≤ c.1) : filterUniform realPow sort sm A st =
      .ok (st.applyFilterCoefficient (classCoeff sort sm coeffs)) := by
  have hmem : ∀ c ∈ sort.order coeffs, 0 ≤ c.1 ∧ c.2 ∈ A := fun c hm => by
    have hm' := (sort.perm coeffs).subset hm
    exact ⟨h0 c hm', hc.tags.subset (List.mem_map_of_mem hm')⟩
  have hrun := @refineCoeff_run sm A [] 1 (sort.order coeffs) hA (by simp) zero_le_one hmem
  exact bind_eq_ok.mpr ⟨_, tableCoeffs_eq_ok.mpr hc, bind_eq_ok.mpr ⟨_, hrun, rfl⟩⟩

/-- No two filtered attributes of a class have the same share. -/
def DistinctShares (sm : StatisticManager ℝ) (A : AttrEset) : Prop :=
  ∀ a ∈ A, ∀ b ∈ A, sm.Filtered (ofLex a).1 → sm.Filtered (ofLex b).1 →
    ∀ c, sm.HasShare (ofLex a).1 c → sm.HasShare (ofLex b).1 c → a = b

theorem DistinctShares.nodup (hd : sm.DistinctShares A) (h : sm.Coeffs A.toList coeffs) :
    (coeffs.map (·.1)).Nodup := by
  refine List.pairwise_map.mpr ((List.pairwise_map.mp (h.tags.nodup A.nodup)).imp_of_mem ?_)
  intro c d hc hd' hne heq
  obtain ⟨hfc, hsc⟩ := h.mem c hc
  obtain ⟨hfd, hsd⟩ := h.mem d hd'
  exact hne (hd _ (h.tags.subset (List.mem_map_of_mem hc)) _
    (h.tags.subset (List.mem_map_of_mem hd')) hfc hfd _ hsc (heq ▸ hsd))

/-- One more filter: the coefficient falls, or it is at most the clamp of a part of the class, with
one of the new attributes in it if no two shares are equal. -/
theorem classCoeff_addFilter (sort : Sorting ℝ) {R : ℕ} {filter : String}
    {coeffs' : List (ℝ × Attribute)}
    (hc' : (sm.addFilter R filter).Coeffs A.toList coeffs')
    (hsub : coeffs.Sublist coeffs') (hold : ∀ c ∈ coeffs', (ofLex c.2).1 = R ∨ c ∈ coeffs)
    (h : ∀ c ∈ coeffs', 0 < c.1 ∧ c.1 ≤ 1) :
    classCoeff sort (sm.addFilter R filter) coeffs' ≤ classCoeff sort sm coeffs ∨
      ∃ B : List Attribute, B ≠ [] ∧ (∀ b ∈ B, b ∈ coeffs'.map (·.2)) ∧
        classCoeff sort (sm.addFilter R filter) coeffs' ≤ sm.clamp B ∧
        ((sm.addFilter R filter).DistinctShares A → ∃ b ∈ B, (ofLex b).1 = R) := by
  have hperm := sort.perm coeffs'
  have hsubperm : (sort.order coeffs).Subperm (sort.order coeffs') :=
    ((sort.perm coeffs).subperm.trans hsub.subperm).trans hperm.symm.subperm
  have hn : ((sort.order coeffs').map (·.2)).Nodup :=
    (hperm.map _).nodup_iff.mpr (hc'.tags.nodup A.nodup)
  rcases damped_subperm sm.clamp hsubperm (sort.ascending coeffs) (sort.ascending coeffs')
    (fun c hm => h c (hperm.subset hm)) hn with hle | ⟨B, hB, hmem, hle, hnew⟩
  · exact .inl hle
  · refine .inr ⟨B, hB, fun b hb => (hperm.map _).subset (hmem b hb), hle, fun hd => ?_⟩
    obtain ⟨a, haB, hnot⟩ := hnew ((hperm.map _).nodup_iff.mpr (hd.nodup hc'))
    obtain ⟨c, hcm, rfl⟩ := List.mem_map.mp (hmem a haB)
    refine ⟨_, haB, (hold c (hperm.subset hcm)).resolve_right fun hin => hnot ?_⟩
    exact List.mem_map_of_mem ((sort.perm coeffs).symm.subset hin)

/-! ## The estimate -/

theorem filterClass_uniform (hpred : sm.predMethod = 1) :
    filterClass realPow sort sm A st = filterUniform realPow sort sm A st := by
  unfold filterClass
  rw [hpred]
  rfl

/-- A lower coefficient gives a lower estimate, whatever the cardinality. -/
theorem max_one_mul_le {x c c' : ℝ} (h0' : 0 ≤ c') (h : c' ≤ c) :
    max 1 (x * c') ≤ max 1 (x * c) := by
  rcases le_total 0 x with hx | hx
  · exact max_le_max_left 1 (mul_le_mul_of_nonneg_left h hx)
  · rw [max_eq_left ((mul_nonpos_of_nonpos_of_nonneg hx h0').trans zero_le_one)]
    exact le_max_left _ _

/-- A filter on one more relation of a class: the estimate falls, or it is at most the cardinality
of the class over that of a collected part of the filtered relations. The new one is in that part
if no two shares are equal, for the sort then has no choice. -/
theorem estimateCardinality_addFilter {rels : List ℕ} {R : ℕ} {filter : String} {est : ℝ}
    (hsub : sm.useSubqueryCard = false) (hpred : sm.predMethod = 1)
    (hone : sm.getAttrEsetFromRels rels = [A]) (hR : sm.filterString.find? R = some "")
    (hne : filter ≠ "")
    (hbound : ∀ rel ∈ rels, (sm.addFilter R filter).Filtered rel → ∃ card table n,
      (sm.addFilter R filter).getTableCard rel = .ok card ∧ sm.tableName.find? rel = some table ∧
        sm.getNDV table = .ok n ∧ 1 ≤ card ∧ card ≤ n)
    (hest : estimateCardinality realPow sort sm rels = .ok est) :
    ∃ st est', sm.classStatistics A = .ok st ∧
      estimateCardinality realPow sort (sm.addFilter R filter) rels = .ok est' ∧
      (est' ≤ est ∨ ∃ (B : AttrEset) (part : DSStatistic ℝ),
        (∀ b ∈ B, b ∈ A ∧ (sm.addFilter R filter).Filtered (ofLex b).1) ∧
        (∃ b, b ∈ B) ∧ ((sm.addFilter R filter).DistinctShares A → ∃ b ∈ B, (ofLex b).1 = R) ∧
        sm.statistics.find? (sm.columnsOf B) = some part ∧
        0 < part.card ∧ est' ≤ st.card / part.card) := by
  obtain ⟨st, new, hclass, hfilter, rfl⟩ := exists_of_estimateCardinality hsub hone hest
  obtain ⟨hnamed, -⟩ := classStatistics_eq_ok.mp hclass
  rw [filterClass_uniform hpred] at hfilter
  obtain ⟨coeffs, hcoeffs, -⟩ := bind_eq_ok.mp hfilter
  have hc := tableCoeffs_eq_ok.mp hcoeffs
  have hrel : ∀ a ∈ A, (ofLex a).1 ∈ rels := fun a ha =>
    rel_mem_of_getAttrEsetFromRels (by rw [hone]; exact .head _) ha
  have hshare : ∀ a ∈ A.toList, (sm.addFilter R filter).Filtered (ofLex a).1 →
      ∃ c, (sm.addFilter R filter).HasShare (ofLex a).1 c := by
    intro a ha hf
    obtain ⟨card, table, n, hcard, htable, hn, -, -⟩ := hbound _ (hrel a ha) hf
    exact ⟨_, card, table, n, hcard, htable, hn, rfl⟩
  obtain ⟨coeffs', hc', hsublist, hold⟩ := hc.addFilter hR hne hshare
  have hunit : ∀ c ∈ coeffs', 0 < c.1 ∧ c.1 ≤ 1 := by
    intro c hm
    obtain ⟨hf, hs⟩ := hc'.mem c hm
    have hcA : c.2 ∈ A := hc'.tags.subset (List.mem_map_of_mem hm)
    obtain ⟨card, table, n, hcard, htable, hn, h1, hle⟩ := hbound _ (hrel _ hcA) hf
    rw [hs.unique ⟨card, table, n, hcard, htable, hn, rfl⟩]
    have hcard0 : (0 : ℝ) < card := by exact_mod_cast h1
    have hle' : (card : ℝ) ≤ n := by exact_mod_cast hle
    exact ⟨div_pos hcard0 (hcard0.trans_le hle'), div_le_one_of_le₀ hle' (hcard0.le.trans hle')⟩
  have h0' : ∀ c ∈ coeffs', 0 ≤ c.1 := fun c hm => (hunit c hm).1.le
  have h0 : ∀ c ∈ coeffs, 0 ≤ c.1 := fun c hm => h0' c (hsublist.subset hm)
  rw [filterUniform_eq hnamed hc h0] at hfilter
  obtain rfl := Except.ok.inj hfilter
  have hnamed' : (sm.addFilter R filter).Named A := hnamed
  have hpred' : (sm.addFilter R filter).predMethod = 1 := hpred
  have hsub' : (sm.addFilter R filter).useSubqueryCard = false := hsub
  have hnew : filterClass realPow sort (sm.addFilter R filter) A st = .ok _ :=
    (filterClass_uniform hpred').trans (filterUniform_eq hnamed' hc' h0')
  have hsome : ∀ rel ∈ rels, ((sm.addFilter R filter).filterString.find? rel).isSome := by
    intro rel hmem
    obtain ⟨E, hE, a, ha, rfl⟩ := exists_mem_getAttrEsetFromRels sm hmem
    rw [hone] at hE
    rw [List.mem_singleton.mp hE] at ha
    exact hc'.isSome a ha
  have hok : estimateCardinality realPow sort (sm.addFilter R filter) rels = .ok _ :=
    estimateCardinality_single hsub' hone hnamed' hsome hclass hnew
  refine ⟨st, _, hclass, hok, ?_⟩
  rw [applyFilterCoefficient_card, applyFilterCoefficient_card]
  have hk : 0 ≤ classCoeff sort sm coeffs := classCoeff_nonneg h0
  have hk' : 0 ≤ classCoeff sort (sm.addFilter R filter) coeffs' := classCoeff_nonneg h0'
  rcases classCoeff_addFilter sort hc' hsublist hold hunit with
    hle | ⟨B, hne, hB, hle, hnew⟩
  · exact .inl (max_one_mul_le hk' hle)
  · unfold clamp at hle
    cases hpart : sm.statistics.find? (sm.columnsOf (.ofList B)) with
    | none =>
      rw [hpart] at hle
      exact .inl (max_one_mul_le hk' (hle.trans hk))
    | some part =>
      rw [hpart] at hle
      by_cases hpos : 0 < part.card
      · have hle' : max 1 (st.card * classCoeff sort (sm.addFilter R filter) coeffs') ≤
            max 1 (st.card * (1 / part.card)) := by
          simp only [if_pos hpos] at hle
          exact max_one_mul_le hk' hle
        rw [mul_one_div] at hle'
        rcases le_total 1 (st.card / part.card) with hbig | hsmall
        · rw [max_eq_right hbig] at hle'
          obtain ⟨b, hb⟩ := List.exists_mem_of_ne_nil B hne
          refine .inr ⟨.ofList B, part, fun c hc => ?_, ⟨b, OrdSet.mem_ofList.mpr hb⟩, fun hd => ?_,
            hpart, hpos, hle'⟩
          swap
          · obtain ⟨b, hb, hbR⟩ := hnew hd
            exact ⟨b, OrdSet.mem_ofList.mpr hb, hbR⟩
          have htag := hB c (OrdSet.mem_ofList.mp hc)
          obtain ⟨x, hx, rfl⟩ := List.mem_map.mp htag
          exact ⟨hc'.tags.subset htag, (hc'.mem x hx).1⟩
        · rw [max_eq_left hsmall] at hle'
          exact .inl (hle'.trans (le_max_left _ _))
      · simp only [if_neg hpos] at hle
        exact .inl (max_one_mul_le hk' (hle.trans hk))

/-! ## A part that is smaller than the filters say -/

section Example

/-- The keys of the rows of three tables. -/
def threeKeys : Database ℕ := fun table =>
  (if table = "r" then [1, 2] else if table = "s" then [1, 3] else [1, 1, 1, 1]).map
    fun key _ => some key

def threeStar : EqualSet := ⟨.ofList [⟨"r", "x"⟩, ⟨"s", "x"⟩, ⟨"t", "x"⟩]⟩

/-- A manager before collection, with `PredMethod` 1. -/
noncomputable def uniformInitial : StatisticManager ℝ :=
  { (initial : StatisticManager ℝ) with predMethod := 1 }

/-- The tables with the rows that pass a filter. -/
def threeRelations : List Relation := [("r", ["x"], 1), ("s", ["x"], 1), ("t", ["x"], 4)]

/-- A filter on `r` alone. -/
def oneFilter : OrdMap ℕ String := .ofKeys [0, 1, 2] fun rel => if rel = 0 then "r.y < 2" else ""

/-- All three relations are joined on their only column. -/
def threeJoins : List JoinPredicate := [⟨0, 1, 0, 0⟩, ⟨1, 2, 0, 0⟩]

def attrOf (rel : ℕ) : Attribute := toLex (rel, 0)

def threeAttrs : AttrEset := .ofList [attrOf 0, attrOf 1, attrOf 2]

/-- A query over the star, entered with a filter on `r`. -/
structure ThreeEntered (sm1 sm : StatisticManager ℝ) : Prop where
  collected : collectStatistics realPow threeKeys uniformInitial [threeStar] = .ok sm1
  session : Session sm1 sm
  entered : Entered threeRelations sm
  filters : sm.filterString = oneFilter
  classes : sm.attrEsets = [threeAttrs]
  options : sm.toOptions = uniformInitial.toOptions
  cards : ∀ i, sm.tabelCard.find? i = threeRelations[i]?.map (·.2.2)

theorem card_of_collected {sm1 sm : StatisticManager ℝ}
    (hcol : collectStatistics realPow threeKeys uniformInitial [threeStar] = .ok sm1)
    (hst : sm.statistics = sm1.statistics) {key : EqualSet} {n : ℤ}
    (hkey : key ∈ threeStar.getAllSubset)
    (hn : starCard key.getTableList (countsOf threeKeys threeStar.entries.toList).toList = n) :
    ∃ st, sm.statistics.find? key = some st ∧ st.card = n := by
  have h0 : uniformInitial.statistics = ∅ := rfl
  obtain ⟨sm', hok, -, hfind⟩ :=
    collectStatistics_ok realPow threeKeys h0 (nonempty_of_collectStatistics hcol)
  obtain rfl := Except.ok.inj (hok.symm.trans hcol)
  have hmem : key ∈ uniformInitial.toOptions.subsetsOf threeStar := hkey
  refine ⟨_, ?_, (starStat_card_eq 2 key).trans (by rw [hn])⟩
  rw [hst, hfind, collected, List.find?_cons, decide_eq_true hmem]
  rfl

theorem exists_threeEntered : ∃ sm1 sm, ThreeEntered sm1 sm := by
  have h0 : uniformInitial.statistics = ∅ := rfl
  have hne : ∀ e ∈ [threeStar], e.entries.toList ≠ [] := by decide
  obtain ⟨sm1, hcol, hframe, -⟩ := collectStatistics_ok realPow threeKeys h0 hne
  have hndv : ∀ r ∈ threeRelations, ∃ n, sm1.getNDV r.1 = .ok n := by
    intro r hr
    have hkeys : ∀ r ∈ threeRelations, EqualSet.ofTable r.1 ∈ threeStar.getAllSubset := by decide
    obtain ⟨st, hst, -⟩ := card_of_collected hcol rfl (hkeys r hr) rfl
    exact ⟨_, by rw [getNDV, hst]⟩
  have hprep : sm1.prepared = false := congrArg QueryState.prepared hframe.query
  obtain ⟨sm, hok, hopt, hcards⟩ := enterQuery_ok hprep hndv oneFilter threeJoins
  obtain ⟨hentered, hfilters, hclasses⟩ := entered_enterQuery hok
  refine ⟨sm1, sm, hcol, session_enterQuery hok, hentered, hfilters, ?_, hopt.trans hframe.options,
    hcards⟩
  rw [hclasses]
  decide

namespace ThreeEntered

variable {sm1 sm : StatisticManager ℝ} (h : ThreeEntered sm1 sm)

include h

theorem card_part {key : EqualSet} {n : ℤ} (hkey : key ∈ threeStar.getAllSubset)
    (hn : starCard key.getTableList (countsOf threeKeys threeStar.entries.toList).toList = n) :
    ∃ st, sm.statistics.find? key = some st ∧ st.card = n :=
  card_of_collected h.collected h.session.statistics_eq hkey hn

theorem one_class : sm.getAttrEsetFromRels [0, 1, 2] = [threeAttrs] := by
  unfold getAttrEsetFromRels
  rw [h.classes]
  decide

theorem named : sm.Named threeAttrs := by
  intro a ha
  have hrel : ∀ a ∈ threeAttrs.toList, (threeRelations[(ofLex a).1]?).isSome ∧
      ((threeRelations[(ofLex a).1]?).bind fun r => r.2.1[(ofLex a).2]?.map bareColumn).isSome := by
    decide
  obtain ⟨ht, hc⟩ := hrel a ha
  refine ⟨by rw [h.entered.tables, Option.isSome_map]; exact ht, fun _ => ?_⟩
  have hcol := h.entered.columns (ofLex a).1 (ofLex a).2
  exact (congrArg Option.isSome hcol).trans hc

theorem tableOf_attrOf (rel : ℕ) :
    sm.tableOf (attrOf rel) = ((threeRelations[rel]?).map (·.1)).getD "" := by
  rw [tableOf]
  show (sm.tableName.find? rel).getD "" = _
  rw [h.entered.tables]

theorem columnOf_attrOf (rel : ℕ) : sm.columnOf (attrOf rel) =
    ⟨((threeRelations[rel]?).map (·.1)).getD "",
      ((threeRelations[rel]?).bind fun r => r.2.1[0]?.map bareColumn).getD ""⟩ := by
  rw [columnOf, h.tableOf_attrOf]
  show TableColumn.mk _ ((sm.columnName.find? (toLex (rel, 0))).getD "") = _
  rw [h.entered.columns]

theorem columnsOf_one : sm.columnsOf (.ofList [attrOf 0]) = .ofTable "r" := by
  rw [columnsOf_of_eq (show (OrdSet.ofList [attrOf 0]).toList = [attrOf 0] from rfl), h.tableOf_attrOf]
  rfl

theorem columnsOf_two :
    sm.columnsOf (.ofList [attrOf 0, attrOf 1]) = ⟨.ofList [⟨"r", "x"⟩, ⟨"s", "x"⟩]⟩ := by
  have hlist : (OrdSet.ofList [attrOf 0, attrOf 1]).toList = [attrOf 0, attrOf 1] := by decide
  rw [columnsOf_of_ne (by rw [OrdSet.size, hlist]; decide), hlist, List.map_cons, List.map_cons,
    List.map_nil, h.columnOf_attrOf, h.columnOf_attrOf]
  decide

theorem columnsOf_three : sm.columnsOf threeAttrs = threeStar := by
  have hlist : threeAttrs.toList = [attrOf 0, attrOf 1, attrOf 2] := by decide
  rw [columnsOf_of_ne (by rw [OrdSet.size, hlist]; decide), hlist, List.map_cons, List.map_cons,
    List.map_cons, List.map_nil, h.columnOf_attrOf, h.columnOf_attrOf, h.columnOf_attrOf]
  decide

/-- A part of the class clamps the coefficient to its reciprocal. -/
theorem clamp_eq {B : List Attribute} {key : EqualSet} {n : ℤ} (hB : sm.columnsOf (.ofList B) = key)
    (hkey : key ∈ threeStar.getAllSubset) (hpos : 0 < n)
    (hn : starCard key.getTableList (countsOf threeKeys threeStar.entries.toList).toList = n) :
    sm.clamp B = 1 / (n : ℝ) := by
  obtain ⟨st, hst, hcard⟩ := h.card_part hkey hn
  have hpos' : 0 < st.card := by rw [hcard]; exact_mod_cast hpos
  rw [clamp, hB, hst]
  show (if 0 < st.card then 1 / st.card else 0) = _
  rw [if_pos hpos', hcard]

theorem exists_class : ∃ st, sm.classStatistics threeAttrs = .ok st ∧ st.card = 4 := by
  have hkey : threeStar ∈ threeStar.getAllSubset := by decide
  obtain ⟨star, hstar, hcard⟩ := h.card_part hkey rfl
  have hd : sm.DistinctTables threeAttrs := by
    have hlist : threeAttrs.toList = [attrOf 0, attrOf 1, attrOf 2] := by decide
    rw [DistinctTables, hlist]
    simp only [List.map_cons, List.map_nil, h.tableOf_attrOf]
    decide
  have hsplit : sm.enableStarSplit = uniformInitial.enableStarSplit ∧
      sm.maxStarSize = uniformInitial.maxStarSize := by
    rw [h.options]
    exact ⟨rfl, rfl⟩
  obtain ⟨-, -, st, hst, -, hc, -⟩ := classStatistics_whole rfl h.collected h.session hsplit
    (fun hs => absurd (hs.symm.trans hsplit.1) (by decide)) ⟨attrOf 0, by decide⟩ h.named hd
    (by rw [h.columnsOf_three]; exact hstar)
  refine ⟨st, hst, hc.trans (hcard.trans ?_)⟩
  have : starCard threeStar.getTableList (countsOf threeKeys threeStar.entries.toList).toList = 4 := by
    decide
  rw [this]
  norm_num

theorem predMethod_eq : sm.predMethod = 1 := congrArg Options.predMethod h.options

theorem subqueryCard_eq : sm.useSubqueryCard = false := congrArg Options.useSubqueryCard h.options

theorem find?_filter (rel : ℕ) : (sm.addFilter 1 "s.y < 2").filterString.find? rel =
    if rel = 1 then some "s.y < 2" else oneFilter.find? rel := by
  rw [find?_addFilter, h.filters]

/-- A relation that is entered with one row, of two keys, has the share `1 / 2`. -/
theorem hasShare_half (m : StatisticManager ℝ) {rel : ℕ} {table : Table} {filter : String}
    (hopt : m.useSingleTableCard = sm.useSingleTableCard) (hst : m.statistics = sm.statistics)
    (hname : m.tableName = sm.tableName) (hcards : m.tabelCard = sm.tabelCard)
    (hrel : threeRelations[rel]? = some (table, ["x"], 1))
    (hf : m.filterString.find? rel = some filter) (hkey : .ofTable table ∈ threeStar.getAllSubset)
    (hn : starCard (EqualSet.ofTable table).getTableList
      (countsOf threeKeys threeStar.entries.toList).toList = 2) :
    m.getTableCard rel = .ok 1 ∧ m.tableName.find? rel = some table ∧ m.getNDV table = .ok 2 := by
  have ht : m.tableName.find? rel = some table := by
    rw [hname, h.entered.tables, hrel]
    rfl
  refine ⟨getTableCard_eq ?_ hf ht ?_, ht, ?_⟩
  · exact hopt.trans (congrArg Options.useSingleTableCard h.options)
  · rw [hcards, h.cards, hrel]
    rfl
  · obtain ⟨st, hfind, hcard⟩ := h.card_part hkey hn
    rw [getNDV, hst, hfind]
    show Except.ok (truncate st.card) = _
    rw [hcard, truncate, if_pos (by norm_num), Int.floor_intCast]

/-- What the two filters leave of the class: both shares are `1 / 2`. -/
theorem coeffs_eq : sm.Coeffs threeAttrs.toList [(1 / 2, attrOf 0)] ∧
    (sm.addFilter 1 "s.y < 2").Coeffs threeAttrs.toList [(1 / 2, attrOf 0), (1 / 2, attrOf 1)] := by
  have hlist : threeAttrs.toList = [] ++ [attrOf 0] ++ [attrOf 1] ++ [attrOf 2] := by decide
  have hr : sm.filterString.find? 0 = some "r.y < 2" := by
    rw [h.filters]
    decide
  have hs : sm.filterString.find? 1 = some "" := by
    rw [h.filters]
    decide
  have ht : sm.filterString.find? 2 = some "" := by
    rw [h.filters]
    decide
  have hr' : (sm.addFilter 1 "s.y < 2").filterString.find? 0 = some "r.y < 2" := by
    rw [h.find?_filter, if_neg (by decide), ← h.filters, hr]
  have hs' : (sm.addFilter 1 "s.y < 2").filterString.find? 1 = some "s.y < 2" := by
    rw [h.find?_filter, if_pos rfl]
  have ht' : (sm.addFilter 1 "s.y < 2").filterString.find? 2 = some "" := by
    rw [h.find?_filter, if_neg (by decide), ← h.filters, ht]
  obtain ⟨hc0, hn0, hv0⟩ := h.hasShare_half sm rfl rfl rfl rfl rfl hr (by decide)
    (by decide)
  obtain ⟨hc0', -⟩ := h.hasShare_half (sm.addFilter 1 "s.y < 2") rfl rfl rfl rfl rfl hr'
    (by decide) (by decide +kernel)
  obtain ⟨hc1, hn1, hv1⟩ := h.hasShare_half (sm.addFilter 1 "s.y < 2") rfl rfl rfl rfl rfl hs'
    (by decide) (by decide +kernel)
  have hhalf : (1 / 2 : ℝ) = ((1 : ℤ) : ℝ) / ((2 : ℤ) : ℝ) := by norm_num
  have hshare : sm.HasShare 0 (1 / 2) := ⟨1, "r", 2, hc0, hn0, hv0, hhalf⟩
  have hshare0 : (sm.addFilter 1 "s.y < 2").HasShare 0 (1 / 2) := ⟨1, "r", 2, hc0', hn0, hv0, hhalf⟩
  have hshare1 : (sm.addFilter 1 "s.y < 2").HasShare 1 (1 / 2) := ⟨1, "s", 2, hc1, hn1, hv1, hhalf⟩
  rw [hlist]
  refine ⟨?_, ?_⟩
  · exact ((Coeffs.nil.filtered (attrOf 0) ⟨_, hr, by decide⟩ hshare).unfiltered (attrOf 1) hs).unfiltered
      (attrOf 2) ht
  · exact ((Coeffs.nil.filtered (attrOf 0) ⟨_, hr', by decide⟩ hshare0).filtered (attrOf 1)
      ⟨_, hs', by decide⟩ hshare1).unfiltered (attrOf 2) ht'

theorem clamp_one : sm.clamp [attrOf 0] = 1 / 2 := by
  have hcard : starCard (EqualSet.ofTable "r").getTableList
      (countsOf threeKeys threeStar.entries.toList).toList = 2 := by decide
  simpa using h.clamp_eq h.columnsOf_one (by decide) (by decide) hcard

theorem clamp_two : sm.clamp [attrOf 0, attrOf 1] = 1 := by
  have hcard : starCard (EqualSet.mk (.ofList [⟨"r", "x"⟩, ⟨"s", "x"⟩])).getTableList
      (countsOf threeKeys threeStar.entries.toList).toList = 1 := by decide
  simpa using h.clamp_eq h.columnsOf_two (by decide) (by decide) hcard

theorem classCoeff_one : classCoeff .stable sm [(1 / 2, attrOf 0)] = 1 / 2 := by
  have hsort : Sorting.stable.order [((1 : ℝ) / 2, attrOf 0)] = [(1 / 2, attrOf 0)] :=
    List.mergeSort_singleton _
  rw [classCoeff, hsort]
  show max (1 * (1 / 2 : ℝ) ^ (1 / ((0 + 1 : ℕ) : ℝ))) (sm.clamp [attrOf 0]) = 1 / 2
  rw [h.clamp_one]
  norm_num

theorem classCoeff_two :
    classCoeff .stable (sm.addFilter 1 "s.y < 2") [(1 / 2, attrOf 0), (1 / 2, attrOf 1)] = 1 := by
  have hsort : Sorting.stable.order [((1 : ℝ) / 2, attrOf 0), (1 / 2, attrOf 1)] =
      [(1 / 2, attrOf 0), (1 / 2, attrOf 1)] := List.mergeSort_of_pairwise (by simp)
  rw [classCoeff, hsort]
  show max (max (1 * (1 / 2 : ℝ) ^ (1 / ((0 + 1 : ℕ) : ℝ))) (sm.clamp [attrOf 0]) *
    (1 / 2 : ℝ) ^ (1 / ((1 + 1 : ℕ) : ℝ))) (sm.clamp [attrOf 0, attrOf 1]) = 1
  rw [h.clamp_one, h.clamp_two]
  apply max_eq_right
  have hroot : (1 / 2 : ℝ) ^ (1 / ((1 + 1 : ℕ) : ℝ)) ≤ 1 :=
    Real.rpow_le_one (by norm_num) (by norm_num) (by positivity)
  have hroot0 : 0 ≤ (1 / 2 : ℝ) ^ (1 / ((1 + 1 : ℕ) : ℝ)) := by positivity
  norm_num at hroot hroot0 ⊢
  linarith

theorem bounds : ∀ rel ∈ [0, 1, 2], (sm.addFilter 1 "s.y < 2").Filtered rel → ∃ card table n,
    (sm.addFilter 1 "s.y < 2").getTableCard rel = .ok card ∧ sm.tableName.find? rel = some table ∧
      sm.getNDV table = .ok n ∧ 1 ≤ card ∧ card ≤ n := by
  have hr' : (sm.addFilter 1 "s.y < 2").filterString.find? 0 = some "r.y < 2" := by
    rw [h.find?_filter, if_neg (by decide)]
    decide
  have hs' : (sm.addFilter 1 "s.y < 2").filterString.find? 1 = some "s.y < 2" := by
    rw [h.find?_filter, if_pos rfl]
  intro rel hrel hf
  simp only [List.mem_cons, List.not_mem_nil, or_false] at hrel
  rcases hrel with rfl | rfl | rfl
  · obtain ⟨hc, hn, hv⟩ := h.hasShare_half (sm.addFilter 1 "s.y < 2") rfl rfl rfl rfl rfl hr'
      (by decide) (by decide +kernel)
    exact ⟨1, "r", 2, hc, hn, hv, by decide, by decide⟩
  · obtain ⟨hc, hn, hv⟩ := h.hasShare_half (sm.addFilter 1 "s.y < 2") rfl rfl rfl rfl rfl hs'
      (by decide) (by decide +kernel)
    exact ⟨1, "s", 2, hc, hn, hv, by decide, by decide⟩
  · obtain ⟨filter, hfind, hne⟩ := hf
    rw [h.find?_filter, if_neg (by decide)] at hfind
    have hnone : oneFilter.find? 2 = some "" := by decide
    exact absurd (Option.some.inj (hfind.symm.trans hnone)) hne

theorem filter_one : sm.filterString.find? 1 = some "" := by
  rw [h.filters]
  decide

/-- With the filter on `r` the estimate is 2. -/
theorem estimate_one : estimateCardinality realPow .stable sm [0, 1, 2] = .ok 2 := by
  obtain ⟨st, hst, hcard⟩ := h.exists_class
  obtain ⟨hc, -⟩ := h.coeffs_eq
  have hf : filterClass realPow .stable sm threeAttrs st = .ok (st.applyFilterCoefficient (1 / 2)) := by
    rw [filterClass_uniform h.predMethod_eq, filterUniform_eq h.named hc (by simp), h.classCoeff_one]
  have hsome : ∀ rel ∈ [0, 1, 2], (sm.filterString.find? rel).isSome := by
    rw [h.filters]
    decide
  rw [estimateCardinality_single h.subqueryCard_eq h.one_class h.named hsome hst hf,
    applyFilterCoefficient_card, hcard]
  norm_num

/-- The filter on `s` raises it to 4. -/
theorem estimate_two :
    estimateCardinality realPow .stable (sm.addFilter 1 "s.y < 2") [0, 1, 2] = .ok 4 := by
  obtain ⟨st, hst, hcard⟩ := h.exists_class
  obtain ⟨-, hc⟩ := h.coeffs_eq
  have hnamed : (sm.addFilter 1 "s.y < 2").Named threeAttrs := h.named
  have hpred : (sm.addFilter 1 "s.y < 2").predMethod = 1 := h.predMethod_eq
  have hsub : (sm.addFilter 1 "s.y < 2").useSubqueryCard = false := h.subqueryCard_eq
  have hone : (sm.addFilter 1 "s.y < 2").getAttrEsetFromRels [0, 1, 2] = [threeAttrs] := h.one_class
  have hst' : (sm.addFilter 1 "s.y < 2").classStatistics threeAttrs = .ok st := hst
  have hf : filterClass realPow .stable (sm.addFilter 1 "s.y < 2") threeAttrs st =
      .ok (st.applyFilterCoefficient 1) := by
    rw [filterClass_uniform hpred, filterUniform_eq hnamed hc (by simp), h.classCoeff_two]
  have hsome : ∀ rel ∈ [0, 1, 2], ((sm.addFilter 1 "s.y < 2").filterString.find? rel).isSome := by
    intro rel hrel
    rw [h.find?_filter]
    revert rel
    decide
  rw [estimateCardinality_single hsub hone hnamed hsome hst' hf, applyFilterCoefficient_card, hcard]
  norm_num

end ThreeEntered

/-- The new part `{r.x, s.x}` has a single row, so the second filter undoes the first: the estimate
rises from 2 to 4. -/
theorem estimateCardinality_addFilter_raised :
    ∃ sm1 sm : StatisticManager ℝ, ∃ est est',
      collectStatistics realPow threeKeys uniformInitial [threeStar] = .ok sm1 ∧ Session sm1 sm ∧
      sm.predMethod = 1 ∧ sm.useSubqueryCard = false ∧
      sm.getAttrEsetFromRels [0, 1, 2] = [threeAttrs] ∧ sm.columnsOf threeAttrs = threeStar ∧
      sm.filterString.find? 1 = some "" ∧
      (∀ rel ∈ [0, 1, 2], (sm.addFilter 1 "s.y < 2").Filtered rel → ∃ card table n,
        (sm.addFilter 1 "s.y < 2").getTableCard rel = .ok card ∧
          sm.tableName.find? rel = some table ∧ sm.getNDV table = .ok n ∧ 1 ≤ card ∧ card ≤ n) ∧
      estimateCardinality realPow .stable sm [0, 1, 2] = .ok est ∧
      estimateCardinality realPow .stable (sm.addFilter 1 "s.y < 2") [0, 1, 2] = .ok est' ∧ est < est' := by
  obtain ⟨sm1, sm, h⟩ := exists_threeEntered
  exact ⟨sm1, sm, 2, 4, h.collected, h.session, h.predMethod_eq, h.subqueryCard_eq, h.one_class,
    h.columnsOf_three, h.filter_one, h.bounds, h.estimate_one, h.estimate_two, by norm_num⟩

theorem estimateCardinality_addFilter_three :
    ∃ sm : StatisticManager ℝ, estimateCardinality realPow .stable sm [0, 1, 2] = .ok 2 ∧
      ∃ st est', sm.classStatistics threeAttrs = .ok st ∧
        estimateCardinality realPow .stable (sm.addFilter 1 "s.y < 2") [0, 1, 2] = .ok est' ∧
        (est' ≤ 2 ∨ ∃ (B : AttrEset) (part : DSStatistic ℝ),
          (∀ b ∈ B, b ∈ threeAttrs ∧ (sm.addFilter 1 "s.y < 2").Filtered (ofLex b).1) ∧
          (∃ b, b ∈ B) ∧ ((sm.addFilter 1 "s.y < 2").DistinctShares threeAttrs →
            ∃ b ∈ B, (ofLex b).1 = 1) ∧ sm.statistics.find? (sm.columnsOf B) = some part ∧
          0 < part.card ∧ est' ≤ st.card / part.card) := by
  obtain ⟨sm1, sm, h⟩ := exists_threeEntered
  exact ⟨sm, h.estimate_one, estimateCardinality_addFilter h.subqueryCard_eq h.predMethod_eq h.one_class
    h.filter_one (by decide) h.bounds h.estimate_one⟩

end Example

end StatisticManager

end StarCE
