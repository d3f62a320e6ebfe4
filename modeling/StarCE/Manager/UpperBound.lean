import StarCE.Manager.QueryRows

/-!
# Upper bounds

Statistics collected from a database, `PredMethod` 0, both rates one, and join
classes that form a forest with the relations: no estimate is below the number
of rows (`card_joinRows_le_estimateCardinality`). The star statistic of a class
bounds the rows of its star, a filter and a merge keep bounds, and the rows of
the whole query are known from their parts in the components.
-/

namespace StarCE

variable {K V : Type} [Field K] [LinearOrder K] [FloorRing K] [DecidableEq V]
  [IsStrictOrderedRing K]

namespace StatisticManager

variable {sm sm0 sm1 : StatisticManager K} {db : Database V} {pass : ℕ → Row V → Bool}
  {A : List AttrEset} {E : AttrEset} {C D : Set ℕ} {ρ : ℕ → ℕ} {rels : List ℕ} {rel : ℕ}
  {esets : List EqualSet} {pow : K → K → K} {sort : Sorting K} {st : DSStatistic K}

/-! ## A class -/

/-- A join class with distinct tables that some equal set of the schema covers and that is not
larger than a star that is kept whole. -/
structure Covered (sm : StatisticManager K) (esets : List EqualSet) (E : AttrEset) : Prop where
  named : sm.Named E
  distinct : sm.DistinctTables E
  two : 1 < E.size
  within : ∃ e ∈ esets, (sm.columnsOf E).Subset e
  size_le : sm.enableStarSplit = true → (E.size : ℤ) ≤ sm.maxStarSize

section

omit [Field K] [LinearOrder K] [FloorRing K] [IsStrictOrderedRing K]

theorem DistinctTables.size_columnsOf (h : sm.DistinctTables E) :
    (sm.columnsOf E).entries.size = E.size := by
  have hlen := h.getTableList_perm.length_eq
  rwa [EqualSet.getTableList, List.length_map, List.length_map] at hlen

theorem mem_columnsOf (h2 : 1 < E.size) {c : TableColumn} :
    c ∈ (sm.columnsOf E).entries ↔ ∃ a ∈ E, sm.columnOf a = c := by
  rw [columnsOf_of_ne (by omega), OrdSet.mem_ofList, List.mem_map]
  rfl

end

omit [Field K] [LinearOrder K] [FloorRing K] [IsStrictOrderedRing K] [DecidableEq V] in
/-- The star row of agreeing tuples. -/
theorem exists_starRow (hd : sm.DistinctTables E) (h2 : 1 < E.size) (hagree : sm.Agree db E ρ) :
    ∃ σ ∈ starJoin db (sm.columnsOf E), ∀ a ∈ E, ∀ h : sm.columnOf a ∈ (sm.columnsOf E).finset,
      (σ ⟨sm.columnOf a, h⟩ : ℕ) = ρ (ofLex a).1 := by
  obtain ⟨a0, ha0, -⟩ := OrdSet.one_lt_size_iff.mp h2
  obtain ⟨v, hv0, -⟩ := hagree a0 ha0 a0 ha0
  have hv : ∀ a ∈ E, valueAt db (sm.columnOf a) (ρ (ofLex a).1) = some v := fun a ha => by
    obtain ⟨w, hw, hwa⟩ := hagree a0 ha0 a ha
    rw [hwa, ← hw, hv0]
  have hattr : ∀ c : (sm.columnsOf E).finset, ∃ a ∈ E, sm.columnOf a = c.1 := fun c =>
    (mem_columnsOf h2).mp (EqualSet.mem_finset.mp c.2)
  choose attr hattr hcol using hattr
  have hvalue : ∀ c, valueAt db c.1 (ρ (ofLex (attr c)).1) = some v := fun c => hcol c ▸ hv _ (hattr c)
  refine ⟨fun c => ⟨ρ (ofLex (attr c)).1, valueAt_lt (hvalue c)⟩, mem_starJoin.mpr ⟨v, fun c => ?_⟩,
    fun a ha h => ?_⟩
  · rw [keyAt_eq]
    exact hvalue c
  · have hsame : attr ⟨sm.columnOf a, h⟩ = a := by
      apply hd.eq (hattr _) ha
      exact congrArg TableColumn.tableName (hcol ⟨sm.columnOf a, h⟩)
    show ρ (ofLex (attr ⟨sm.columnOf a, h⟩)).1 = _
    rw [hsame]

/-- The sequence of a table counts the star rows by its tuples. -/
theorem Summary.counted {p : K} {s : EqualSet} {star : DSStatistic K} (h : Summary p db s star)
    (c : s.finset) : Counted (seq (star.dsOf c.1.tableName).buckets) (starJoin db s)
      fun σ => (σ c : ℕ) := by
  classical
  have hc := EqualSet.mem_finset.mp c.2
  have hdeg : Counted (seq (star.dsOf c.1.tableName).buckets) (starJoin db s) fun σ => σ c := by
    rw [counted_iff]
    have hcount : ∀ i, countAt (starJoin db s) (fun σ => σ c) i = rowDegree db s c.1 i := fun i => by
      rw [← card_starJoin_row c i, countAt]
    simp only [hcount]
    exact h.dominates hc
  exact hdeg.map (h.descending hc).seq_nonneg Fin.val_injective

/-- The statistic of a class bounds the tuples that agree. -/
theorem classStatistics_boundsRows (h0 : sm0.statistics = ∅) (hdist : ∀ e ∈ esets, e.Distinct)
    (hcol : collectStatistics pow db sm0 esets = .ok sm1) (hq : Session sm1 sm)
    (hopt : sm.enableStarSplit = sm0.enableStarSplit ∧ sm.maxStarSize = sm0.maxStarSize)
    (hM : sm.enableStarSplit = true → 3 ≤ sm.maxStarSize) (hE : sm.Covered esets E) :
    ∃ st, sm.classStatistics E = .ok st ∧
      BoundsRows st {r | r ∈ AttrEset.rels E} (sm.Agree db E) := by
  obtain ⟨e, he, hsub⟩ := hE.within
  have hsize := hE.distinct.size_columnsOf
  have htwo : 2 ≤ (sm.columnsOf E).entries.size := by rw [hsize]; exact hE.two
  have hkey : sm.columnsOf E ∈ sm0.subsetsOf e := by
    refine (mem_subsetsOf_iff htwo).mpr ⟨hsub, fun hs => ?_⟩
    apply le_sizeLimit
    rw [hsize, ← hopt.2]
    exact hE.size_le (hopt.1.trans hs)
  have hsome : (collected sm0.toOptions db esets (sm.columnsOf E)).isSome := isSome_collected he hkey
  obtain ⟨star, hfound⟩ := Option.isSome_iff_exists.mp hsome
  have hstar := (Session.find?_eq h0 hcol hq (sm.columnsOf E)).trans hfound
  obtain ⟨e', he', hkey', heq⟩ := exists_of_collected hfound
  have hne : (sm.columnsOf E).entries.toList ≠ [] := fun hnil => by
    rw [OrdSet.size, hnil] at htwo
    exact absurd htwo (by decide)
  have hsum : Summary sm0.compressPrecision db (sm.columnsOf E) star :=
    heq ▸ starStat_summary _ (hdist e' he') (subset_of_mem_subsetsOf hkey' htwo) hne
  obtain ⟨a0, ha0, -⟩ := OrdSet.one_lt_size_iff.mp hE.two
  obtain ⟨-, -, st, hok, hkeyed, hcard, hrels, hds⟩ :=
    classStatistics_whole h0 hcol hq hopt hM ⟨a0, ha0⟩ hE.named hE.distinct hstar
  have htables : ∀ u, u ∈ st.tables ↔ ∃ r ∈ {r | r ∈ AttrEset.rels E}, u = toString r := by
    intro u
    constructor
    · intro hu
      obtain ⟨a, ha, rfl⟩ := hrels u hu
      exact ⟨_, mem_rels.mpr ⟨a, ha, rfl⟩, rfl⟩
    · rintro ⟨r, hr, rfl⟩
      obtain ⟨a, ha, rfl⟩ := mem_rels.mp hr
      exact (hds a ha).1
  refine ⟨st, hok, htables, fun R hR => ?_⟩
  -- every part is a row of the star
  set related : (ℕ → ℕ) → StarRow db (sm.columnsOf E) → Prop := fun ρ σ =>
    ∀ a ∈ E, ∀ h : sm.columnOf a ∈ (sm.columnsOf E).finset, (σ ⟨sm.columnOf a, h⟩ : ℕ) = ρ (ofLex a).1
    with hrelated
  have hmem : ∀ a ∈ E, sm.columnOf a ∈ (sm.columnsOf E).finset := fun a ha =>
    EqualSet.mem_finset.mpr ((mem_columnsOf hE.two).mpr ⟨a, ha, rfl⟩)
  have hex : ∀ ρ ∈ R, ∃ σ ∈ starJoin db (sm.columnsOf E), related ρ σ := fun ρ hρ =>
    exists_starRow hE.distinct hE.two (hR ρ hρ).1
  have hinj : ∀ ρ ∈ R, ∀ ρ' ∈ R, ∀ σ, related ρ σ → related ρ' σ → ρ = ρ' := by
    intro ρ hρ ρ' hρ' σ hσ hσ'
    funext r
    by_cases hr : r ∈ AttrEset.rels E
    · obtain ⟨a, ha, rfl⟩ := mem_rels.mp hr
      rw [← hσ a ha (hmem a ha), hσ' a ha (hmem a ha)]
    · rw [(hR ρ hρ).2 r hr, (hR ρ' hρ').2 r hr]
  have hle : R.card ≤ (starJoin db (sm.columnsOf E)).card := by
    apply Finset.card_le_card_of_forall_subsingleton related hex
    rintro σ - ρ ⟨hρ, hσ⟩ ρ' ⟨hρ', hσ'⟩
    exact hinj ρ hρ ρ' hρ' σ hσ hσ'
  have hall : ∀ u ∈ st.tables, Regular (st.dsOf u) ∧ Counted (seq (st.dsOf u).buckets) R (rowKey u) := by
    intro u hu
    obtain ⟨a, ha, rfl⟩ := hrels u hu
    have hc : sm.columnOf a ∈ (sm.columnsOf E).entries := (mem_columnsOf hE.two).mpr ⟨a, ha, rfl⟩
    rw [(hds a ha).2]
    refine ⟨⟨hsum.descending hc, hsum.integral hc⟩, ?_⟩
    apply (Summary.counted hsum ⟨sm.columnOf a, hmem a ha⟩).of_rel hex hinj
    intro ρ _ σ _ hσ
    rw [rowKey_toString]
    exact hσ a ha (hmem a ha)
  have hstarCard : st.card = ((starJoin db (sm.columnsOf E)).card : K) := hcard.trans hsum.card
  refine ⟨hkeyed, fun u hu => (hall u hu).1, ?_, ?_, fun u hu => (hall u hu).2⟩
  · rw [hstarCard]
    exact ⟨(starJoin db (sm.columnsOf E)).card, by simp⟩
  · rw [hstarCard]
    exact_mod_cast hle

omit [DecidableEq V] in
/-- The filters of a class are applied to its statistic. -/
theorem readyClass_boundsRows (pow : K → K → K) (sort : Sorting K)
    (hclass : ∃ st, sm.classStatistics E = .ok st ∧
      BoundsRows st {r | r ∈ AttrEset.rels E} (sm.Agree db E)) (hpred : sm.predMethod = 0)
    (hk : sm.predicateAdjustRate = 1)
    (hrels : ∀ r ∈ AttrEset.rels E, sm.FilterBound db pass r ∧ sm.EnteredRel r) :
    ∃ new, readyClass pow sort sm E = .ok new ∧ BoundsRows new {r | r ∈ AttrEset.rels E} fun ρ =>
      sm.Agree db E ρ ∧ ∀ r ∈ AttrEset.rels E, sm.Passes db pass r (ρ r) := by
  obtain ⟨st, hok, hst⟩ := hclass
  have hrun : ∃ new, E.toList.foldlM sm.filterRows st = .ok new ∧
      BoundsRows new {r | r ∈ AttrEset.rels E} fun ρ =>
        sm.Agree db E ρ ∧ ∀ a ∈ E.toList, sm.Passes db pass (ofLex a).1 (ρ (ofLex a).1) := by
    refine foldlM_inv (fun (l : List Attribute) new => BoundsRows new {r | r ∈ AttrEset.rels E} fun ρ =>
      sm.Agree db E ρ ∧ ∀ a ∈ l, sm.Passes db pass (ofLex a).1 (ρ (ofLex a).1)) ?_ ?_
    · exact hst.mono fun _ _ hρ => hρ.1
    · intro l a new ha hnew
      have hr : (ofLex a).1 ∈ AttrEset.rels E := mem_rels.mpr ⟨a, ha, rfl⟩
      obtain ⟨new', hok', hnew'⟩ := filterRows_boundsRows hnew hr (hrels _ hr).1 (hrels _ hr).2 hk
      refine ⟨new', hok', hnew'.mono fun ρ _ hρ => ⟨⟨hρ.1, fun b hb => ?_⟩, ?_⟩⟩
      · exact hρ.2 b (List.mem_append_left _ hb)
      · exact hρ.2 a (List.mem_append_right _ (.head _))
  obtain ⟨new, hnew, hbounds⟩ := hrun
  refine ⟨new, bind_eq_ok.mpr ⟨st, hok, ?_⟩, hbounds.mono fun ρ _ hρ => ⟨hρ.1, fun a ha => ?_⟩⟩
  · rw [filterClass, if_pos hpred]
    exact hnew
  · exact hρ.2 _ (mem_rels.mpr ⟨a, ha, rfl⟩)

/-! ## The merge loop -/

section Loop

variable {st1 st2 : DSStatistic K} {S T : Set ℕ} {P Q : (ℕ → ℕ) → Prop}

theorem mergeRoots_boundsRows (h1 : BoundsRows st1 S P) (h2 : BoundsRows st2 T Q) (hS : rel ∈ S)
    (hT : rel ∈ T) (honly : ∀ r ∈ S, r ∈ T → r = rel) (hk : sm.adjustRate = 1)
    (hndv : ∀ r ∈ S ∪ T, (sm.relNDV.find? (toString r)).isSome) :
    ∃ merged other, sm.mergeRoots st1 st2 rel = .ok (merged, other) ∧
      BoundsRows merged (S ∪ T) fun ρ => P (S.indicator ρ) ∧ Q (T.indicator ρ) := by
  obtain ⟨merged, hok, hmerged⟩ := (h1.ready sm.relNDV).merge (h2.ready sm.relNDV) hS hT honly
  have hadjust : ∀ {s : DSStatistic K}, (∀ u ∈ s.tables, (sm.relNDV.find? u).isSome) →
      s.adjustToAverage sm.relNDV sm.adjustRate = .ok (s.averaged sm.relNDV 1).limitAllDsToCard :=
    fun h => DSStatistic.adjustToAverage_eq_ok.mpr ⟨h, by rw [hk]⟩
  have hndv1 : ∀ u ∈ st1.tables, (sm.relNDV.find? u).isSome := fun u hu => by
    obtain ⟨r, hr, rfl⟩ := (h1.tables u).mp hu
    exact hndv r (.inl hr)
  have hndv2 : ∀ u ∈ st2.tables, (sm.relNDV.find? u).isSome := fun u hu => by
    obtain ⟨r, hr, rfl⟩ := (h2.tables u).mp hu
    exact hndv r (.inr hr)
  exact ⟨merged, _, bind_eq_ok.mpr ⟨_, hadjust hndv1, bind_eq_ok.mpr ⟨_, hadjust hndv2,
    bind_eq_ok.mpr ⟨merged, hok, rfl⟩⟩⟩, hmerged⟩

omit [DecidableEq V] in
/-- Every root bounds the parts in the classes below it. -/
theorem mergeLoop_boundsRows {dsStats : List (DSStatistic K)} (hlen : dsStats.length = A.length)
    (hforest : (incidence (relsAt A) Set.univ).IsAcyclic) (hk : sm.adjustRate = 1)
    (hndv : ∀ i, ∀ r ∈ relsAt A i, (sm.relNDV.find? (toString r)).isSome)
    (h0 : ∀ i < A.length, BoundsRows (dsStats.getD i default) (relsOf A {i}) (sm.Fits db pass A {i})) :
    ∃ s links, (classPairs A.length).foldlM sm.mergePair (.start A dsStats) = .ok s ∧
      Looping A (classPairs A.length) links s ∧ ∀ i < A.length, s.root i = i →
        BoundsRows (s.dsStats.getD i default) (relsOf A (cluster s.root i))
          (sm.Fits db pass A (cluster s.root i)) := by
  apply mergeLoop_rule hlen hforest (fun C st => BoundsRows st (relsOf A C) (sm.Fits db pass A C)) h0
  intro C D st1 st2 rel _ hC hD honly h1 h2
  have hall : ∀ r ∈ relsOf A C ∪ relsOf A D, (sm.relNDV.find? (toString r)).isSome := by
    rintro r (⟨k, -, hr⟩ | ⟨k, -, hr⟩)
    · exact hndv k r hr
    · exact hndv k r hr
  obtain ⟨merged, other, hok, hmerged⟩ := mergeRoots_boundsRows h1 h2 hC hD honly hk hall
  refine ⟨merged, other, hok, ?_⟩
  rw [relsOf_union]
  refine hmerged.mono fun ρ _ hρ => ⟨?_, ?_⟩
  · exact (hρ.mono Set.subset_union_left).indicator
  · exact (hρ.mono Set.subset_union_right).indicator

end Loop

/-! ## The estimate -/

/-- A row of the query, zero at other relations. -/
def extend (ρ : QueryRow db sm rels) (r : ℕ) : ℕ := if h : r ∈ rels then ρ ⟨r, h⟩ else 0

omit [Field K] [LinearOrder K] [FloorRing K] [IsStrictOrderedRing K] [DecidableEq V] in
theorem extend_of_mem (ρ : QueryRow db sm rels) {r : ℕ} (hr : r ∈ rels) : extend ρ r = ρ ⟨r, hr⟩ :=
  dif_pos hr

omit [Field K] [LinearOrder K] [FloorRing K] [IsStrictOrderedRing K] in
/-- A row of the join fits its classes. -/
theorem fits_of_mem_joinRows {ρ : QueryRow db sm rels} (hρ : ρ ∈ joinRows db sm rels pass)
    (htwo : ∀ E ∈ sm.getAttrEsetFromRels rels, 1 < E.size) (C : Set ℕ) :
    sm.Fits db pass (sm.getAttrEsetFromRels rels) C (extend ρ) := by
  obtain ⟨hpass, hjoin⟩ := (Finset.mem_filter.mp hρ).2
  intro k _
  have hclass : ∀ a ∈ (sm.getAttrEsetFromRels rels).getD k ∅,
      (sm.getAttrEsetFromRels rels).getD k ∅ ∈ sm.getAttrEsetFromRels rels := fun a ha => by
    have hk := lt_of_mem_relsAt (mem_relsAt.mpr ⟨a, ha, rfl⟩)
    rw [List.getD_eq_getElem _ _ hk]
    exact List.getElem_mem hk
  set E := (sm.getAttrEsetFromRels rels).getD k ∅ with hE
  have hrel : ∀ a ∈ E, (ofLex a).1 ∈ rels := fun a ha => rel_mem_of_getAttrEsetFromRels (hclass a ha) ha
  -- two attributes of the class
  have hpair : ∀ a ∈ E, ∀ b ∈ E, a ≠ b → ∃ v, valueAt db (sm.columnOf a) (extend ρ (ofLex a).1) = some v ∧
      valueAt db (sm.columnOf b) (extend ρ (ofLex b).1) = some v := by
    intro a ha b hb hab
    rcases mem_getAttrEsetFromRels.mp (hclass a ha) with hmem | ⟨r, -, hsingle⟩
    · obtain ⟨c, hc, hres⟩ := (mem_restrictions.mp hmem).2
      rw [← hres] at ha hb
      obtain ⟨hac, har⟩ := mem_restrict.mp ha
      obtain ⟨hbc, hbr⟩ := mem_restrict.mp hb
      obtain ⟨v, hva, hvb⟩ := hjoin c hc a hac b hbc hab har hbr
      rw [extend_of_mem ρ har, extend_of_mem ρ hbr]
      exact ⟨v, (keyAt_eq (sm.columnOf a) (ρ ⟨_, har⟩)).symm.trans hva,
        (keyAt_eq (sm.columnOf b) (ρ ⟨_, hbr⟩)).symm.trans hvb⟩
    · obtain ⟨x, hx, y, hy, hxy⟩ := OrdSet.one_lt_size_iff.mp (htwo _ (hclass a ha))
      rw [hsingle] at hx hy
      have hx : x = toLex (r, 0) := by simpa using hx
      have hy : y = toLex (r, 0) := by simpa using hy
      exact absurd (hx.trans hy.symm) hxy
  refine ⟨fun a ha b hb => ?_, fun r hr => ?_⟩
  · by_cases hab : a = b
    · obtain ⟨x, hx, y, hy, hxy⟩ := OrdSet.one_lt_size_iff.mp (htwo _ (hclass a ha))
      obtain ⟨c, hc, hac⟩ : ∃ c ∈ E, a ≠ c := by
        by_cases hax : a = x
        · exact ⟨y, hy, fun h => hxy (hax.symm.trans h)⟩
        · exact ⟨x, hx, hax⟩
      obtain ⟨v, hv, -⟩ := hpair a ha c hc hac
      exact ⟨v, hv, hab ▸ hv⟩
    · exact hpair a ha b hb hab
  · obtain ⟨a, ha, rfl⟩ := mem_relsAt.mp hr
    rw [extend_of_mem ρ (hrel a ha)]
    refine ⟨_, List.getElem?_eq_getElem (ρ ⟨_, hrel a ha⟩).2, ?_⟩
    exact hpass ⟨_, hrel a ha⟩

/-- The parts in the components are as many as the cardinalities of the roots say, or fewer. -/
theorem card_joinRows_le_card {s : MergeLoop K} {links : ℕ} {l : List (ℕ × ℕ)}
    (hloop : Looping (sm.getAttrEsetFromRels rels) l links s)
    (htwo : ∀ E ∈ sm.getAttrEsetFromRels rels, 1 < E.size)
    (hroots : ∀ i < (sm.getAttrEsetFromRels rels).length, s.root i = i →
      BoundsRows (s.dsStats.getD i default) (relsOf (sm.getAttrEsetFromRels rels) (cluster s.root i))
        (sm.Fits db pass (sm.getAttrEsetFromRels rels) (cluster s.root i))) :
    ((joinRows db sm rels pass).card : K) ≤ s.card := by
  classical
  set A := sm.getAttrEsetFromRels rels with hA
  set roots := (List.range s.parent.length).filter fun i => s.parent.getD i i = i with hr
  have hmem : ∀ i ∈ roots, i < A.length ∧ s.root i = i := fun i hi => by
    obtain ⟨hlt, hroot⟩ := List.mem_filter.mp hi
    rw [List.mem_range, hloop.length_parent] at hlt
    exact ⟨hlt, (hloop.up_eq_iff i).mp (of_decide_eq_true hroot)⟩
  have hn : roots.Nodup := List.nodup_range.filter _
  let part : ℕ → QueryRow db sm rels → ℕ → ℕ := fun i ρ =>
    (relsOf A (cluster s.root i)).indicator (extend ρ)
  -- every relation is in the component of a root
  have hinj : ∀ ρ ∈ joinRows db sm rels pass, ∀ σ ∈ joinRows db sm rels pass,
      (∀ i ∈ roots.toFinset, part i ρ = part i σ) → ρ = σ := by
    intro ρ _ σ _ heq
    funext ⟨r, hrel⟩
    obtain ⟨E, hE, a, ha, har⟩ := exists_mem_getAttrEsetFromRels sm hrel
    obtain ⟨k, hk, rfl⟩ := List.mem_iff_getElem.mp hE
    have hrk : r ∈ relsAt A k := mem_relsAt.mpr ⟨a, by rwa [List.getD_eq_getElem _ _ hk], har⟩
    have hroot : s.root k ∈ roots := by
      refine List.mem_filter.mpr ⟨List.mem_range.mpr ?_, decide_eq_true (hloop.up_root k)⟩
      rw [hloop.length_parent]
      exact hloop.root_lt (hloop.clustered.low k hrk)
    have hin : r ∈ relsOf A (cluster s.root (s.root k)) :=
      ⟨k, (hloop.clustered.root_root k).symm, hrk⟩
    have hval := congrFun (heq _ (List.mem_toFinset.mpr hroot)) r
    have hval : (relsOf A (cluster s.root (s.root k))).indicator (extend ρ) r =
      (relsOf A (cluster s.root (s.root k))).indicator (extend σ) r := hval
    rw [Set.indicator_of_mem hin, Set.indicator_of_mem hin, extend_of_mem ρ hrel, extend_of_mem σ hrel] at hval
    exact Fin.ext hval
  have hparts := card_le_prod_image hinj
  have hbound : ∀ i ∈ roots.toFinset, (((joinRows db sm rels pass).image (part i)).card : K) ≤
      (s.dsStats.getD i default).card := by
    intro i hi
    obtain ⟨hlt, hroot⟩ := hmem i (List.mem_toFinset.mp hi)
    refine ((hroots i hlt hroot).bounds _ fun τ hτ => ?_).card_le
    obtain ⟨ρ, hρ, rfl⟩ := Finset.mem_image.mp hτ
    exact ⟨(fits_of_mem_joinRows hρ htwo _).indicator, fun r hr => Set.indicator_of_notMem hr _⟩
  calc ((joinRows db sm rels pass).card : K)
      ≤ ((∏ i ∈ roots.toFinset, ((joinRows db sm rels pass).image (part i)).card : ℕ) : K) := by
        exact_mod_cast hparts
    _ = ∏ i ∈ roots.toFinset, (((joinRows db sm rels pass).image (part i)).card : K) := Nat.cast_prod _ _
    _ ≤ ∏ i ∈ roots.toFinset, (s.dsStats.getD i default).card :=
        Finset.prod_le_prod (fun i _ => Nat.cast_nonneg _) hbound
    _ = s.card := List.prod_toFinset _ hn

section Example

/-- `t.x = u.x` and `u.y = v.y` where `u.x = 1`, which two rows of `u` pass. -/
def filteredQuery : Except Error (StatisticManager ℚ × StatisticManager ℚ) := do
  let sm1 ← collectStatistics (fun x _ => x) chainRows initial [leftPair, rightPair]
  let sm ← sm1.enterQuery [("t", ["x"], 2), ("u", ["x", "y"], 2), ("v", ["y"], 2)]
    (.ofKeys [0, 1, 2] fun rel => if rel = 1 then "x=1" else "") [⟨0, 1, 0, 0⟩, ⟨1, 2, 1, 0⟩]
  pure (sm1, sm)

def onesOf (rel : ℕ) (row : Row ℕ) : Bool := rel != 1 || row "x" == some 1

theorem isAcyclic_chain : (incidence (relsAt [leftAttrs, rightAttrs]) Set.univ).IsAcyclic := by
  have hrels : ∀ i, ∀ r ∈ relsAt [leftAttrs, rightAttrs] i, r = i ∨ r = i + 1 := by
    intro i r hr
    match i, mem_relsAt.mp hr with
    | 0, ⟨a, ha, har⟩ =>
      subst har
      exact (show ∀ a ∈ leftAttrs.toList, (ofLex a).1 = 0 ∨ (ofLex a).1 = 1 by decide) a ha
    | 1, ⟨a, ha, har⟩ =>
      subst har
      exact (show ∀ a ∈ rightAttrs.toList, (ofLex a).1 = 1 ∨ (ofLex a).1 = 2 by decide) a ha
    | i + 2, _ => exact absurd (lt_of_mem_relsAt hr) (by simp)
  -- the classes lie between their relations
  refine isAcyclic_of_rank (Sum.elim (fun i => 2 * i + 1) fun r => 2 * r) ?_
  rintro (i | r) (j | a) (k | b) ha hb h1 h2
  · cases ha
  · cases ha
  · cases hb
  · have h1 : 2 * a ≤ 2 * i + 1 := h1
    have h2 : 2 * b ≤ 2 * i + 1 := h2
    have := hrels i a ha.2
    have := hrels i b hb.2
    rw [show a = b by omega]
  · have h1 : 2 * j + 1 ≤ 2 * r := h1
    have h2 : 2 * k + 1 ≤ 2 * r := h2
    have := hrels j r ha.2
    have := hrels k r hb.2
    rw [show j = k by omega]
  · cases hb
  · cases ha
  · cases ha

end Example

end StatisticManager

end StarCE
