import StarCE.Manager.ClassStats
import StarCE.Stat.Adjust

/-!
# Filters on a join class

Whatever `PredMethod`, the filters of a class leave its statistic the tables it
had (`keeps_filterClass`); they fail only where the filter string, the
cardinality or the number of distinct rows of a relation is not known
(`filterClass_ok`).
-/

namespace StarCE

variable {K : Type} [Field K] [LinearOrder K] [FloorRing K]

namespace StatisticManager

open DSStatistic

variable {sm : StatisticManager K} {st new : DSStatistic K} {a : Attribute} {A : AttrEset}
  {pow : K → K → K} {sort : Sorting K}

theorem full_single (t : Table) (card p : K) : (single t card p).Full := fun u hu => by
  rw [List.mem_singleton.mp hu, single, OrdMap.find?_insert_self]
  rfl

/-- What the filter of a relation is looked up with. -/
structure Filterable (sm : StatisticManager K) (rel : ℕ) : Prop where
  filter : (sm.filterString.find? rel).isSome
  card : ∃ n, sm.getTableCard rel = .ok n
  rows : ∃ table n, sm.tableName.find? rel = some table ∧ sm.getNDV table = .ok n
  ndv : (sm.relNDV.find? (toString rel)).isSome

/-! ## The three methods -/

theorem keeps_filterRows (h : sm.filterRows st a = .ok new) (hf : st.Full)
    (ht : toString (ofLex a).1 ∈ st.tables) : Keeps st new := by
  obtain ⟨filter, -, h⟩ := bind_eq_ok.mp h
  split at h
  · obtain rfl := Except.ok.inj h
    exact .refl _
  · obtain ⟨card, -, h⟩ := bind_eq_ok.mp h
    obtain ⟨table, -, h⟩ := bind_eq_ok.mp h
    obtain ⟨n, -, h⟩ := bind_eq_ok.mp h
    obtain ⟨rows, hrows, h⟩ := bind_eq_ok.mp h
    have hk := keeps_adjustToAverage hrows
    obtain ⟨new', hok, hnew⟩ := merge_keeps hf (hk.full (full_single _ _ _)) ht hk.tables
    obtain rfl : new' = new := Except.ok.inj (hok.symm.trans h)
    exact hnew

theorem filterRows_ok (h : sm.Filterable (ofLex a).1) (hf : st.Full)
    (ht : toString (ofLex a).1 ∈ st.tables) :
    ∃ new, sm.filterRows st a = .ok new ∧ Keeps st new := by
  obtain ⟨card, hcard⟩ := h.card
  obtain ⟨table, n, htable, hn⟩ := h.rows
  have hok : ∃ new, sm.filterRows st a = .ok new := by
    rw [filterRows, OrdMap.lookup_of_isSome "" h.filter]
    simp only [bind, Except.bind]
    split
    · exact ⟨st, rfl⟩
    · have hadj : (single (toString (ofLex a).1) (card : K) sm.compressPrecision).adjustToAverage
          sm.relNDV sm.predicateAdjustRate = .ok _ := adjustToAverage_eq_ok.mpr
        ⟨fun u hu => by rw [List.mem_singleton.mp hu]; exact h.ndv, rfl⟩
      have hk := keeps_adjustToAverage hadj
      obtain ⟨new, hok, -⟩ := merge_keeps hf (hk.full (full_single _ _ _)) ht hk.tables
      exact ⟨new, by simp only [hcard, OrdMap.lookup, htable, hn, hadj]; exact hok⟩
  obtain ⟨new, hok⟩ := hok
  exact ⟨new, hok, keeps_filterRows hok hf ht⟩

theorem keeps_filterBlend (h : sm.filterBlend st a = .ok new) (hf : st.Full)
    (ht : toString (ofLex a).1 ∈ st.tables) : Keeps st new := by
  obtain ⟨filter, -, h⟩ := bind_eq_ok.mp h
  split at h
  · obtain rfl := Except.ok.inj h
    exact .refl _
  · obtain ⟨card, -, h⟩ := bind_eq_ok.mp h
    obtain ⟨table, -, h⟩ := bind_eq_ok.mp h
    obtain ⟨n, -, h⟩ := bind_eq_ok.mp h
    have hk := keeps_setDs st (toString (ofLex a).1) (st.dsOf (toString (ofLex a).1))
    have hs : ∀ d, ((single (toString (ofLex a).1) (card : K) sm.compressPrecision).setDs
        (toString (ofLex a).1) d).Full := fun d => (keeps_setDs _ _ d).full (full_single _ _ _)
    obtain ⟨new', hok, hnew⟩ := merge_keeps (hk.full hf) (hs _) ht rfl
    obtain rfl : new' = new := Except.ok.inj (hok.symm.trans h)
    exact hk.trans hnew

theorem filterBlend_ok (h : sm.Filterable (ofLex a).1) (hf : st.Full)
    (ht : toString (ofLex a).1 ∈ st.tables) :
    ∃ new, sm.filterBlend st a = .ok new ∧ Keeps st new := by
  obtain ⟨card, hcard⟩ := h.card
  obtain ⟨table, n, htable, hn⟩ := h.rows
  have hok : ∃ new, sm.filterBlend st a = .ok new := by
    rw [filterBlend, OrdMap.lookup_of_isSome "" h.filter]
    simp only [bind, Except.bind]
    split
    · exact ⟨st, rfl⟩
    · have hk := keeps_setDs st (toString (ofLex a).1) (st.dsOf (toString (ofLex a).1))
      have hs : ∀ d, ((single (toString (ofLex a).1) (card : K) sm.compressPrecision).setDs
          (toString (ofLex a).1) d).Full := fun d => (keeps_setDs _ _ d).full (full_single _ _ _)
      obtain ⟨new, hok, -⟩ := merge_keeps (hk.full hf) (hs _) ht rfl
      exact ⟨new, by simp only [hcard, OrdMap.lookup, htable, hn]; exact hok⟩
  obtain ⟨new, hok⟩ := hok
  exact ⟨new, hok, keeps_filterBlend hok hf ht⟩

theorem keeps_filterUniform (h : sm.filterUniform pow sort A st = .ok new) : Keeps st new := by
  obtain ⟨coeffs, -, h⟩ := bind_eq_ok.mp h
  obtain ⟨s, -, h⟩ := bind_eq_ok.mp h
  obtain rfl := Except.ok.inj h
  exact keeps_applyFilterCoefficient _ _

/-- The coefficients are those of attributes of the class. -/
theorem tableCoeffs_ok {l : List Attribute} (h : ∀ a ∈ l, sm.Filterable (ofLex a).1) :
    ∃ coeffs, sm.tableCoeffs l = .ok coeffs ∧ ∀ c ∈ coeffs, c.2 ∈ l := by
  have hrun : ∃ coeffs : List (K × Attribute), sm.tableCoeffs l = .ok coeffs ∧
      ∀ c ∈ coeffs, c.2 ∈ l := by
    refine foldlM_inv (fun l' (coeffs : List (K × Attribute)) => ∀ c ∈ coeffs, c.2 ∈ l')
      (by simp) ?_
    intro l' a coeffs ha hc
    obtain ⟨card, hcard⟩ := (h a ha).card
    obtain ⟨table, n, htable, hn⟩ := (h a ha).rows
    have hold : ∀ c ∈ coeffs, c.2 ∈ l' ++ [a] := fun c hcm => List.mem_append_left _ (hc c hcm)
    simp only [OrdMap.lookup_of_isSome "" (h a ha).filter, bind, Except.bind]
    split
    · exact ⟨coeffs, rfl, hold⟩
    · refine ⟨coeffs ++ [((card : K) / (n : K), a)], by
        simp only [hcard, OrdMap.lookup, htable, hn]; rfl, fun c hcm => ?_⟩
      rcases List.mem_append.mp hcm with hcm | hcm
      · exact hold c hcm
      · rw [List.mem_singleton.mp hcm]
        exact List.mem_append_right _ (.head _)
  exact hrun

omit [Field K] [LinearOrder K] [FloorRing K] in
/-- What is looked up for a coefficient is a part of the class. -/
theorem Named.subset (hA : sm.Named A) {B : AttrEset} (hB : ∀ b ∈ B, b ∈ A) (hne : ∃ b, b ∈ B) :
    sm.Named B := by
  obtain ⟨c, hc⟩ := hne
  intro b hb
  refine ⟨(hA b (hB b hb)).1, fun hs => (hA b (hB b hb)).2 fun h1 => hs ?_⟩
  have hpos := List.length_pos_of_mem hc
  have hle := (B.nodup.subperm fun c hc => hB c hc).length_le
  change A.toList.length = 1 at h1
  change B.toList.length = 1
  omega

theorem filterUniform_ok (hA : sm.Named A) (h : ∀ a ∈ A, sm.Filterable (ofLex a).1) :
    ∃ new, sm.filterUniform pow sort A st = .ok new ∧ Keeps st new := by
  obtain ⟨coeffs, hcoeffs, hmem⟩ := tableCoeffs_ok (l := A.toList) h
  have hrun : ∃ s : K × AttrEset, (sort.order coeffs).zipIdx.foldlM
      (refineCoeff pow sm) ((1 : K), (∅ : AttrEset)) = .ok s ∧ ∀ b ∈ s.2, b ∈ A := by
    refine foldlM_inv (fun _ (s : K × AttrEset) => ∀ b ∈ s.2, b ∈ A) (by simp) ?_
    rintro _ c s hc hs
    have hcm : c.1 ∈ coeffs := (sort.perm coeffs).subset (List.fst_mem_of_mem_zipIdx hc)
    have hB : ∀ b ∈ s.2.insert c.1.2, b ∈ A := fun b hb => by
      rcases OrdSet.mem_insert.mp hb with rfl | hb
      · exact hmem _ hcm
      · exact hs b hb
    have hmemc : c.1.2 ∈ s.2.insert c.1.2 := OrdSet.mem_insert.mpr (.inl rfl)
    obtain ⟨idx, hok, -⟩ := getEqualSetFromAttrEset_ok (hA.subset hB ⟨_, hmemc⟩)
    exact ⟨_, by rw [refineCoeff]; simp only [hok, bind, Except.bind]; rfl, hB⟩
  obtain ⟨s, hs, -⟩ := hrun
  refine ⟨st.applyFilterCoefficient s.1, ?_, keeps_applyFilterCoefficient _ _⟩
  rw [filterUniform]
  simp only [hcoeffs, bind, Except.bind, hs]
  rfl

/-! ## One class -/

theorem keeps_filterClass (h : filterClass pow sort sm A st = .ok new) (hf : st.Full)
    (ht : ∀ a ∈ A, toString (ofLex a).1 ∈ st.tables) : Keeps st new := by
  have hloop : ∀ {f : DSStatistic K → Attribute → Except Error (DSStatistic K)},
      (∀ {s new : DSStatistic K} {a : Attribute}, f s a = .ok new → s.Full →
        toString (ofLex a).1 ∈ s.tables → Keeps s new) →
      A.toList.foldlM f st = .ok new → Keeps st new := fun hkeep hrun =>
    foldlM_keeps hrun (.refl st) fun a ha s s' hs hok =>
      hs.trans (hkeep hok (hs.full hf) (by rw [hs.tables]; exact ht a ha))
  unfold filterClass at h
  split at h
  · exact hloop keeps_filterRows h
  · split at h
    · exact hloop keeps_filterBlend h
    · exact keeps_filterUniform h

theorem filterClass_ok (pow : K → K → K) (sort : Sorting K) (hA : sm.Named A)
    (h : ∀ a ∈ A, sm.Filterable (ofLex a).1) (hf : st.Full)
    (ht : ∀ a ∈ A, toString (ofLex a).1 ∈ st.tables) :
    ∃ new, filterClass pow sort sm A st = .ok new ∧ Keeps st new := by
  have hloop : ∀ {f : DSStatistic K → Attribute → Except Error (DSStatistic K)},
      (∀ {s : DSStatistic K} {a : Attribute}, sm.Filterable (ofLex a).1 → s.Full →
        toString (ofLex a).1 ∈ s.tables → ∃ new, f s a = .ok new ∧ Keeps s new) →
      ∃ new, A.toList.foldlM f st = .ok new ∧ Keeps st new := fun hok =>
    foldlM_inv (fun _ s => Keeps st s) (.refl st) fun _ a s ha hs => by
      obtain ⟨new, hnew, hk⟩ := hok (h a ha) (hs.full hf) (by rw [hs.tables]; exact ht a ha)
      exact ⟨new, hnew, hs.trans hk⟩
  unfold filterClass
  split
  · exact hloop filterRows_ok
  · split
    · exact hloop filterBlend_ok
    · exact filterUniform_ok hA h

end StatisticManager

end StarCE
