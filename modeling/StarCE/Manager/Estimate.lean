import StarCE.Manager.Relations

/-!
# What an estimate needs

`estimateCardinality` builds the text of the subquery for its recorders before
it turns to the statistics. With the tables, columns and filters known that
does not fail, and the estimate is the one from the statistics
(`estimateCardinality_eq`).
-/

namespace StarCE

variable {K : Type}

namespace StatisticManager

variable {sm : StatisticManager K} {rels : List ℕ} {esets : List AttrEset} {ids : OrdMap ℕ ℕ}

theorem aliasIds_ok (h : ∀ rel ∈ rels, (sm.tableName.find? rel).isSome) :
    ∃ ids, sm.aliasIds rels = .ok ids := by
  obtain ⟨s, hs, -⟩ : ∃ s, rels.foldlM (fun (s : OrdMap ℕ ℕ × OrdMap String ℕ) rel => do
      let table ← sm.tableName.lookup rel
      let id := (s.2.find? table).getD 0 + 1
      pure (s.1.insert rel id, s.2.insert table id)) (∅, ∅) = .ok s ∧ True :=
    foldlM_inv (fun _ _ => True) trivial fun _ rel _ hrel _ =>
      ⟨_, by rw [OrdMap.lookup_of_isSome "" (h rel hrel)]; rfl, trivial⟩
  exact ⟨s.1, by rw [aliasIds, hs]; rfl⟩

theorem toAlias_ok (ids : OrdMap ℕ ℕ) {rel : ℕ} (h : (sm.tableName.find? rel).isSome) :
    ∃ s, sm.toAlias ids rel = .ok s :=
  ⟨_, by rw [toAlias, OrdMap.lookup_of_isSome "" h]; rfl⟩


theorem joinConditionsOf_ok (ids : OrdMap ℕ ℕ) {A : AttrEset} (h : sm.Named A) :
    ∃ l, sm.joinConditionsOf ids A = .ok l := by
  unfold joinConditionsOf
  split
  · exact ⟨_, rfl⟩
  · next hs =>
    obtain ⟨attrs, hattrs, -⟩ := mapM_ok (f := fun attr => do
        let table ← sm.toAlias ids (ofLex attr).1
        let column ← sm.columnName.lookup attr
        pure (table ++ "." ++ column)) (R := fun _ _ => True)
        fun a (ha : a ∈ A.toList) => by
      obtain ⟨t, ht⟩ := toAlias_ok ids (h a ha).1
      exact ⟨_, by rw [ht, OrdMap.lookup_of_isSome "" ((h a ha).2 hs)]; rfl, trivial⟩
    exact ⟨_, by rw [hattrs]; rfl⟩

theorem filtersOf_ok (ids : OrdMap ℕ ℕ) {rel : ℕ}
    (ht : (sm.tableName.find? rel).isSome) (hf : (sm.filterString.find? rel).isSome) : ∃ l, sm.filtersOf ids rel = .ok l := by
  obtain ⟨t, ht⟩ := toAlias_ok ids ht
  rw [filtersOf, OrdMap.lookup_of_isSome "" hf]
  simp only [bind, Except.bind]
  split
  · exact ⟨_, rfl⟩
  · exact ⟨_, by rw [ht]; rfl⟩


theorem getSubquery_ok (ht : ∀ rel ∈ rels, (sm.tableName.find? rel).isSome)
    (hf : ∀ rel ∈ rels, (sm.filterString.find? rel).isSome) (hA : ∀ A ∈ esets, sm.Named A) :
    ∃ s, sm.getSubquery rels esets = .ok s := by
  obtain ⟨ids, hids⟩ := aliasIds_ok ht
  obtain ⟨items, hitems, -⟩ := mapM_ok (f := fun rel => do
      let table ← sm.tableName.lookup rel
      let name ← sm.toAlias ids rel
      pure (table ++ " AS " ++ name)) (R := fun _ _ => True) fun rel (hrel : rel ∈ rels) => by
    obtain ⟨t, hta⟩ := toAlias_ok ids (ht rel hrel)
    exact ⟨_, by rw [hta, OrdMap.lookup_of_isSome "" (ht rel hrel)]; rfl, trivial⟩
  obtain ⟨joins, hjoins, -⟩ := mapM_ok (R := fun _ _ => True) fun A hmem => by
    obtain ⟨l, hl⟩ := joinConditionsOf_ok ids (hA A hmem)
    exact ⟨l, hl, trivial⟩
  obtain ⟨filters, hfilters, -⟩ := mapM_ok (R := fun _ _ => True) fun rel hrel => by
    obtain ⟨l, hl⟩ := filtersOf_ok ids (ht rel hrel) (hf rel hrel)
    exact ⟨l, hl, trivial⟩
  exact ⟨_, bind_eq_ok.mpr ⟨ids, hids, bind_eq_ok.mpr ⟨items, hitems, bind_eq_ok.mpr
    ⟨joins, hjoins, bind_eq_ok.mpr ⟨filters, hfilters, rfl⟩⟩⟩⟩⟩

variable [Field K] [LinearOrder K] [FloorRing K]

/-- The estimate comes from the statistics, whatever is recorded. -/
theorem estimateCardinality_eq (pow : K → K → K) (sort : Sorting K)
    (hsub : sm.useSubqueryCard = false)
    (hf : ∀ rel ∈ rels, (sm.filterString.find? rel).isSome)
    (hA : ∀ A ∈ sm.getAttrEsetFromRels rels, sm.Named A) :
    estimateCardinality pow sort sm rels = estimateFromStats pow sort sm (sm.getAttrEsetFromRels rels) := by
  have ht : ∀ rel ∈ rels, (sm.tableName.find? rel).isSome := fun rel hrel => by
    obtain ⟨A, hmem, a, ha, rfl⟩ := exists_mem_getAttrEsetFromRels sm hrel
    exact (hA A hmem a ha).1
  obtain ⟨s, hs⟩ := getSubquery_ok ht hf hA
  unfold estimateCardinality
  rw [hsub]
  simp only [hs, bind, Except.bind, pure, Except.pure]
  split <;> rfl

end StatisticManager

end StarCE
