import StarCE.Manager.Classes
import StarCE.Manager.Lookup

/-!
# Queries on collected statistics

A session is what happens to a manager between `prepareEstimate` and the
estimates of a query: tables and predicates are added, filters and options set.
It does not touch the statistics, and every table it knows has its number of
distinct rows looked up (`Session.ndv`).
-/

namespace StarCE

variable {K V : Type} [Field K] [LinearOrder K] [FloorRing K] [DecidableEq V]

namespace StatisticManager

/-- The states of a query being prepared on `sm0`. The filter strings, the options and the rates
are public. -/
inductive Session (sm0 : StatisticManager K) : StatisticManager K → Prop
  | prepareEstimate {sm : StatisticManager K} (hok : sm0.prepareEstimate = .ok sm) : Session sm0 sm
  | addTable {sm sm' : StatisticManager K} (h : Session sm0 sm) {tableId : ℕ} {table : Table}
      {columns : List String} {card : ℕ} (hok : sm.addTable tableId table columns card = .ok sm') :
      Session sm0 sm'
  | addPredicate {sm : StatisticManager K} (h : Session sm0 sm) (p : JoinPredicate) :
      Session sm0 (sm.addPredicate p.table1 p.table2 p.column1 p.column2)
  | setFilters {sm : StatisticManager K} (h : Session sm0 sm) (filterString : OrdMap ℕ String) :
      Session sm0 { sm with filterString }
  | setOptions {sm : StatisticManager K} (h : Session sm0 sm) (o : Options K) :
      Session sm0 { sm with toOptions := o }
  | setRates {sm : StatisticManager K} (h : Session sm0 sm) (adjustRate predicateAdjustRate : K) :
      Session sm0 { sm with adjustRate, predicateAdjustRate }

variable {sm0 sm sm' : StatisticManager K} {pow : K → K → K} {db : Database V}

/-- `addTable` succeeds if the table's statistic is found. -/
theorem addTable_eq_ok {tableId : ℕ} {table : Table} {columns : List String} {card : ℕ} :
    sm.addTable tableId table columns card = .ok sm' ↔
      ∃ n, sm.getNDV table = .ok n ∧ sm' = { sm.enterTable tableId table columns card with
        relNDV := sm.relNDV.insert (toString tableId) n } := by
  rw [addTable, bind_eq_ok]
  constructor
  · rintro ⟨n, hn, he⟩
    exact ⟨n, hn, (Except.ok.inj he).symm⟩
  · rintro ⟨n, hn, rfl⟩
    exact ⟨n, hn, rfl⟩

theorem Session.statistics_eq (h : Session sm0 sm) : sm.statistics = sm0.statistics := by
  induction h with
  | prepareEstimate hok =>
    unfold StatisticManager.prepareEstimate at hok
    split at hok
    · cases hok
    · obtain rfl := Except.ok.inj hok
      rfl
  | addTable _ hok ih =>
    obtain ⟨n, -, rfl⟩ := addTable_eq_ok.mp hok
    exact ih
  | addPredicate _ p ih => rw [addPredicate_eq]; exact ih
  | setFilters _ _ ih => exact ih
  | setOptions _ _ ih => exact ih
  | setRates _ _ _ ih => exact ih

/-- Ids have different texts. -/
theorem toString_injective : Function.Injective (toString : ℕ → String) := fun a b h => by
  have := congrArg String.toNat? h
  simpa [Nat.toNat?_repr] using this

/-- The number of distinct rows of a table is the one its relation was entered with. -/
theorem Session.ndv (h : Session sm0 sm) {rel : ℕ} {table : Table}
    (ht : sm.tableName.find? rel = some table) :
    ∃ n, sm.relNDV.find? (toString rel) = some n ∧ sm.getNDV table = .ok n := by
  induction h with
  | prepareEstimate hok =>
    unfold StatisticManager.prepareEstimate at hok
    split at hok
    · cases hok
    · obtain rfl := Except.ok.inj hok
      cases ht
  | @addTable sm sm' _ tableId table' columns card hok ih =>
    obtain ⟨n, hn, rfl⟩ := addTable_eq_ok.mp hok
    change (sm.tableName.insert tableId table').find? rel = some table at ht
    change ∃ n', (sm.relNDV.insert (toString tableId) n).find? (toString rel) = some n' ∧
      sm.getNDV table = .ok n'
    rw [OrdMap.find?_insert] at ht ⊢
    split at ht
    · next he =>
      obtain rfl := Option.some.inj ht
      exact ⟨n, if_pos (congrArg _ he), hn⟩
    · next he =>
      obtain ⟨n', hn', hndv⟩ := ih ht
      exact ⟨n', by rw [if_neg fun hs => he (toString_injective hs), hn'], hndv⟩
  | addPredicate _ p ih => rw [addPredicate_eq] at ht ⊢; exact ih ht
  | setFilters _ _ ih => exact ih ht
  | setOptions _ _ ih => exact ih ht
  | setRates _ _ _ ih => exact ih ht

/-! ## Entering a query -/

/-- A relation's table, its columns and its cardinality. -/
abbrev Relation := Table × List String × ℕ

/-- What the optimizer enters: the relations by their ids, the filters and the predicates. -/
def enterQuery (sm : StatisticManager K) (relations : List Relation)
    (filters : OrdMap ℕ String) (calls : List JoinPredicate) :
    Except Error (StatisticManager K) := do
  let sm ← sm.prepareEstimate
  let sm ← relations.zipIdx.foldlM (fun sm r => sm.addTable r.2 r.1.1 r.1.2.1 r.1.2.2) sm
  pure ({ sm with filterString := filters }.addPredicates calls)

theorem session_enterQuery {relations : List Relation} {filters : OrdMap ℕ String}
    {calls : List JoinPredicate} (h : sm0.enterQuery relations filters calls = .ok sm) :
    Session sm0 sm := by
  obtain ⟨sm1, h1, h⟩ := bind_eq_ok.mp h
  obtain ⟨sm2, h2, h⟩ := bind_eq_ok.mp h
  obtain rfl := Except.ok.inj h
  have hs2 : Session sm0 sm2 :=
    foldlM_keeps h2 (.prepareEstimate h1) fun _ _ _ _ hs hok => hs.addTable hok
  exact foldl_inv (fun _ s => Session sm0 s) (hs2.setFilters filters)
    fun _ p _ _ hs => hs.addPredicate p

/-- The names of the relations are the entered ones. -/
structure Entered (relations : List Relation) (sm : StatisticManager K) : Prop where
  tables : ∀ i, sm.tableName.find? i = relations[i]?.map (·.1)
  columns : ∀ i j, sm.columnName.find? (toLex (i, j)) =
    relations[i]?.bind fun r => r.2.1[j]?.map bareColumn

omit [Field K] [LinearOrder K] [FloorRing K] in
theorem find?_enterTable_columnName (sm : StatisticManager K) (tableId : ℕ) (table : Table)
    (columns : List String) (card : ℕ) (i j : ℕ) :
    (sm.enterTable tableId table columns card).columnName.find? (toLex (i, j)) =
      if i = tableId ∧ j < columns.length then columns[j]?.map bareColumn
      else sm.columnName.find? (toLex (i, j)) := by
  show (columns.zipIdx.foldl (fun (m : OrdMap Attribute String) c =>
    m.insert (toLex (tableId, c.2)) (bareColumn c.1)) sm.columnName).find? (toLex (i, j)) = _
  induction columns using List.reverseRecOn with
  | nil => simp
  | append_singleton l c ih =>
    rw [List.zipIdx_append, List.foldl_append]
    simp only [List.zipIdx_singleton, List.foldl_cons, List.foldl_nil, OrdMap.find?_insert, ih,
      EmbeddingLike.apply_eq_iff_eq, Prod.mk.injEq, zero_add, List.length_append,
      List.length_singleton]
    by_cases hi : i = tableId
    · rcases lt_trichotomy j l.length with hj | rfl | hj
      · simp [hi, hj, hj.ne, Nat.lt_succ_of_lt hj]
      · simp [hi]
      · have hne : ¬j < l.length := by omega
        have hne' : ¬j < l.length + 1 := by omega
        simp [hi, hj.ne', hne, hne']
    · simp [hi]

theorem entered_addTables {sm1 sm2 : StatisticManager K} (ht : sm1.tableName = ∅)
    (hc : sm1.columnName = ∅) {relations : List Relation}
    (h : relations.zipIdx.foldlM (fun sm r => sm.addTable r.2 r.1.1 r.1.2.1 r.1.2.2) sm1 = .ok sm2) :
    Entered relations sm2 ∧ sm2.attrEsets = sm1.attrEsets := by
  induction relations using List.reverseRecOn generalizing sm2 with
  | nil =>
    obtain rfl := Except.ok.inj h
    exact ⟨⟨fun i => by rw [ht]; rfl, fun i j => by rw [hc]; rfl⟩, rfl⟩
  | append_singleton l r ih =>
    rw [List.zipIdx_append, List.foldlM_append] at h
    obtain ⟨s, hs, h⟩ := bind_eq_ok.mp h
    rw [List.zipIdx_singleton, List.foldlM_cons] at h
    obtain ⟨s', hadd, h⟩ := bind_eq_ok.mp h
    obtain rfl := Except.ok.inj h
    obtain ⟨n, -, rfl⟩ := addTable_eq_ok.mp hadd
    obtain ⟨he, hclasses⟩ := ih hs
    refine ⟨⟨fun i => ?_, fun i j => ?_⟩, hclasses⟩
    · show (s.tableName.insert (0 + l.length) r.1).find? i = _
      rw [OrdMap.find?_insert, he.tables, zero_add]
      split
      · next hi => rw [hi, List.getElem?_concat_length]; rfl
      · next hi =>
        rcases lt_or_gt_of_ne hi with hlt | hgt
        · rw [List.getElem?_append_left hlt]
        · rw [List.getElem?_eq_none hgt.le, List.getElem?_eq_none (by simpa using hgt)]
    · show (s.enterTable (0 + l.length) r.1 r.2.1 r.2.2).columnName.find? (toLex (i, j)) = _
      rw [find?_enterTable_columnName, he.columns, zero_add]
      rcases lt_trichotomy i l.length with hlt | rfl | hgt
      · rw [if_neg fun hi => hlt.ne hi.1, List.getElem?_append_left hlt]
      · rw [List.getElem?_concat_length]
        split
        · rfl
        · next hj =>
          have hlen : r.2.1.length ≤ j := by simpa using hj
          simp [hlen]
      · rw [if_neg fun hi => hgt.ne' hi.1, List.getElem?_eq_none hgt.le,
          List.getElem?_eq_none (by simpa using hgt)]

/-- What a query leaves in the manager. -/
theorem entered_enterQuery {relations : List Relation} {filters : OrdMap ℕ String}
    {calls : List JoinPredicate} (h : sm0.enterQuery relations filters calls = .ok sm) :
    Entered relations sm ∧ sm.filterString = filters ∧
      sm.attrEsets = calls.foldl (fun l p => joinAttrs p.attr1 p.attr2 l) [] := by
  obtain ⟨sm1, h1, h⟩ := bind_eq_ok.mp h
  obtain ⟨sm2, h2, h⟩ := bind_eq_ok.mp h
  obtain rfl := Except.ok.inj h
  unfold prepareEstimate at h1
  split at h1
  · cases h1
  · obtain rfl := Except.ok.inj h1
    obtain ⟨⟨htables, hcolumns⟩, hclasses⟩ := entered_addTables rfl rfl h2
    rw [addPredicates_eq]
    refine ⟨⟨htables, hcolumns⟩, rfl, ?_⟩
    show calls.foldl _ sm2.attrEsets = _
    rw [hclasses]

/-- A query over tables with a collected cardinality can be entered. -/
theorem enterQuery_ok (hp : sm.prepared = false) {relations : List Relation}
    (h : ∀ r ∈ relations, ∃ n, sm.getNDV r.1 = .ok n) (filters : OrdMap ℕ String)
    (calls : List JoinPredicate) : ∃ sm', sm.enterQuery relations filters calls = .ok sm' ∧
      sm'.toOptions = sm.toOptions ∧ ∀ i, sm'.tabelCard.find? i = relations[i]?.map (·.2.2) := by
  obtain ⟨sm1, h1, hst, hopt, hcard⟩ : ∃ sm1, sm.prepareEstimate = .ok sm1 ∧
      sm1.statistics = sm.statistics ∧ sm1.toOptions = sm.toOptions ∧ sm1.tabelCard = ∅ := by
    have hnot : ¬sm.prepared = true := by rw [hp]; exact Bool.false_ne_true
    exact ⟨_, if_neg hnot, rfl, rfl, rfl⟩
  obtain ⟨sm2, h2, -, hopt2, hcard2⟩ : ∃ sm2, relations.zipIdx.foldlM
      (fun sm r => sm.addTable r.2 r.1.1 r.1.2.1 r.1.2.2) sm1 = .ok sm2 ∧
      sm2.statistics = sm.statistics ∧ sm2.toOptions = sm.toOptions ∧
      ∀ i, sm2.tabelCard.find? i = relations[i]?.map (·.2.2) := by
    induction relations using List.reverseRecOn with
    | nil => exact ⟨sm1, rfl, hst, hopt, fun i => by rw [hcard]; rfl⟩
    | append_singleton l r ih =>
      obtain ⟨s, hs, hst, hopt, hcard⟩ := ih fun r' hr' => h r' (List.mem_append_left _ hr')
      obtain ⟨n, hn⟩ := h r (List.mem_append_right _ (.head _))
      have hget : s.getNDV r.1 = .ok n := by rw [getNDV, hst]; exact hn
      have hadd : s.addTable l.length r.1 r.2.1 r.2.2 = .ok _ := addTable_eq_ok.mpr ⟨n, hget, rfl⟩
      refine ⟨{ s.enterTable l.length r.1 r.2.1 r.2.2 with
        relNDV := s.relNDV.insert (toString l.length) n }, ?_, hst, hopt, fun i => ?_⟩
      · rw [List.zipIdx_append, List.foldlM_append, List.zipIdx_singleton, zero_add]
        refine bind_eq_ok.mpr ⟨s, hs, ?_⟩
        rw [List.foldlM_cons, hadd]
        rfl
      · show (s.tabelCard.insert l.length r.2.2).find? i = _
        rw [OrdMap.find?_insert, hcard]
        split
        · next hi => rw [hi, List.getElem?_concat_length]; rfl
        · next hi =>
          rcases lt_or_gt_of_ne hi with hlt | hgt
          · rw [List.getElem?_append_left hlt]
          · rw [List.getElem?_eq_none hgt.le, List.getElem?_eq_none (by simpa using hgt)]
  refine ⟨_, by rw [enterQuery, h1]; simp only [bind, Except.bind, h2]; rfl, ?_, fun i => ?_⟩
  · rw [addPredicates_eq]
    exact hopt2
  · rw [addPredicates_eq]
    exact hcard2 i

/-! ## The collected statistics -/

variable {esets : List EqualSet} {key : EqualSet} {st : DSStatistic K}

theorem Session.find?_eq (h0 : sm0.statistics = ∅)
    (hcol : collectStatistics pow db sm0 esets = .ok sm') (h : Session sm' sm) (key : EqualSet) :
    sm.statistics.find? key = collected sm0.toOptions db esets key := by
  obtain ⟨sm'', hok, -, hfind⟩ :=
    collectStatistics_ok pow db h0 (nonempty_of_collectStatistics hcol)
  obtain rfl : sm'' = sm' := Except.ok.inj (hok.symm.trans hcol)
  rw [h.statistics_eq, hfind]

/-- A key with one entry is a table. -/
theorem eq_ofTable_of_collected {o : Options K} (h : collected o db esets key = some st)
    (h1 : key.entries.size = 1) : ∃ t, key = .ofTable t := by
  obtain ⟨e, -, hk, -⟩ := exists_of_collected h
  obtain ⟨f, -, rfl⟩ := exists_of_mem_subsetsOf hk
  rcases f.nameTable_cases with ⟨c, -, he⟩ | ⟨hs, he⟩
  · exact ⟨_, he⟩
  · exact absurd (he ▸ h1) hs

end StatisticManager

end StarCE
