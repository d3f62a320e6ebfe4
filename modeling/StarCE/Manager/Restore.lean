import StarCE.Manager.Serialize
import StarCE.Manager.Relations
import StarCE.Join.RowCount

/-!
# Estimates from saved statistics

A restored manager lacks the statistic of no table and what only a collection
reads. No estimate sees these (`view`): every call of a query commutes with
forgetting them, so a query that is prepared on the restored manager takes the
course it takes on the original.
-/

namespace StarCE

variable {K V : Type} [Field K] [LinearOrder K] [FloorRing K] [DecidableEq V]

namespace EqualSet

theorem nameTable_ne_nil {e : EqualSet} (h : e.entries.toList ≠ []) :
    e.nameTable.entries.toList ≠ [] := by
  rcases e.nameTable_cases with ⟨c, -, he⟩ | ⟨-, he⟩
  · rw [he]
    exact List.cons_ne_nil _ _
  · rwa [he]

/-- No chunk of a split is empty. -/
theorem splitLoop_ne_nil {maxSize : ℤ} (hM : 3 ≤ maxSize) (fuel : ℕ) (remain : ℤ)
    (l : List TableColumn) : ∀ c ∈ splitLoop maxSize fuel remain l, c.entries.toList ≠ [] := by
  induction fuel generalizing remain l with
  | zero => simp [splitLoop]
  | succ fuel ih =>
    cases l with
    | nil => simp [splitLoop]
    | cons x l =>
      rw [splitLoop.eq_3 _ _ _ _ (List.cons_ne_nil x l)]
      refine List.forall_mem_cons.mpr ⟨nameTable_ne_nil fun h => ?_, ih _ _⟩
      set size := if remain - maxSize = 1 then maxSize - 1 else maxSize with hsize
      have h2 : 2 ≤ size := by
        rw [hsize]
        split <;> omega
      obtain ⟨n, hn⟩ : ∃ n, size.toNat = n + 1 := ⟨size.toNat - 1, by omega⟩
      have hx : x ∈ OrdSet.ofList ((x :: l).take size.toNat) := by
        rw [OrdSet.mem_ofList, hn]
        exact .head _
      rw [OrdSet.mem_def, h] at hx
      cases hx

end EqualSet

namespace StatisticManager

variable {sm sm' sm0 : StatisticManager K} {pow : K → K → K} {sort : Sorting K} {db : Database V}
  {esets : List EqualSet} {lib : JsonLibrary K}

/-! ## What an estimate sees -/

/-- The manager without what no estimate reads. -/
def view (sm : StatisticManager K) : StatisticManager K :=
  { sm with
    statistics := sm.statistics.erase ⟨∅⟩
    eset := default
    subset := []
    skip := []
    singleDS := ∅
    rateSum := 0
    rateCount := 0 }

section

omit [LinearOrder K] [FloorRing K]

theorem find?_view {key : EqualSet} (h : key.entries.toList ≠ []) :
    sm.view.statistics.find? key = sm.statistics.find? key := by
  unfold view
  rw [OrdMap.find?_erase, if_neg]
  rintro rfl
  exact h rfl

theorem view_congr {a b : StatisticManager K} (hoptions : a.toOptions = b.toOptions)
    (hquery : a.toQueryState = b.toQueryState) (hrate : a.adjustRate = b.adjustRate)
    (hpredicate : a.predicateAdjustRate = b.predicateAdjustRate)
    (h : ∀ key : EqualSet, key.entries.toList ≠ [] →
      a.statistics.find? key = b.statistics.find? key) : a.view = b.view := by
  have hstat : a.statistics.erase ⟨∅⟩ = b.statistics.erase ⟨∅⟩ := by
    refine OrdMap.ext_find? fun key => ?_
    rw [OrdMap.find?_erase, OrdMap.find?_erase]
    split
    · rfl
    · next hk => exact h key fun hnil => hk (EqualSet.ext_entries fun c => by
        rw [OrdSet.mem_def, hnil]
        simp)
  unfold view
  rw [hstat, hoptions, hquery, hrate, hpredicate]

end

theorem getNDV_view (table : Table) : sm.view.getNDV table = sm.getNDV table := by
  unfold getNDV
  rw [find?_view (List.cons_ne_nil _ _)]

omit [LinearOrder K] [FloorRing K] in
theorem chunkStatistics_view {eset subset : EqualSet} (h : subset.entries.toList ≠ []) :
    sm.view.chunkStatistics eset subset = sm.chunkStatistics eset subset := by
  unfold chunkStatistics
  rw [find?_view h]

theorem getStatisticsFromEset_view {eset : EqualSet} (h : eset.entries.toList ≠ []) :
    sm.view.getStatisticsFromEset eset = sm.getStatisticsFromEset eset := by
  unfold getStatisticsFromEset
  show (if sm.enableStarSplit = true then _ else _) = _
  split
  · unfold EqualSet.split
    show (if sm.maxStarSize < 3 then _ else _) >>= _ = (if sm.maxStarSize < 3 then _ else _) >>= _
    split
    · rfl
    · next hM =>
      have hne := EqualSet.splitLoop_ne_nil (not_lt.mp hM) eset.entries.size eset.entries.size
        eset.entries.toList
      show (Except.ok (EqualSet.splitLoop sm.maxStarSize eset.entries.size eset.entries.size
          eset.entries.toList) >>= _) = (Except.ok (EqualSet.splitLoop sm.maxStarSize
          eset.entries.size eset.entries.size eset.entries.toList) >>= _)
      generalize EqualSet.splitLoop sm.maxStarSize eset.entries.size eset.entries.size
        eset.entries.toList = chunks at hne
      cases chunks with
      | nil => rfl
      | cons c chunks =>
        obtain ⟨hc, hchunks⟩ := List.forall_mem_cons.mp hne
        show (sm.view.chunkStatistics eset c >>= _) = (sm.chunkStatistics eset c >>= _)
        rw [chunkStatistics_view hc]
        refine bind_congr fun ds => foldlM_congr fun b d hd => ?_
        unfold mergeChunk
        rw [chunkStatistics_view (hchunks d hd)]
  · rw [find?_view h]

omit [Field K] [LinearOrder K] [FloorRing K] in
/-- The equal set of a class has an entry. -/
theorem ne_nil_of_getEqualSetFromAttrEset {A : AttrEset} (hA : ∃ a, a ∈ A)
    {r : EqualSet × OrdMap String ℕ} (h : sm.getEqualSetFromAttrEset A = .ok r) :
    r.1.entries.toList ≠ [] := by
  obtain ⟨idx, hok, -⟩ := getEqualSetFromAttrEset_ok (named_of_getEqualSetFromAttrEset h)
  obtain rfl := Except.ok.inj (hok.symm.trans h)
  intro hnil
  exact size_columnsOf_ne_zero sm hA (by rw [OrdSet.size, hnil]; rfl)

theorem classStatistics_view {A : AttrEset} (hA : ∃ a, a ∈ A) :
    sm.view.classStatistics A = sm.classStatistics A := by
  unfold classStatistics
  show (sm.getEqualSetFromAttrEset A >>= _) = _
  cases hok : sm.getEqualSetFromAttrEset A with
  | error e => rfl
  | ok r =>
    show (sm.view.getStatisticsFromEset r.1 >>= _) = (sm.getStatisticsFromEset r.1 >>= _)
    rw [getStatisticsFromEset_view (ne_nil_of_getEqualSetFromAttrEset hA hok)]

theorem filterRows_view : sm.view.filterRows = sm.filterRows := by
  funext st attr
  unfold filterRows
  simp only [getNDV_view]
  rfl

theorem filterBlend_view : sm.view.filterBlend = sm.filterBlend := by
  funext st attr
  unfold filterBlend
  simp only [getNDV_view]
  rfl

theorem tableCoeffs_view (attrs : List Attribute) :
    sm.view.tableCoeffs attrs = sm.tableCoeffs attrs := by
  unfold tableCoeffs
  simp only [getNDV_view]
  rfl

omit [FloorRing K] in
theorem refineCoeff_view : refineCoeff pow sm.view = refineCoeff pow sm := by
  funext s c
  unfold refineCoeff
  show (sm.getEqualSetFromAttrEset (s.2.insert c.1.2) >>= _) =
    (sm.getEqualSetFromAttrEset (s.2.insert c.1.2) >>= _)
  cases hok : sm.getEqualSetFromAttrEset (s.2.insert c.1.2) with
  | error e => rfl
  | ok r =>
    have hne := ne_nil_of_getEqualSetFromAttrEset ⟨c.1.2, OrdSet.mem_insert.mpr (.inl rfl)⟩ hok
    simp only [find?_view hne, bind, Except.bind]

theorem filterClass_view (A : AttrEset) (st : DSStatistic K) :
    filterClass pow sort sm.view A st = filterClass pow sort sm A st := by
  unfold filterClass filterUniform
  rw [filterRows_view, filterBlend_view, tableCoeffs_view, refineCoeff_view]
  rfl

theorem estimateFromStats_view {classes : List AttrEset} (h : ∀ A ∈ classes, ∃ a, a ∈ A) :
    estimateFromStats pow sort sm.view classes = estimateFromStats pow sort sm classes := by
  unfold estimateFromStats
  rw [mapM_congr fun A hA => classStatistics_view (h A hA)]
  simp only [filterClass_view]
  rfl

/-- No estimate sees the rest of a manager. -/
theorem estimateCardinality_view (rels : List ℕ) :
    estimateCardinality pow sort sm.view rels = estimateCardinality pow sort sm rels := by
  unfold estimateCardinality
  show (if sm.isRecordingSubquery = true ∨ sm.isRecordEstimateTime = true then _ else _) = _
  have h : estimateFromStats pow sort sm.view (sm.getAttrEsetFromRels rels) =
      estimateFromStats pow sort sm (sm.getAttrEsetFromRels rels) :=
    estimateFromStats_view fun A hA => exists_mem_of_getAttrEsetFromRels hA
  have hclasses : sm.view.getAttrEsetFromRels rels = sm.getAttrEsetFromRels rels := rfl
  rw [hclasses, h]
  rfl

/-! ## The calls of a query -/

/-- What is called, or assigned, between two estimates. -/
inductive QueryCall (K : Type) where
  | prepareEstimate
  | addTable (tableId : ℕ) (table : Table) (columns : List String) (card : ℕ)
  | addPredicate (p : JoinPredicate)
  | setFilters (filterString : OrdMap ℕ String)
  | setOptions (o : Options K)
  | setRates (adjustRate predicateAdjustRate : K)
  | finishEstimate

def call (sm : StatisticManager K) : QueryCall K → Except Error (StatisticManager K)
  | .prepareEstimate => sm.prepareEstimate
  | .addTable tableId table columns card => sm.addTable tableId table columns card
  | .addPredicate p => .ok (sm.addPredicate p.table1 p.table2 p.column1 p.column2)
  | .setFilters filterString => .ok { sm with filterString }
  | .setOptions o => .ok { sm with toOptions := o }
  | .setRates adjustRate predicateAdjustRate => .ok { sm with adjustRate, predicateAdjustRate }
  | .finishEstimate => .ok sm.finishEstimate

/-- A query: its calls, and the estimate of some relations after them. -/
def query (pow : K → K → K) (sort : Sorting K) (sm : StatisticManager K) (calls : List (QueryCall K))
    (rels : List ℕ) : Except Error K := do
  let sm ← calls.foldlM call sm
  estimateCardinality pow sort sm rels

theorem call_view (c : QueryCall K) : sm.view.call c = (sm.call c).map view := by
  cases c with
  | prepareEstimate =>
    show sm.view.prepareEstimate = sm.prepareEstimate.map view
    unfold prepareEstimate
    show (if sm.prepared = true then _ else _) = _
    split <;> rfl
  | addTable tableId table columns card =>
    show (sm.view.enterTable tableId table columns card).getNDV table >>= _ =
      ((sm.enterTable tableId table columns card).getNDV table >>= _).map view
    have h : (sm.view.enterTable tableId table columns card).getNDV table =
        (sm.enterTable tableId table columns card).getNDV table := getNDV_view table
    rw [h]
    cases (sm.enterTable tableId table columns card).getNDV table <;> rfl
  | addPredicate p =>
    show Except.ok _ = Except.ok _
    rw [addPredicate_eq, addPredicate_eq]
    rfl
  | _ => rfl

theorem calls_view (calls : List (QueryCall K)) :
    calls.foldlM call sm.view = (calls.foldlM call sm).map view := by
  induction calls generalizing sm with
  | nil => rfl
  | cons c calls ih =>
    rw [List.foldlM_cons, List.foldlM_cons, call_view]
    cases sm.call c with
    | error e => rfl
    | ok s => exact ih

theorem query_view (calls : List (QueryCall K)) (rels : List ℕ) :
    query pow sort sm.view calls rels = query pow sort sm calls rels := by
  unfold query
  rw [calls_view]
  cases calls.foldlM call sm with
  | error e => rfl
  | ok s => exact estimateCardinality_view rels

theorem query_congr {a b : StatisticManager K} (calls : List (QueryCall K)) (rels : List ℕ)
    (hoptions : a.toOptions = b.toOptions) (hquery : a.toQueryState = b.toQueryState)
    (hrate : a.adjustRate = b.adjustRate) (hpredicate : a.predicateAdjustRate = b.predicateAdjustRate)
    (h : ∀ key : EqualSet, key.entries.toList ≠ [] →
      a.statistics.find? key = b.statistics.find? key) :
    query pow sort a calls rels = query pow sort b calls rels := by
  rw [← query_view, view_congr hoptions hquery hrate hpredicate h, query_view]

/-! ## Restoring a collection -/

/-- A collected statistic can be read back. -/
theorem readable_starStat (p : K) {e key : EqualSet} (hd : key.Distinct)
    (hne : key.entries.toList ≠ []) : Readable p (starStat p db e key) := by
  have hkeyed : (starStat p db e key).Keyed :=
    ⟨(starStat_tables p db e key).symm ▸ hd, starStat_listed p db e key⟩
  refine ⟨hkeyed, ⟨?_, fun t ht => ?_⟩, ?_, starStat_precision p db e key⟩
  · rw [starStat, DSStatistic.finishCollection_centralDs]
    rfl
  · rw [starStat_tables] at ht
    rw [starStat_dsOf_count, List.count_eq_one_of_mem hd ht]
    rfl
  · rw [starStat_tables]
    exact fun h => hne (List.map_eq_nil_iff.mp h)

/-- The two rates of a collection that starts afresh are one. -/
theorem predicateAdjustRate_eq (h0 : sm.predicateAdjustRate = sm.adjustRate)
    (h : collectStatistics pow db sm esets = .ok sm') :
    sm'.predicateAdjustRate = sm'.adjustRate := by
  obtain ⟨mid, hmid, h⟩ := bind_eq_ok.mp h
  obtain rfl := Except.ok.inj h
  have hrates : mid.predicateAdjustRate = mid.adjustRate := by
    refine foldlM_keeps (I := fun s : StatisticManager K => s.predicateAdjustRate = s.adjustRate)
      hmid h0 fun e he s s' hs hok => ?_
    have hne : e.entries.toList ≠ [] := fun hnil => by
      rw [collectEqualSet, countNum, if_pos hnil] at hok
      cases hok
    obtain ⟨g, hg, hcal⟩ := collectEqualSet_gathered pow db s hne
    obtain ⟨s'', hok', hr⟩ := hg.calibrate_ok pow
    obtain rfl : s'' = s' := Except.ok.inj (hok'.symm.trans (hcal.symm.trans hok))
    have hrates := hg.ready.rates
    rw [hr]
    show g.predicateAdjustRate = g.adjustRate
    rw [hrates.1, hrates.2.1, hs]
  unfold calcAdjustRate
  split
  · rfl
  · exact hrates

/-- Collected statistics, saved and restored into a fresh manager of the same precision, are the
same, and every query has the same estimate on them. -/
theorem restore_collected {o o' : Options K} (hp : o'.compressPrecision = o.compressPrecision)
    (hd : ∀ e ∈ esets, e.Distinct) (hne : ∃ e ∈ esets, ∃ key ∈ o.subsetsOf e, key.entries.toList ≠ [])
    (hcol : collectStatistics pow db { initial with toOptions := o } esets = .ok sm)
    (hlib : sm.Restorable lib) :
    ∃ str restored, sm.serialize lib = .ok str ∧
      deserialize lib { initial with toOptions := o' } str = .ok restored ∧
      (∀ key, key.entries.toList ≠ [] →
        restored.statistics.find? key = sm.statistics.find? key) ∧
      restored.adjustRate = sm.adjustRate ∧
      restored.predicateAdjustRate = sm.predicateAdjustRate ∧
      ∀ (pow' : K → K → K) (sort : Sorting K) (q : Options K) (calls : List (QueryCall K))
        (rels : List ℕ), query pow' sort { restored with toOptions := q } calls rels =
          query pow' sort { sm with toOptions := q } calls rels := by
  have hcols := nonempty_of_collectStatistics hcol
  obtain ⟨sm', hok, hframe, hfind⟩ := collectStatistics_ok pow db
    (show ({ initial with toOptions := o } : StatisticManager K).statistics = ∅ from rfl) hcols
  obtain rfl : sm' = sm := Except.ok.inj (hok.symm.trans hcol)
  have hread : ∀ key st, sm'.statistics.find? key = some st → key.entries.toList ≠ [] →
      Readable o'.compressPrecision st := by
    intro key st hst hkey
    obtain ⟨e, he, hk, rfl⟩ := exists_of_collected ((hfind key).symm.trans hst)
    obtain ⟨f, hf, rfl⟩ := exists_of_mem_subsetsOf hk
    have hdk : f.nameTable.Distinct := by
      show f.nameTable.getTableList.Nodup
      rw [EqualSet.getTableList_nameTable]
      exact (hd e he).subset hf
    rw [hp]
    exact readable_starStat _ hdk hkey
  obtain ⟨e, he, key, hk, hkey⟩ := hne
  have hsome : (sm'.statistics.find? key).isSome := by
    rw [hfind]
    exact isSome_collected he hk
  obtain ⟨str, statistics, hser, hdes, hsame⟩ := deserialize_serialize
    (show ({ initial with toOptions := o' } : StatisticManager K).statistics = ∅ from rfl) hread
    ⟨key, hkey, hsome⟩ hlib
  have hrate := predicateAdjustRate_eq (show ({ initial with toOptions := o } :
    StatisticManager K).predicateAdjustRate = _ from rfl) hcol
  refine ⟨str, _, hser, hdes, hsame, rfl, hrate.symm, fun pow' sort q calls rels => ?_⟩
  exact query_congr calls rels (by rfl) hframe.query.symm (by rfl) hrate.symm hsame

section Example

/-- Every table holds the keys 1, 1 and 2. -/
def doubleRows : Database ℕ := fun _ => [1, 1, 2].map fun n _ => some n

def savedPair : Except Error (StatisticManager ℚ) :=
  collectStatistics (fun x _ => x) doubleRows { initial with toOptions := { compressPrecision := 2 } }
    [twoColumns]

/-- The texts of the doubles that are written. -/
def doubleText (x : ℚ) : String := toString x.num ++ (if x.den = 1 then ".0" else "e-1")

/-- What is written of a manager: its own value and those of its statistics. -/
def writtenValues (sm : StatisticManager ℚ) : List (Json ℚ) :=
  sm.serializeToJson.toOption.toList ++
    sm.statistics.toList.filterMap fun s => s.2.serializeToJson.toOption

def pairLibrary (sm : StatisticManager ℚ) : JsonLibrary ℚ :=
  Json.tableLibrary doubleText EqualSet.quote (writtenValues sm)

theorem restore_collected_pair : ∃ (sm : StatisticManager ℚ) (str : String)
    (restored : StatisticManager ℚ), savedPair = .ok sm ∧
    sm.serialize (pairLibrary sm) = .ok str ∧
    deserialize (pairLibrary sm) { initial with toOptions := { compressPrecision := 2 } } str =
      .ok restored ∧
    restored.statistics.find? twoColumns = sm.statistics.find? twoColumns ∧
    restored.adjustRate = 1 ∧ restored.predicateAdjustRate = 1 := by
  have hrun : (do
      let sm ← savedPair
      pure (decide (((writtenValues sm).map (Json.text doubleText EqualSet.quote)).Nodup ∧
        sm.adjustRate = 1 ∧ sm.predicateAdjustRate = 1))) = .ok true := by
    decide +kernel
  obtain ⟨sm, hsm, hrun⟩ := bind_eq_ok.mp hrun
  obtain ⟨hnodup, hrate, hpredicate⟩ := of_decide_eq_true (Except.ok.inj hrun)
  have hlib : sm.Restorable (pairLibrary sm) := by
    refine ⟨fun j hj => ?_, fun key st hst hkey j hj => ?_⟩
    · apply Json.roundTrips_tableLibrary _ _ hnodup
      rw [writtenValues, hj]
      exact List.mem_append_left _ (.head _)
    · apply Json.roundTrips_tableLibrary _ _ hnodup
      refine List.mem_append_right _ (List.mem_filterMap.mpr ⟨(key, st), OrdMap.mem_toList.mpr hst, ?_⟩)
      rw [hj]
      rfl
  obtain ⟨str, restored, hser, hdes, hsame, hrate', hpredicate', -⟩ := restore_collected
    (show ({ compressPrecision := 2 } : Options ℚ).compressPrecision = _ from rfl)
    (by simp only [List.mem_singleton, forall_eq]; unfold EqualSet.Distinct; decide)
    ⟨twoColumns, .head _, twoColumns, by decide +kernel, by decide⟩ hsm hlib
  exact ⟨sm, str, restored, hsm, hser, hdes, hsame _ (by decide), hrate'.trans hrate,
    hpredicate'.trans hpredicate⟩

end Example

end StatisticManager

end StarCE
