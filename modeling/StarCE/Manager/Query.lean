import StarCE.Manager.State

/-!
# Estimating cardinalities

The estimation side of `StatisticManager`: `prepareEstimate`, `addTable`,
`addPredicate` and `finishEstimate` keep the state of the query being
optimised, `estimateCardinality` estimates the rows of a set of its relations.
Every lookup that throws in the code is an `Except` here. What the recorder
writes is left out; the texts it writes are built where building them can throw.
-/

namespace StarCE

/-- `idx_t(-1)`. -/
def invalidIndex : ℕ := 2 ^ 64 - 1

/-- `std::sort` of strings. -/
def sortStrings (l : List String) : List String := l.mergeSort fun s t => decide (s ≤ t)

/-- The conjuncts of a filter, split at `" AND "`; an empty last one is dropped. -/
def splitFilter (filter : String) : List String :=
  let parts := filter.splitOn " AND "
  if parts.getLast? = some "" then parts.dropLast else parts

/-- `"a WHERE b AND c"`: a list of conjuncts after a text. -/
def joinConditions (first : Bool) (sql : String) : List String → String × Bool
  | [] => (sql, first)
  | c :: rest => joinConditions false (sql ++ (if first then " WHERE " else " AND ") ++ c) rest

/-- `std::sort` by coefficient: a permutation in ascending order, with equal coefficients in an
order that is not promised. -/
structure Sorting (K : Type) [LE K] where
  order : List (K × Attribute) → List (K × Attribute)
  perm : ∀ coeffs, (order coeffs).Perm coeffs
  ascending : ∀ coeffs, (order coeffs).Pairwise fun c d => c.1 ≤ d.1

/-- Equal coefficients stay in their order. -/
def Sorting.stable {K : Type} [LinearOrder K] : Sorting K where
  order coeffs := coeffs.mergeSort fun c d => decide (c.1 ≤ d.1)
  perm coeffs := List.mergeSort_perm coeffs _
  ascending coeffs := List.pairwise_mergeSort' (fun c d : K × Attribute => c.1 ≤ d.1) coeffs

theorem Sorting.order_nil {K : Type} [LE K] (sort : Sorting K) : sort.order [] = [] :=
  (sort.perm []).eq_nil

namespace StatisticManager

variable {K : Type} [Field K] [LinearOrder K] [FloorRing K]

/-! ## The query being optimised -/

def prepareEstimate (sm : StatisticManager K) : Except Error (StatisticManager K) :=
  if sm.prepared then .error (.runtimeError "Already prepared for estimation")
  else .ok { sm with attrEsets := [], tableName := ∅, columnName := ∅, tabelCard := ∅, prepared := true }

def finishEstimate (sm : StatisticManager K) : StatisticManager K := { sm with prepared := false }

def noStatistics (eset : EqualSet) : Error := .runtimeError ("No statistics for " ++ eset.serialize)

/-- The cardinality collected for a table, which stands for its number of distinct rows. -/
def getNDV (sm : StatisticManager K) (table : Table) : Except Error ℤ :=
  match sm.statistics.find? (.ofTable table) with
  | some st => .ok (truncate st.card)
  | none => .error (noStatistics (.ofTable table))

/-- A column name without its table prefix. -/
def bareColumn (columnName : String) : String :=
  match columnName.toList.dropWhile (· ≠ '.') with
  | [] => columnName
  | _ :: rest => String.ofList rest

/-- What `addTable` has written before it asks for the table's cardinality. -/
def enterTable (sm : StatisticManager K) (tableId : ℕ) (tableName : Table)
    (columnNames : List String) (card : ℕ) : StatisticManager K :=
  { sm with
    tableName := sm.tableName.insert tableId tableName
    columnName := columnNames.zipIdx.foldl
      (fun m c => m.insert (toLex (tableId, c.2)) (bareColumn c.1)) sm.columnName
    tabelCard := sm.tabelCard.insert tableId card }

def addTable (sm : StatisticManager K) (tableId : ℕ) (tableName : Table)
    (columnNames : List String) (card : ℕ) : Except Error (StatisticManager K) := do
  let sm := sm.enterTable tableId tableName columnNames card
  let ndv ← sm.getNDV tableName
  pure { sm with relNDV := sm.relNDV.insert (toString tableId) ndv }

/-- The last index of a set that has `a`, and of one that has `b` but not `a`. -/
def findAttrs (a b : Attribute) (esets : List AttrEset) : Option ℕ × Option ℕ :=
  esets.zipIdx.foldl (fun found e =>
    if a ∈ e.1 then (some e.2, found.2)
    else if b ∈ e.1 then (found.1, some e.2)
    else found) (none, none)

def addPredicate (sm : StatisticManager K) (table1 table2 column1 column2 : ℕ) :
    StatisticManager K :=
  let a : Attribute := toLex (table1, column1)
  let b : Attribute := toLex (table2, column2)
  match findAttrs a b sm.attrEsets with
  | (none, none) => { sm with attrEsets := sm.attrEsets ++ [.ofList [a, b]] }
  | (none, some idx2) => { sm with attrEsets := sm.attrEsets.modify idx2 (·.insert a) }
  | (some idx1, none) => { sm with attrEsets := sm.attrEsets.modify idx1 (·.insert b) }
  | (some idx1, some idx2) =>
    { sm with
      attrEsets := (sm.attrEsets.modify idx1
        (·.union (sm.attrEsets.getD idx2 ∅))).eraseIdx idx2 }

/-! ## The texts of subqueries -/

def getSingleQuery (sm : StatisticManager K) (rel : ℕ) : Except Error String := do
  let table ← sm.tableName.lookup rel
  let filter ← sm.filterString.lookup rel
  let result := "SELECT COUNT(*) FROM " ++ table
  pure ((if filter = "" then result
    else result ++ " WHERE " ++ filter.replace "__table_name" table) ++ ";")

/-- The alias number of each relation: how often its table has occurred. -/
def aliasIds (sm : StatisticManager K) (rels : List ℕ) : Except Error (OrdMap ℕ ℕ) := do
  let ids ← rels.foldlM (fun (s : OrdMap ℕ ℕ × OrdMap String ℕ) rel => do
    let table ← sm.tableName.lookup rel
    let id := (s.2.find? table).getD 0 + 1
    pure (s.1.insert rel id, s.2.insert table id)) (∅, ∅)
  pure ids.1

def toAlias (sm : StatisticManager K) (ids : OrdMap ℕ ℕ) (rel : ℕ) : Except Error String := do
  let table ← sm.tableName.lookup rel
  pure (table ++ toString ((ids.find? rel).getD 0))

/-- `a.x=b.y` for every two successive attributes of a join class. -/
def joinConditionsOf (sm : StatisticManager K) (ids : OrdMap ℕ ℕ) (eset : AttrEset) :
    Except Error (List String) :=
  if eset.size = 1 then .ok []
  else do
    let attrs ← eset.toList.mapM fun attr => do
      let table ← sm.toAlias ids (ofLex attr).1
      let column ← sm.columnName.lookup attr
      pure (table ++ "." ++ column)
    pure ((attrs.zip attrs.tail).map fun c => c.1 ++ "=" ++ c.2)

def filtersOf (sm : StatisticManager K) (ids : OrdMap ℕ ℕ) (rel : ℕ) :
    Except Error (List String) := do
  let filter ← sm.filterString.lookup rel
  if filter = "" then pure []
  else do
    let table ← sm.toAlias ids rel
    pure (splitFilter (filter.replace "__table_name" table))

def getSubquery (sm : StatisticManager K) (rels : List ℕ) (attrEsets : List AttrEset) :
    Except Error String := do
  let ids ← sm.aliasIds rels
  let fromItems ← rels.mapM fun rel => do
    let table ← sm.tableName.lookup rel
    let name ← sm.toAlias ids rel
    pure (table ++ " AS " ++ name)
  let joins ← attrEsets.mapM (sm.joinConditionsOf ids)
  let filters ← rels.mapM (sm.filtersOf ids)
  let sql := "SELECT COUNT(*) FROM " ++ ",".intercalate (sortStrings fromItems)
  let (sql, first) := joinConditions true sql (sortStrings joins.flatten)
  let (sql, _) := joinConditions first sql (sortStrings filters.flatten)
  pure (sql ++ ";")

def getTableCard (sm : StatisticManager K) (idx : ℕ) : Except Error ℤ := do
  let filter ← sm.filterString.lookup idx
  let card := sm.tabelCard.lookup idx
  if filter = "" then card.map (↑)
  else do
    if sm.isRecordingSingleQuery then
      let _ ← sm.getSingleQuery idx
    if sm.useSingleTableCard then do
      let query ← sm.getSingleQuery idx
      match sm.singleQueryCard.find? query with
      | some card => pure card
      | none => .error (.runtimeError ("No single table card for table: " ++ query))
    else card.map (↑)

/-! ## Join classes -/

/-- The relations of a set of attributes. -/
def AttrEset.rels (eset : AttrEset) : List ℕ := eset.toList.map fun a => (ofLex a).1

/-- The attributes of some relations. -/
def restrict (eset : AttrEset) (rels : List ℕ) : AttrEset :=
  .ofList (eset.toList.filter fun a => (ofLex a).1 ∈ rels)

def getAttrEsetFromRels (sm : StatisticManager K) (rels : List ℕ) : List AttrEset :=
  let result := (sm.attrEsets.map (restrict · rels)).filter fun eset => 1 < eset.size
  let vis := fun rel => result.any fun eset => rel ∈ AttrEset.rels eset
  result ++ (rels.filter fun rel => ¬vis rel).map fun rel => .ofList [toLex (rel, 0)]

/-- The entries of an equal set and the relation each table name stands for. -/
def getEqualSetFromAttrEset (sm : StatisticManager K) (attrEset : AttrEset) :
    Except Error (EqualSet × OrdMap String ℕ) :=
  match attrEset.toList with
  | [attr] => do
    let table ← sm.tableName.lookup (ofLex attr).1
    pure (.ofTable table, (∅ : OrdMap String ℕ).insert table (ofLex attr).1)
  | attrs => attrs.foldlM (fun (s : EqualSet × OrdMap String ℕ) attr => do
      let table ← sm.tableName.lookup (ofLex attr).1
      let column ← sm.columnName.lookup attr
      pure (⟨s.1.entries.insert ⟨table, column⟩⟩, s.2.insert table (ofLex attr).1))
      (⟨∅⟩, ∅)

def canMerge (eset1 eset2 : AttrEset) : Bool :=
  (AttrEset.rels eset1).any fun r => r ∈ AttrEset.rels eset2

def getCommonRelation (eset1 eset2 : AttrEset) : ℕ :=
  ((AttrEset.rels eset1).find? fun r => r ∈ AttrEset.rels eset2).getD invalidIndex

def noSubset (subset eset : EqualSet) : Error :=
  .runtimeError ("No statistics for subset " ++ subset.serialize ++ " of " ++ eset.serialize)

/-- The statistics of one chunk. -/
def chunkStatistics (sm : StatisticManager K) (eset subset : EqualSet) :
    Except Error (DSStatistic K) :=
  match sm.statistics.find? subset with
  | some st => .ok st
  | none => .error (noSubset subset eset)

/-- `result.MergeByCenter(ds)` for the chunks after the first. -/
def mergeChunk (sm : StatisticManager K) (eset : EqualSet) (result : DSStatistic K)
    (subset : EqualSet) : Except Error (DSStatistic K) := do
  let ds ← sm.chunkStatistics eset subset
  result.mergeByCenter ds

def getStatisticsFromEset (sm : StatisticManager K) (eset : EqualSet) :
    Except Error (DSStatistic K) :=
  if sm.enableStarSplit then do
    match ← eset.split sm.maxStarSize with
    | [] => pure (.ofTables [] sm.compressPrecision)
    | subset :: subsets => do
      let ds ← sm.chunkStatistics eset subset
      subsets.foldlM (sm.mergeChunk eset) { ds with precision := sm.compressPrecision }
  else
    match sm.statistics.find? eset with
    | some st => .ok st
    | none => .error (noStatistics eset)

/-- The statistics of a join class, keyed by relation ids. -/
def classStatistics (sm : StatisticManager K) (attrEset : AttrEset) :
    Except Error (DSStatistic K) := do
  let (eset, tableIdx) ← sm.getEqualSetFromAttrEset attrEset
  let st ← sm.getStatisticsFromEset eset
  st.rekey tableIdx

/-! ## Filters -/

/-- `PredMethod == 0`: merge with the filtered rows of a relation. -/
def filterRows (sm : StatisticManager K) (st : DSStatistic K) (attr : Attribute) :
    Except Error (DSStatistic K) := do
  let rel := (ofLex attr).1
  let filter ← sm.filterString.lookup rel
  if filter = "" then pure st
  else do
    let card ← sm.getTableCard rel
    let table ← sm.tableName.lookup rel
    let _ ← sm.getNDV table
    let single := DSStatistic.single (toString rel) (card : K) sm.compressPrecision
    let single ← single.adjustToAverage sm.relNDV sm.predicateAdjustRate
    st.merge single (toString rel)

/-- The calls `PredMethod == 2` makes for its filter sequence, from the rank `pos` on. -/
def blendCalls (overlapFactor tailFactor : K) (fcVals : ℤ) : ℤ → List (Bucket K) → List (K × ℤ)
  | _, [] => []
  | pos, b :: rest =>
    let overlap := if pos < fcVals then min b.count (fcVals - pos) else 0
    let tail := b.count - overlap
    (if pos < fcVals then [(overlapFactor, overlap)] else []) ++
      (if 0 < tail ∧ 0 < tailFactor then [(tailFactor, tail)] else []) ++
      blendCalls overlapFactor tailFactor fcVals (pos + b.count) rest

/-- `PredMethod == 2`: merge with a blend of the filtered rows and the uniform coefficient. -/
def filterBlend (sm : StatisticManager K) (st : DSStatistic K) (attr : Attribute) :
    Except Error (DSStatistic K) := do
  let rel := (ofLex attr).1
  let filter ← sm.filterString.lookup rel
  if filter = "" then pure st
  else do
    let filteredCard ← sm.getTableCard rel
    let table ← sm.tableName.lookup rel
    let ndv ← sm.getNDV table
    let filterCoeff := (filteredCard : K) / (ndv : K)
    let k := sm.predicateAdjustRate
    let calls := blendCalls (filterCoeff * (1 - k) + 1 * k) (filterCoeff * (1 - k)) filteredCard 0
      (st.dsOf (toString rel)).buckets
    let filterDs := ((∅ : DegreeSequence K).addDegrees calls sm.compressPrecision).finishCollection
    let single := DSStatistic.single (toString rel) (filteredCard : K) sm.compressPrecision
    let st := st.setDs (toString rel) (st.dsOf (toString rel))
    st.merge (single.setDs (toString rel) filterDs) (toString rel)

/-- The coefficients of the filtered relations of a class. -/
def tableCoeffs (sm : StatisticManager K) (attrs : List Attribute) :
    Except Error (List (K × Attribute)) :=
  attrs.foldlM (fun coeffs attr => do
    let filter ← sm.filterString.lookup (ofLex attr).1
    if filter = "" then pure coeffs
    else do
      let card ← sm.getTableCard (ofLex attr).1
      let table ← sm.tableName.lookup (ofLex attr).1
      let ndv ← sm.getNDV table
      pure (coeffs ++ [((card : K) / (ndv : K), attr)])) []

/-- One coefficient, by its position in ascending order: its root is multiplied in, and the
product kept above the reciprocal of the cardinality of the tables so far. -/
def refineCoeff (pow : K → K → K) (sm : StatisticManager K) (s : K × AttrEset)
    (c : (K × Attribute) × ℕ) : Except Error (K × AttrEset) := do
  let coeff := s.1 * pow c.1.1 (1 / ((c.2 + 1 : ℕ) : K))
  let refineAttrEset := s.2.insert c.1.2
  let (refineEset, _) ← sm.getEqualSetFromAttrEset refineAttrEset
  let coeff := match sm.statistics.find? refineEset with
    | some st => if 0 < st.card then max coeff (1 / st.card) else coeff
    | none => coeff
  pure (coeff, refineAttrEset)

/-- `PredMethod == 1` and every other value: one coefficient for the whole class. -/
def filterUniform (pow : K → K → K) (sort : Sorting K) (sm : StatisticManager K) (attrEset : AttrEset)
    (st : DSStatistic K) : Except Error (DSStatistic K) := do
  let coeffs ← sm.tableCoeffs attrEset.toList
  let (coeff, _) ← (sort.order coeffs).zipIdx.foldlM (refineCoeff pow sm) ((1 : K), (∅ : AttrEset))
  pure (st.applyFilterCoefficient coeff)

/-- The filters of one join class. -/
def filterClass (pow : K → K → K) (sort : Sorting K) (sm : StatisticManager K) (attrEset : AttrEset)
    (st : DSStatistic K) : Except Error (DSStatistic K) :=
  if sm.predMethod = 0 then attrEset.toList.foldlM sm.filterRows st
  else if sm.predMethod = 2 then attrEset.toList.foldlM sm.filterBlend st
  else filterUniform pow sort sm attrEset st

/-! ## Merging the classes -/

structure MergeLoop (K : Type) where
  parent : List ℕ
  attrEsets : List AttrEset
  dsStats : List (DSStatistic K)

/-- `while (parent[root] != root) root = parent[root]`. -/
def rootOf (parent : List ℕ) : ℕ → ℕ → ℕ
  | 0, i => i
  | fuel + 1, i =>
    let p := parent.getD i i
    if p = i then i else rootOf parent fuel p

def MergeLoop.root (s : MergeLoop K) (i : ℕ) : ℕ := rootOf s.parent s.parent.length i

/-- The merge of two classes: both are adjusted, then the second goes into the first. -/
def mergeRoots (sm : StatisticManager K) (st1 st2 : DSStatistic K) (commonRel : ℕ) :
    Except Error (DSStatistic K × DSStatistic K) := do
  let st1 ← st1.adjustToAverage sm.relNDV sm.adjustRate
  let st2 ← st2.adjustToAverage sm.relNDV sm.adjustRate
  let st1 := st1.normalizeSubOneDegrees
  let st2 := st2.normalizeSubOneDegrees
  let merged ← st1.merge st2 (toString commonRel)
  pure (merged, st2)

/-- The body of the loop over pairs of classes. -/
def mergePair (sm : StatisticManager K) (s : MergeLoop K) (ij : ℕ × ℕ) :
    Except Error (MergeLoop K) :=
  if canMerge (s.attrEsets.getD ij.1 ∅) (s.attrEsets.getD ij.2 ∅) then
    let root1 := s.root ij.1
    let root2 := s.root ij.2
    if root1 = root2 then .ok s
    else do
      let eset1 := s.attrEsets.getD root1 ∅
      let eset2 := s.attrEsets.getD root2 ∅
      let (merged, other) ← sm.mergeRoots (s.dsStats.getD root1 default)
        (s.dsStats.getD root2 default) (getCommonRelation eset1 eset2)
      pure
        { parent := s.parent.set root2 root1
          attrEsets := s.attrEsets.set root1 (eset1.union eset2)
          dsStats := (s.dsStats.set root2 other).set root1 merged }
  else .ok s

/-- The pairs `i < j` in the order of the two loops. -/
def classPairs (n : ℕ) : List (ℕ × ℕ) :=
  (List.range n).flatMap fun i => ((List.range n).filter (i < ·)).map (i, ·)

/-- The product of the cardinalities of the roots. -/
def MergeLoop.card (s : MergeLoop K) : K :=
  (((List.range s.parent.length).filter fun i => s.parent.getD i i = i).map fun i =>
    (s.dsStats.getD i default).card).prod

/-- The estimate from the statistics. -/
def estimateFromStats (pow : K → K → K) (sort : Sorting K) (sm : StatisticManager K) (attrEsets : List AttrEset) :
    Except Error K := do
  let dsStats ← attrEsets.mapM sm.classStatistics
  let dsStats ← (attrEsets.zip dsStats).mapM fun c => filterClass pow sort sm c.1 c.2
  let s ← (classPairs attrEsets.length).foldlM sm.mergePair
    { parent := List.range attrEsets.length, attrEsets, dsStats }
  pure s.card

def estimateCardinality (pow : K → K → K) (sort : Sorting K) (sm : StatisticManager K) (rels : List ℕ) :
    Except Error K := do
  let attrEsets := sm.getAttrEsetFromRels rels
  if sm.isRecordingSubquery ∨ sm.isRecordEstimateTime then
    let _ ← sm.getSubquery rels attrEsets
  if sm.useSubqueryCard then do
    let subquery ← sm.getSubquery rels attrEsets
    match sm.subqueryCard.find? subquery with
    | none => .error (.runtimeError ("No subquery card for " ++ subquery))
    | some card => do
      if sm.isCollectingRelErr then
        let _ ← sm.realCard.lookup subquery
      pure (card : K)
  else estimateFromStats pow sort sm attrEsets

end StatisticManager

end StarCE
