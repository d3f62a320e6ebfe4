import StarCE.Manager.State

/-!
# Collecting statistics

`CollectStatistics` of `main.cpp`. For every equal set a generated query counts
the rows of each column by value, pivots the counts by table name and groups
the count vectors by frequency; the result is read into `count_num` and handed
to every subset. The query is read with the meaning SQL gives it: `GROUP BY`
lists every group once, `COALESCE(SUM(..), 0)` of no row is zero, and a
reference to a repeated output name is to its first column.
-/

namespace StarCE

/-- A row: the value of each column, `none` for NULL. -/
abbrev Row (V : Type) := String → Option V

abbrev Database (V : Type) := Table → List (Row V)

section Query

variable {V : Type} [DecidableEq V]

/-- A row of the aggregate subqueries. -/
structure Aggregate (V : Type) where
  val : V
  tbl : Table
  cnt : ℤ

/-- `SELECT c AS val, 't' AS tbl, COUNT(*) AS cnt FROM t WHERE c IS NOT NULL GROUP BY c` -/
def aggregateQuery (db : Database V) (c : TableColumn) : List (Aggregate V) :=
  let vals := (db c.tableName).filterMap fun r => r c.columnName
  vals.dedup.map fun v => ⟨v, c.tableName, vals.count v⟩

/-- The subqueries of all columns, combined by `UNION ALL`. -/
def aggregateQueries (db : Database V) (columns : List TableColumn) : List (Aggregate V) :=
  columns.flatMap (aggregateQuery db)

/-- `COALESCE(SUM(CASE WHEN tbl = 't' THEN cnt ELSE 0 END), 0)` over the group of `v`. -/
def caseSum (aggs : List (Aggregate V)) (v : V) (table : Table) : ℤ :=
  ((aggs.filter fun a => a.val = v).map fun a => if a.tbl = table then a.cnt else 0).sum

def cntColumn (table : Table) : String := table ++ "_cnt"

/-- `SELECT val, .. FROM (..) AS agg_data GROUP BY val`: the count columns of each group. -/
def pivotQuery (db : Database V) (columns : List TableColumn) : List (List ℤ) :=
  let aggs := aggregateQueries db columns
  (aggs.map (·.val)).dedup.map fun v => columns.map fun c => caseSum aggs v c.tableName

/-- The first output column of that name. -/
def reference (names : List String) (row : List ℤ) (name : String) : ℤ :=
  row.getD (names.idxOf name) 0

/-- The count vectors, each with its frequency. -/
def countNumQuery (db : Database V) (columns : List TableColumn) : List (List ℤ × ℤ) :=
  let names := columns.map fun c => cntColumn c.tableName
  let rows := (pivotQuery db columns).map fun row => names.map (reference names row)
  rows.dedup.map fun row => (row, (rows.count row : ℤ))

/-- `countMap[tableColumnPairs[t].first] = ..` for every column of a result row. -/
def readCountMap (columns : List TableColumn) (row : List ℤ) : CountMap :=
  (columns.zip row).foldl (fun m c => m.insert c.1.tableName c.2) ∅

/-- `count_num`. Without columns the text is not a query, and fetching its result throws. -/
def countNum (db : Database V) (eset : EqualSet) : Except Error (OrdMap CountMap ℤ) :=
  if eset.entries.toList = [] then .error .invalidInput
  else .ok ((countNumQuery db eset.entries.toList).foldl
    (fun m r => m.insert (readCountMap eset.entries.toList r.1) r.2) ∅)

end Query

variable {K V : Type} [Field K] [LinearOrder K] [FloorRing K] [DecidableEq V]

/-- The loop body for one equal set. -/
def collectEqualSet (pow : K → K → K) (db : Database V) (sm : StatisticManager K)
    (eset : EqualSet) : Except Error (StatisticManager K) := do
  let counts ← countNum db eset
  let sm := sm.prepareCollection eset
  let sm := sm.forSubsets fun st => st.addCounts counts.toList
  let sm ← counts.toList.foldlM (fun sm c => sm.addDegreeForSingleDS c.1 c.2) sm
  sm.finishCollection pow

def collectStatistics (pow : K → K → K) (db : Database V) (sm : StatisticManager K)
    (esets : List EqualSet) : Except Error (StatisticManager K) := do
  let sm ← esets.foldlM (collectEqualSet pow db) sm
  pure sm.calcAdjustRate

end StarCE
