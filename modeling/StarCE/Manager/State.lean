import StarCE.Stat.DSStatistic

/-!
# The statistic manager

`class StatisticManager` of `starce.hpp`: its fields and the operations that
collect statistics. The vector `subsetStatistics` holds pointers into
`statistics`, so an update of an entry that is not skipped is an update of the
map (`modifyStatistic`). The recorder fields that no result depends on
(`SingleQueries`, `Subqueries`, `esetSizeCount` and the timings) are left out.
-/

namespace StarCE

/-- A relation id and a column id. -/
abbrev Attribute := ℕ ×ₗ ℕ

abbrev AttrEset := OrdSet Attribute

/-- A count for every table, as read from one row of the collection query. -/
abbrev CountMap := OrdMap Table ℤ

/-- The public switches and tables of known cardinalities. -/
structure Options (K : Type) where
  isRecordingSubquery : Bool := false
  isRecordEstimateTime : Bool := false
  isRecordingSingleQuery : Bool := true
  useSubqueryCard : Bool := false
  useSingleTableCard : Bool := false
  subqueryCard : OrdMap String ℤ := ∅
  singleQueryCard : OrdMap String ℤ := ∅
  isCollectingRelErr : Bool := false
  realCard : OrdMap String ℤ := ∅
  compressPrecision : K
  enableStarSplit : Bool := false
  maxStarSize : ℤ := 3
  predMethod : ℤ := 0

/-- What is known of the query being optimised. -/
structure QueryState where
  attrEsets : List AttrEset := []
  tableName : OrdMap ℕ String := ∅
  columnName : OrdMap Attribute String := ∅
  tabelCard : OrdMap ℕ ℕ := ∅
  filterString : OrdMap ℕ String := ∅
  relNDV : OrdMap String ℤ := ∅
  prepared : Bool := false

structure StatisticManager (K : Type) extends Options K, QueryState where
  statistics : OrdMap EqualSet (DSStatistic K) := ∅
  eset : EqualSet := default
  subset : List EqualSet := []
  skip : List Bool := []
  singleDS : OrdMap Table (DegreeSequence K) := ∅
  adjustRate : K
  predicateAdjustRate : K
  rateSum : K
  rateCount : ℤ := 0

/-- `MaxStarSize` as a `size_t`: a negative value is above every size. -/
def Options.sizeLimit {K : Type} (o : Options K) (eset : EqualSet) : ℕ :=
  if o.maxStarSize < 0 then eset.entries.size else o.maxStarSize.toNat

/-- The subsets of an equal set that statistics are collected for. -/
def Options.subsetsOf {K : Type} (o : Options K) (eset : EqualSet) : List EqualSet :=
  if o.enableStarSplit then eset.getAllSubsetLimitSize (o.sizeLimit eset)
  else eset.getAllSubset

namespace StatisticManager

variable {K : Type} [Field K] [LinearOrder K] [FloorRing K]

/-- The state `GetInstance` starts from. -/
def initial : StatisticManager K :=
  { adjustRate := 1 / 10, predicateAdjustRate := 1 / 10, rateSum := 0, compressPrecision := 2 }

instance : Inhabited (StatisticManager K) := ⟨initial⟩

def modifyStatistic (sm : StatisticManager K) (sub : EqualSet)
    (f : DSStatistic K → DSStatistic K) : StatisticManager K :=
  match sm.statistics.find? sub with
  | some st => { sm with statistics := sm.statistics.insert sub (f st) }
  | none => sm

/-- The loop over the subsets that are not skipped. -/
def forSubsets (sm : StatisticManager K) (f : DSStatistic K → DSStatistic K) :
    StatisticManager K :=
  (sm.subset.zip sm.skip).foldl
    (fun sm s => if s.2 then sm else sm.modifyStatistic s.1 f) sm

/-! ## Collection -/

/-- Create the statistic of one subset unless it is there. -/
def prepareSubset (sm : StatisticManager K) (sub : EqualSet) : StatisticManager K :=
  match sm.statistics.find? sub with
  | some _ => { sm with skip := sm.skip ++ [true] }
  | none =>
    { sm with
      statistics := sm.statistics.insert sub (.ofTables sub.getTableList sm.compressPrecision)
      skip := sm.skip ++ [false] }

def prepareCollection (sm : StatisticManager K) (eset : EqualSet) : StatisticManager K :=
  let subset := sm.subsetsOf eset
  let sm := subset.foldl prepareSubset { sm with eset, subset, skip := [] }
  { sm with singleDS := OrdMap.ofKeys eset.getTableList fun _ => ∅ }

def notInSingleDS (table : Table) : Error :=
  .runtimeError ("Table " ++ table ++ " not found in singleDS")

/-- `singleDS.count(table)`, and the sequence. -/
def singleDSOf (singleDS : OrdMap Table (DegreeSequence K)) (table : Table) :
    Except Error (DegreeSequence K) :=
  match singleDS.find? table with
  | some ds => .ok ds
  | none => .error (notInSingleDS table)

/-- `singleDS[table_name].AddDegree(..)` for one count. -/
def addSingleCount (precision : K) (countCount : ℤ) (singleDS : OrdMap Table (DegreeSequence K))
    (kv : Table × ℤ) : Except Error (OrdMap Table (DegreeSequence K)) :=
  if kv.2 = 0 then .ok singleDS
  else do
    let ds ← singleDSOf singleDS kv.1
    pure (singleDS.insert kv.1 (ds.addDegree (kv.2 : K) countCount precision))

def addDegreeForSingleDS (sm : StatisticManager K) (count : CountMap) (countCount : ℤ) :
    Except Error (StatisticManager K) := do
  let singleDS ← count.toList.foldlM (addSingleCount sm.compressPrecision countCount) sm.singleDS
  pure { sm with singleDS }

/-- `singleDS[table_name].FinishCollection()` for one entry, with what the calls so far have left
of the sums they cleared. -/
def finishSingle (s : OrdMap Table (List K) × OrdMap Table (DegreeSequence K)) (table : Table) :
    Except Error (OrdMap Table (List K) × OrdMap Table (DegreeSequence K)) := do
  let ds ← singleDSOf s.2 table
  pure (s.1.insert table ((s.1.find? table).getD ds.clearedSums),
    s.2.insert table (ds.finishCall (s.1.find? table)))

/-! ## Calibration -/

/-- `avg_card` and the running `dot` product. `none` is the NaN of a division by zero. -/
structure Calibration (K : Type) where
  ds : DegreeSequence K
  avgCard : Option K

def calibrateStep (precision : K) (c : Calibration K) (single : DegreeSequence K) :
    Calibration K :=
  let ndv := max c.ds.getNDV single.getNDV
  { ds := c.ds.dot single precision
    avgCard := if ndv = 0 then none else c.avgCard.map (· * (single.getCard / (ndv : K))) }

def calibrateTable (singleDS : OrdMap Table (DegreeSequence K)) (precision : K)
    (c : Calibration K) (table : Table) : Except Error (Calibration K) := do
  let single ← singleDSOf singleDS table
  pure (calibrateStep precision c single)

/-- The loop over the entries of a subset. -/
def calibrate (singleDS : OrdMap Table (DegreeSequence K)) (precision : K) :
    List Table → Except Error (Calibration K)
  | [] => .ok ⟨∅, some 1⟩
  | table :: tables => do
    let ds ← singleDSOf singleDS table
    tables.foldlM (calibrateTable singleDS precision) ⟨ds, some ds.getCard⟩

/-- The rate of a subset with `size` entries; `none` where the loop continues without one.
`pow` is `std::pow`. A comparison with NaN is false, and `max(0, NaN)` is zero. -/
def rateOf (pow : K → K → K) (realCard uppCard : K) (avgCard : Option K) (size : ℕ) :
    Option K :=
  match avgCard with
  | none => some (pow 0 (1 / (size : K)))
  | some avgCard =>
    if uppCard ≤ avgCard then none
    else some (pow (max 0 ((realCard - avgCard) / (uppCard - avgCard))) (1 / (size : K)))

def calibrateSubset (pow : K → K → K) (sm : StatisticManager K) (sub : EqualSet) :
    Except Error (StatisticManager K) :=
  if sub.entries.size ≤ 1 then .ok sm
  else do
    let c ← calibrate sm.singleDS sm.compressPrecision sub.getTableList
    let st ← sm.statistics.lookup sub
    match rateOf pow st.card c.ds.getCard c.avgCard sub.entries.size with
    | none => pure sm
    | some rate => pure { sm with rateSum := sm.rateSum + rate, rateCount := sm.rateCount + 1 }

/-- The loop over the subsets that calibrates the rate. -/
def calibrateSubsets (pow : K → K → K) (sm : StatisticManager K) :
    Except Error (StatisticManager K) :=
  (sm.subset.zip sm.skip).foldlM
    (fun sm s => if s.2 then .ok sm else calibrateSubset pow sm s.1) sm

def finishCollection (pow : K → K → K) (sm : StatisticManager K) :
    Except Error (StatisticManager K) := do
  let sm := sm.forSubsets DSStatistic.finishCollection
  let (_, singleDS) ← sm.eset.getTableList.foldlM finishSingle (∅, sm.singleDS)
  calibrateSubsets pow { sm with singleDS }

def calcAdjustRate (sm : StatisticManager K) : StatisticManager K :=
  if 0 < sm.rateCount then
    let adjustRate := sm.rateSum / (sm.rateCount : K)
    { sm with adjustRate, predicateAdjustRate := adjustRate }
  else sm

end StatisticManager

end StarCE
