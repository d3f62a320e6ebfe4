import StarCE.Schema.EqualSet
import StarCE.Stat.DegreeSequence

/-!
# Star statistics

`class DSStatistic` of `statistic.hpp`: the cardinality of a star join and,
for each of its tables, the degree sequence of that table's tuples in it.
`merge` joins two statistics on a common table. Its inner loop
(`mergeEdgeDegreeSequences`) hands the rows of the aligned ranks out to the
tuples of every other table; the calls it makes on the table's new sequence
are collected in a list and made at the end of the step.
-/

namespace StarCE

structure DSStatistic (K : Type) where
  card : K
  precision : K
  centralDs : DegreeSequence K
  ds : OrdMap Table (DegreeSequence K)
  tables : List Table

variable {K : Type} [Field K] [LinearOrder K] [FloorRing K]

/-- `static_cast<int64_t>` of a double. -/
def truncate (x : K) : ℤ := if 0 ≤ x then ⌊x⌋ else ⌈x⌉

/-- The tolerance `1e-6` under which a remainder counts as nothing. -/
def rowEps : K := 1 / 1000000

namespace DSStatistic

instance : Inhabited (DSStatistic K) := ⟨⟨0, 1, ∅, ∅, []⟩⟩

/-! ## Constructors -/

def ofTables (tables : List Table) (precision : K) : DSStatistic K :=
  { card := 0, precision, centralDs := ∅, ds := OrdMap.ofKeys tables fun _ => ∅, tables }

/-- One table whose `card` tuples have degree one. -/
def single (table : Table) (card precision : K) : DSStatistic K :=
  { card, precision, centralDs := ∅
    ds := (∅ : OrdMap Table (DegreeSequence K)).insert table
      ((∅ : DegreeSequence K).addDegree 1 (truncate card) precision)
    tables := [table] }

/-- The statistic keyed by relation ids instead of table names. -/
def rekey (other : DSStatistic K) (tableIdx : OrdMap String ℕ) : Except Error (DSStatistic K) := do
  let st : DSStatistic K :=
    { card := other.card, precision := other.precision, centralDs := ∅, ds := ∅, tables := [] }
  other.tables.foldlM (fun st table => do
    let idx ← tableIdx.lookup table
    let ds ← other.ds.lookup table
    pure { st with ds := st.ds.insert (toString idx) ds, tables := st.tables ++ [toString idx] }) st

/-! ## Collection -/

/-- `ds[table]`. -/
def dsOf (st : DSStatistic K) (table : Table) : DegreeSequence K := (st.ds.find? table).getD ∅

def setDs (st : DSStatistic K) (table : Table) (ds : DegreeSequence K) : DSStatistic K :=
  { st with ds := st.ds.insert table ds }

/-- `ds[table] = f(table, ds[table])` for every table. -/
def forTables (st : DSStatistic K) (f : Table → DegreeSequence K → DegreeSequence K) :
    DSStatistic K :=
  st.tables.foldl (fun st table => st.setDs table (f table (st.dsOf table))) st

/-- The product of the counts, unless a table has none. -/
def productOf (count : OrdMap Table ℤ) : List Table → ℤ → Option ℤ
  | [], product => some product
  | table :: tables, product =>
    match count.find? table with
    | none => none
    | some c => if c = 0 then none else productOf count tables (product * c)

def addDegree (st : DSStatistic K) (count : OrdMap Table ℤ) (countCount : ℤ) : DSStatistic K :=
  match productOf count st.tables 1 with
  | none => st
  | some product =>
    if product = 0 then st
    else
      let st := st.forTables fun table ds =>
        let c := (count.find? table).getD 0
        ds.addDegree ((product : K) / (c : K)) (c * countCount) st.precision
      { st with
        centralDs := st.centralDs.addDegree (product : K) countCount st.precision
        card := st.card + (product : K) * (countCount : K) }

/-- `addDegree` for every count vector, with its frequency. -/
def addCounts (st : DSStatistic K) (counts : List (OrdMap Table ℤ × ℤ)) : DSStatistic K :=
  counts.foldl (fun st c => st.addDegree c.1 c.2) st

/-- What is left of a bucket of `maxDegree` when `room` rows remain and the bucket does not fit. -/
def cutBucket (eps room maxDegree : K) : List (Bucket K) :=
  if room ≤ eps then []
  else if room < maxDegree then [⟨room, 1⟩]
  else
    let count := ⌊room / maxDegree⌋
    let newDegree := room - (count : K) * maxDegree
    if newDegree ≤ eps then [⟨maxDegree, count⟩]
    else [⟨maxDegree, count⟩, ⟨newDegree, 1⟩]

/-- The buckets that fit below `card`, given the sum of those before them. -/
def limitBuckets (eps card : K) : K → List (Bucket K) → List (Bucket K)
  | _, [] => []
  | sum, b :: rest =>
    if sum + (b.count : K) * b.maxDegree ≤ card then
      b :: limitBuckets eps card (sum + (b.count : K) * b.maxDegree) rest
    else cutBucket eps (card - sum) b.maxDegree

def limitDsToCard (ds : DegreeSequence K) (card : K) : DegreeSequence K :=
  { ds with buckets := limitBuckets rowEps card 0 ds.buckets }

def limitAllDsToCard (st : DSStatistic K) : DSStatistic K :=
  st.forTables fun _ ds => limitDsToCard ds st.card

/-- `ds[table].FinishCollection()` for every table; `cleared` holds what the calls so far have
left, for a table that is listed again is finished again. -/
def finishTables : List Table → OrdMap Table (List K) → DSStatistic K → DSStatistic K
  | [], _, st => st
  | table :: tables, cleared, st =>
    let ds := st.dsOf table
    finishTables tables (cleared.insert table ((cleared.find? table).getD ds.clearedSums))
      (st.setDs table (ds.finishCall (cleared.find? table)))

def finishCollection (st : DSStatistic K) : DSStatistic K :=
  let st := finishTables st.tables ∅ st
  let st := { st with centralDs := st.centralDs.finishCollection }
  let st := st.limitAllDsToCard
  { st with centralDs := limitDsToCard st.centralDs st.card }

end DSStatistic

/-! ## Handing rows out -/

/-- How far a table's tuples have received rows: the bucket, the weight and the missing rows
of the tuple in progress, and the untouched tuples of the bucket once it is begun. -/
structure EdgeState (K : Type) where
  pos : ℕ
  curDegree : K
  remainRow : K
  remainCount : ℤ

def EdgeState.init : EdgeState K := ⟨0, 0, 0, 0⟩

/-- Where the loop body goes: out of the loop, to the next bucket, or on to its next block. -/
inductive Flow (K : Type) where
  | brk (e : EdgeState K)
  | cont (rownum : K) (e : EdgeState K)
  | fall (rownum : K) (e : EdgeState K)

/-- `if (remainRow > 0)`: complete the tuple in progress. -/
def finishTuple (degree rownum : K) (e : EdgeState K) : Flow K × List (K × ℤ) :=
  if 0 < e.remainRow then
    if e.remainRow < rownum then
      let curDegree := e.curDegree + e.remainRow * degree
      let e' := { e with remainRow := 0, curDegree := 0 }
      (if e.remainCount = 0 then .cont (rownum - e.remainRow) e'
        else .fall (rownum - e.remainRow) e', [(curDegree, 1)])
    else
      let remainRow := e.remainRow - rownum
      let curDegree := e.curDegree + rownum * degree
      if remainRow = 0 then
        (.brk { e with
          remainRow, curDegree := 0
          pos := if e.remainCount = 0 then e.pos + 1 else e.pos }, [(curDegree, 1)])
      else (.brk { e with remainRow, curDegree }, [])
  else (.fall rownum e, [])

/-- Give the rows left to `count` untouched tuples of `maxDegree` rows each, which they do
not fill. -/
def takeRows (eps degree maxDegree rownum : K) (count : ℤ) (e : EdgeState K) :
    EdgeState K × List (K × ℤ) :=
  let usedCount := ⌊rownum / maxDegree⌋
  let usedRow := rownum - (usedCount : K) * maxDegree
  let calls := if 0 < usedCount then [(maxDegree * degree, usedCount)] else []
  if eps < usedRow then
    ({ e with
      remainCount := count - usedCount - 1
      remainRow := maxDegree - usedRow
      curDegree := e.curDegree + usedRow * degree }, calls)
  else ({ e with remainCount := count - usedCount }, calls)

/-- `if (remainCount > 0)` and the block after it: the untouched tuples of a bucket. -/
def fillBucket (eps degree : K) (b : Bucket K) (rownum : K) (e : EdgeState K) :
    Flow K × List (K × ℤ) :=
  if 0 < e.remainCount then
    if (e.remainCount : K) * b.maxDegree < rownum then
      (.cont (rownum - (e.remainCount : K) * b.maxDegree) { e with remainCount := 0 },
        [(b.maxDegree * degree, e.remainCount)])
    else
      let (e', calls) := takeRows eps degree b.maxDegree rownum e.remainCount e
      (.brk (if e'.remainCount = 0 ∧ e'.remainRow = 0 then { e' with pos := e'.pos + 1 } else e'),
        calls)
  else if (b.count : K) * b.maxDegree ≤ rownum then
    (.cont (rownum - (b.count : K) * b.maxDegree) e, [(b.maxDegree * degree, b.count)])
  else
    let (e', calls) := takeRows eps degree b.maxDegree rownum b.count e
    (.brk e', calls)

/-- The loop over the buckets from `pos` on, for `rownum` rows of weight `degree`. -/
def edgeLoop (eps degree : K) : List (Bucket K) → K → EdgeState K → EdgeState K × List (K × ℤ)
  | [], _, e => (e, [])
  | b :: rest, rownum, e =>
    match finishTuple degree rownum e with
    | (.brk e, calls) => (e, calls)
    | (.cont rownum e, calls) =>
      let (e', calls') := edgeLoop eps degree rest rownum { e with pos := e.pos + 1 }
      (e', calls ++ calls')
    | (.fall rownum e, calls) =>
      match fillBucket eps degree b rownum e with
      | (.brk e, calls') => (e, calls ++ calls')
      | (.cont rownum e, calls') | (.fall rownum e, calls') =>
        let (e', calls'') := edgeLoop eps degree rest rownum { e with pos := e.pos + 1 }
        (e', calls ++ calls' ++ calls'')

def edgeStep (eps degree : K) (oldDs : DegreeSequence K) (rownum : K) (e : EdgeState K) :
    EdgeState K × List (K × ℤ) :=
  edgeLoop eps degree (oldDs.buckets.drop e.pos) rownum e

namespace DSStatistic

/-- The tables of a statistic that do not take part in the merge. -/
def edgeTables (st : DSStatistic K) (mergeTable : Table) : List Table :=
  st.tables.filter fun t => t ≠ mergeTable

def mergeEdgeDegreeSequences (oldStat : DSStatistic K) (selfRowNum degree : K) :
    List Table → List (EdgeState K) → DSStatistic K →
      Except Error (DSStatistic K × List (EdgeState K))
  | table :: tables, e :: edges, newStat => do
    let oldDs ← oldStat.ds.lookup table
    let (e, calls) := edgeStep rowEps degree oldDs selfRowNum e
    let newDs := (newStat.dsOf table).addDegrees calls newStat.precision
    let (newStat, edges) ← mergeEdgeDegreeSequences oldStat selfRowNum degree tables edges
      (newStat.setDs table newDs)
    pure (newStat, e :: edges)
  | _, _, newStat => pure (newStat, [])

def addCurDegree : List Table → List (EdgeState K) → DSStatistic K → DSStatistic K
  | table :: tables, e :: edges, newStat =>
    let newDs := (newStat.dsOf table).addDegree e.curDegree 1 newStat.precision
    addCurDegree tables edges (newStat.setDs table newDs)
  | _, _, newStat => newStat

/-- `newStat`, the states of both operands' tables, and `newCard`. -/
structure MergeState (K : Type) where
  newStat : DSStatistic K
  edges1 : List (EdgeState K)
  edges2 : List (EdgeState K)
  newCard : K

/-- The body of the loop of `merge`, for one run of aligned ranks. -/
def mergeRun (st other : DSStatistic K) (table : Table) (s : MergeState K) (r : Run K) :
    Except Error (MergeState K) := do
  let newCard := s.newCard + (r.count : K) * r.degree1 * r.degree2
  let mergeTableDs := (s.newStat.dsOf table).addDegree (r.degree1 * r.degree2) r.count
    s.newStat.precision
  let newStat := s.newStat.setDs table mergeTableDs
  let (newStat, edges1) ← mergeEdgeDegreeSequences st (r.degree1 * (r.count : K)) r.degree2
    (st.edgeTables table) s.edges1 newStat
  let (newStat, edges2) ← mergeEdgeDegreeSequences other (r.degree2 * (r.count : K)) r.degree1
    (other.edgeTables table) s.edges2 newStat
  pure { newStat, edges1, edges2, newCard }

/-- The tables of the result: those of the left operand, then the new ones of the right. -/
def mergeTables (tables : List Table) (other : List Table) : List Table :=
  other.foldl (fun acc t => if t ∈ acc then acc else acc ++ [t]) tables

def merge (st other : DSStatistic K) (table : Table) : Except Error (DSStatistic K) := do
  let newStat := (ofTables (mergeTables st.tables other.tables) st.precision : DSStatistic K)
  let ds1 ← st.ds.lookup table
  let ds2 ← other.ds.lookup table
  let init : MergeState K :=
    { newStat := newStat.setDs table (newStat.dsOf table)
      edges1 := (st.edgeTables table).map fun _ => .init
      edges2 := (other.edgeTables table).map fun _ => .init
      newCard := 0 }
  let s ← (alignRuns ds1 ds2).foldlM (mergeRun st other table) init
  let newStat := addCurDegree (st.edgeTables table) s.edges1 s.newStat
  let newStat := addCurDegree (other.edgeTables table) s.edges2 newStat
  pure ({ newStat with card := s.newCard }.finishCollection.limitAllDsToCard)

/-- The pseudo table that carries the key values of a star. -/
def centerTable : Table := "__star_center"

/-- `st` with the pseudo table, its sequence being `centralDs`. -/
def withCenter (st : DSStatistic K) : DSStatistic K :=
  { st.setDs centerTable st.centralDs with tables := st.tables ++ [centerTable] }

def mergeByCenter (st other : DSStatistic K) : Except Error (DSStatistic K) := do
  let merged ← merge st.withCenter other.withCenter centerTable
  pure { merged with
    tables := merged.tables.erase centerTable
    ds := merged.ds.erase centerTable }

/-! ## Adjusting -/

/-- A table's sequence pulled toward its average degree over `ndv` tuples by the rate `k`. -/
def averageDs (card : K) (ndv : ℤ) (k : K) (ds : DegreeSequence K) : DegreeSequence K :=
  let avgDegree := card / (ndv : K)
  let zeroCount := ndv - (ds.buckets.map (·.count)).sum
  let buckets := ds.buckets.map fun b =>
    { b with maxDegree := b.maxDegree * k + avgDegree * (1 - k) }
  if 0 < zeroCount ∧ 0 < avgDegree * (1 - k) then
    { ds with buckets := buckets ++ [⟨avgDegree * (1 - k), zeroCount⟩] }
  else { ds with buckets }

def adjustToAverage (st : DSStatistic K) (ndv : OrdMap String ℤ) (k : K) :
    Except Error (DSStatistic K) := do
  let st ← st.tables.foldlM (fun st' table => do
    let n ← ndv.lookup table
    pure (st'.setDs table (averageDs st.card n k (st'.dsOf table)))) st
  pure st.limitAllDsToCard

/-- A bucket of degrees below one becomes whole tuples of degree one. -/
def normalizeBucket (b : Bucket K) : Bucket K :=
  if b.maxDegree < 1 then ⟨1, max 1 ⌈(b.count : K) * b.maxDegree⌉⟩ else b

def normalizeDs (ds : DegreeSequence K) : DegreeSequence K :=
  { ds with buckets := ds.buckets.map normalizeBucket }

def normalizeSubOneDegrees (st : DSStatistic K) : DSStatistic K :=
  let st := st.forTables fun _ ds => normalizeDs ds
  { st with centralDs := normalizeDs st.centralDs }

/-- `maxDegree *= filter_coeff`; below one, `count *= maxDegree` (cut to an integer). -/
def filterBucket (filterCoeff : K) (b : Bucket K) : Bucket K :=
  let maxDegree := b.maxDegree * filterCoeff
  if maxDegree < 1 then ⟨1, max 1 (truncate ((b.count : K) * maxDegree))⟩
  else { b with maxDegree }

def filterDs (filterCoeff : K) (ds : DegreeSequence K) : DegreeSequence K :=
  { ds with buckets := ds.buckets.map (filterBucket filterCoeff) }

def applyFilterCoefficient (st : DSStatistic K) (filterCoeff : K) : DSStatistic K :=
  let st := st.forTables fun _ ds => filterDs filterCoeff ds
  let card := st.card * filterCoeff
  { st with
    card := if card < 1 then 1 else card
    centralDs := filterDs filterCoeff st.centralDs }

end DSStatistic

end StarCE
