import StarCE.Data.Json
import StarCE.Manager.State
import StarCE.Stat.Tables

/-!
# Saving statistics

`serialize` and `deserialize` of `statistic.hpp`, `equalset.hpp` and
`starce.hpp`. Three encoders are nested: a manager is an array of equal sets
with their statistics, a statistic one of tables with their sequences, a
sequence one of buckets. An array that nothing is pushed on stays `null`, or
its key is missing. Each decoder takes back what its encoder gives
(`deserialize_serializeToJson`), up to the fields that are not written.
-/

namespace StarCE

variable {K : Type} [Field K] [LinearOrder K] [FloorRing K]

/-- `std::map::at`, in a function that throws JSON exceptions. -/
def OrdMap.atKey {κ ν : Type} [LinearOrder κ] (m : OrdMap κ ν) (k : κ) : Except JsonError ν :=
  match m.find? k with
  | some v => .ok v
  | none => .error .outOfRange

/-! ## Degree sequences -/

namespace DegreeSequence

def bucketToJson (b : Bucket K) : Json K :=
  .object [("MaxDegree", .num b.maxDegree), ("Count", .int b.count)]

def serializeToJson (ds : DegreeSequence K) : Except JsonError (Json K) :=
  ds.buckets.foldlM (fun j b => j.pushBack (bucketToJson b)) .null

def bucketOfJson (degree : Json K) : Except JsonError (Bucket K) := do
  let maxDegree ← degree.lookup "MaxDegree" >>= Json.getDouble
  let count ← degree.lookup "Count" >>= Json.getInt truncate
  pure ⟨maxDegree, count⟩

/-- `sum` is not written. -/
def deserialize (j : Json K) : Except JsonError (DegreeSequence K) := do
  let buckets ← j.items.mapM bucketOfJson
  pure { buckets, sum := [] }

/-- The JSON value of a sequence. -/
def json (ds : DegreeSequence K) : Json K := .ofItems (ds.buckets.map bucketToJson)

omit [Field K] [LinearOrder K] [FloorRing K] in
theorem serializeToJson_eq (ds : DegreeSequence K) : ds.serializeToJson = .ok ds.json :=
  Json.foldlM_pushBack bucketToJson ds.buckets

theorem bucketOfJson_toJson (b : Bucket K) : bucketOfJson (bucketToJson b) = .ok b := by
  have h1 : (bucketToJson b).lookup "MaxDegree" = .ok (.num b.maxDegree) :=
    Json.lookup_of_find? (by rw [bucketToJson, Json.find?_object]; simp)
  have h2 : (bucketToJson b).lookup "Count" = .ok (.int b.count) :=
    Json.lookup_of_find? (by rw [bucketToJson, Json.find?_object]; simp)
  unfold bucketOfJson
  rw [h1, h2]
  rfl

theorem deserialize_serializeToJson (ds : DegreeSequence K) :
    deserialize ds.json = .ok { ds with sum := [] } := by
  unfold deserialize json
  rw [Json.items_ofItems, mapM_map_ok fun b _ => bucketOfJson_toJson b, List.map_id']
  rfl

end DegreeSequence

/-! ## Statistics -/

namespace DSStatistic

def serializeToJson (st : DSStatistic K) : Except JsonError (Json K) := do
  let j ← Json.null.set "Cardinality" (.num st.card)
  let central ← st.centralDs.serializeToJson
  let j ← j.set "CentralDS" central
  st.tables.foldlM (fun j table => do
    let v ← (do
      let ds ← st.ds.atKey table
      let ds ← ds.serializeToJson
      pure (.object [("Table", .str table), ("DegreeSequence", ds)]))
    j.pushBackAt "DSStatistic" v) j

/-- `ds[table].deserialize(..)` for one table. -/
def readTable (st : DSStatistic K) (statistic : Json K) : Except JsonError (DSStatistic K) := do
  let table ← statistic.lookup "Table" >>= Json.getString
  let ds ← statistic.lookup "DegreeSequence" >>= DegreeSequence.deserialize
  pure { st with tables := st.tables ++ [table], ds := st.ds.insert table ds }

def deserialize (lib : JsonLibrary K) (jsonStr : String) : Except JsonError (DSStatistic K) := do
  let j ← lib.parse jsonStr
  let card ← j.lookup "Cardinality" >>= Json.getDouble
  let centralDs ← j.lookup "CentralDS" >>= DegreeSequence.deserialize
  let statistics ← j.lookup "DSStatistic"
  statistics.items.foldlM readTable
    { card, precision := ((2 : ℕ) : K), centralDs, ds := ∅, tables := [] }

/-- The element written for a table. -/
def tableToJson (st : DSStatistic K) (table : Table) : Json K :=
  .object [("Table", .str table), ("DegreeSequence", (st.dsOf table).json)]

variable {st : DSStatistic K}

omit [Field K] [LinearOrder K] [FloorRing K] in
/-- What a statistic is written as. -/
theorem serializeToJson_ok (h : st.Keyed) :
    ∃ j, st.serializeToJson = .ok j ∧ j.find? "Cardinality" = some (.num st.card) ∧
      j.find? "CentralDS" = some st.centralDs.json ∧
      (j.find? "DSStatistic").getD .null = .ofItems (st.tables.map st.tableToJson) := by
  obtain ⟨j1, h1, hj1, hfind1⟩ := Json.find?_set (K := K) .null "Cardinality" (.num st.card)
  obtain ⟨j2, h2, hj2, hfind2⟩ := Json.find?_set hj1 "CentralDS" st.centralDs.json
  obtain ⟨j, hj, -, hother, hitems⟩ := Json.foldlM_pushBackAt "DSStatistic" (l := st.tables)
    (f := fun table => do
      let ds ← st.ds.atKey table
      let ds ← ds.serializeToJson
      pure (.object [("Table", .str table), ("DegreeSequence", ds)]))
    (g := st.tableToJson) hj2 (by rw [hfind2, hfind1]; rfl) fun t ht => by
      obtain ⟨ds, hds⟩ := Option.isSome_iff_exists.mp ((h.isSome_iff t).mpr ht)
      simp only [OrdMap.atKey, hds, DegreeSequence.serializeToJson_eq, bind, Except.bind, tableToJson,
        dsOf, Option.getD_some]
      rfl
  refine ⟨j, ?_, ?_, ?_, hitems⟩
  · rw [serializeToJson, h1]
    change (st.centralDs.serializeToJson >>= _) = _
    rw [DegreeSequence.serializeToJson_eq]
    change (j1.set "CentralDS" _ >>= _) = _
    rw [h2]
    exact hj
  · rw [hother _ (by decide), hfind2, if_neg (by decide), hfind1, if_pos rfl]
  · rw [hother _ (by decide), hfind2, if_pos rfl]

/-- The sums of a collection are cleared. -/
structure Finished (st : DSStatistic K) : Prop where
  central : st.centralDs.sum = []
  tables : ∀ t ∈ st.tables, (st.dsOf t).sum = []

theorem readTable_toJson (h : st.Finished) {s : DSStatistic K} {t : Table} (ht : t ∈ st.tables) :
    s.readTable (st.tableToJson t) =
      .ok { s with tables := s.tables ++ [t], ds := s.ds.insert t (st.dsOf t) } := by
  have h1 : (st.tableToJson t).lookup "Table" = .ok (.str t) :=
    Json.lookup_of_find? (by rw [tableToJson, Json.find?_object]; simp)
  have h2 : (st.tableToJson t).lookup "DegreeSequence" = .ok (st.dsOf t).json :=
    Json.lookup_of_find? (by rw [tableToJson, Json.find?_object]; simp)
  have h3 : { st.dsOf t with sum := [] } = st.dsOf t := by
    show DegreeSequence.mk (st.dsOf t).buckets [] = st.dsOf t
    rw [← h.tables t ht]
  unfold readTable
  rw [h1, h2]
  show (DegreeSequence.deserialize (st.dsOf t).json >>= _) = _
  rw [DegreeSequence.deserialize_serializeToJson, h3]
  rfl

/-- A statistic is read back, but for its precision. -/
theorem deserialize_serializeToJson {lib : JsonLibrary K} (h : st.Keyed) (hf : st.Finished)
    (hne : st.tables ≠ []) {j : Json K} (hj : st.serializeToJson = .ok j)
    (hlib : lib.RoundTrips j) :
    ∃ str, lib.dump j = .ok str ∧ deserialize lib str = .ok { st with precision := 2 } := by
  obtain ⟨str, hdump, hparse⟩ := hlib
  refine ⟨str, hdump, ?_⟩
  obtain ⟨j', hj', hcard, hcentral, htables⟩ := serializeToJson_ok h
  obtain rfl : j' = j := Except.ok.inj (hj'.symm.trans hj)
  obtain ⟨v, hv, hitems⟩ := Json.lookup_of_ofItems htables fun h => hne (List.map_eq_nil_iff.mp h)
  have hcds : { st.centralDs with sum := [] } = st.centralDs := by
    show DegreeSequence.mk st.centralDs.buckets [] = st.centralDs
    rw [← hf.central]
  have hloop : (st.tables.map st.tableToJson).foldlM readTable
      { card := st.card, precision := 2, centralDs := st.centralDs, ds := ∅, tables := [] } =
      .ok { st with precision := 2, ds := OrdMap.ofKeys st.tables st.dsOf } := by
    rw [List.foldlM_map]
    obtain ⟨s, hs, rfl⟩ := foldlM_inv (f := fun s t => readTable s (st.tableToJson t))
      (fun done s => s = { st with precision := 2, ds := OrdMap.ofKeys done st.dsOf, tables := done })
      (b := { card := st.card, precision := 2, centralDs := st.centralDs, ds := ∅, tables := [] })
      rfl fun done t s (ht : t ∈ st.tables) hs => ⟨_, readTable_toJson hf ht, by
        rw [hs, OrdMap.ofKeys, OrdMap.ofKeys, List.foldl_append]
        rfl⟩
    exact hs
  have hds : OrdMap.ofKeys st.tables st.dsOf = st.ds := by
    refine OrdMap.ext_find? fun t => ?_
    rw [OrdMap.find?_ofKeys]
    split
    · next ht =>
      obtain ⟨ds, hds⟩ := Option.isSome_iff_exists.mp ((h.isSome_iff t).mpr ht)
      rw [hds, dsOf, hds, Option.getD_some]
    · next ht => exact (Option.not_isSome_iff_eq_none.mp (mt (h.isSome_iff t).mp ht)).symm
  unfold deserialize
  rw [hparse]
  show (j'.lookup "Cardinality" >>= Json.getDouble >>= _) = _
  rw [Json.lookup_of_find? hcard]
  show (j'.lookup "CentralDS" >>= DegreeSequence.deserialize >>= _) = _
  rw [Json.lookup_of_find? hcentral]
  show (DegreeSequence.deserialize st.centralDs.json >>= _) = _
  rw [DegreeSequence.deserialize_serializeToJson, hcds]
  show (j'.lookup "DSStatistic" >>= _) = _
  rw [hv]
  show v.items.foldlM readTable _ = _
  rw [hitems, Nat.cast_ofNat, hloop, hds]

end DSStatistic

/-! ## Equal sets -/

namespace EqualSet

def entryToJson (c : TableColumn) : Json K :=
  .object [("TableName", .str c.tableName), ("ColumnName", .str c.columnName)]

def serializeToJson (e : EqualSet) : Except JsonError (Json K) :=
  e.entries.toList.foldlM (fun j c => do
    let v ← pure (entryToJson c)
    j.pushBackAt "Entries" v) .null

def entryOfJson (entry : Json K) : Except JsonError TableColumn := do
  let tableName ← entry.lookup "TableName" >>= Json.getString
  let columnName ← entry.lookup "ColumnName" >>= Json.getString
  pure ⟨tableName, columnName⟩

def deserialize (j : Json K) : Except JsonError EqualSet := do
  let entries ← j.lookup "Entries"
  let columns ← entries.items.mapM entryOfJson
  pure ⟨OrdSet.ofList columns⟩

section

omit [Field K] [LinearOrder K] [FloorRing K]

theorem entryOfJson_toJson (c : TableColumn) : entryOfJson (entryToJson c : Json K) = .ok c := by
  have h1 : (entryToJson c : Json K).lookup "TableName" = .ok (.str c.tableName) :=
    Json.lookup_of_find? (by rw [entryToJson, Json.find?_object]; simp)
  have h2 : (entryToJson c : Json K).lookup "ColumnName" = .ok (.str c.columnName) :=
    Json.lookup_of_find? (by rw [entryToJson, Json.find?_object]; simp)
  unfold entryOfJson
  rw [h1, h2]
  rfl

theorem deserialize_serializeToJson {e : EqualSet} (hne : e.entries.toList ≠ []) :
    ∃ j : Json K, e.serializeToJson = .ok j ∧ deserialize j = .ok e := by
  obtain ⟨j, hj, -, -, hitems⟩ := Json.foldlM_pushBackAt "Entries" (l := e.entries.toList)
    (f := fun c => pure (entryToJson c)) (g := (entryToJson · : TableColumn → Json K)) .null rfl
    fun _ _ => rfl
  refine ⟨j, hj, ?_⟩
  obtain ⟨v, hv, hitems⟩ := Json.lookup_of_ofItems hitems fun h => hne (List.map_eq_nil_iff.mp h)
  unfold deserialize
  rw [hv]
  show (v.items.mapM entryOfJson >>= _) = _
  rw [hitems, mapM_map_ok fun c _ => entryOfJson_toJson c, List.map_id']
  show Except.ok (EqualSet.mk (OrdSet.ofList e.entries.toList)) = _
  rw [OrdSet.ofList_eq e.entries.sorted]

end

end EqualSet

/-! ## The manager -/

namespace StatisticManager

/-- The element written for an equal set and its statistic. -/
def entryToJson (statistic : EqualSet × DSStatistic K) : Except JsonError (Json K) := do
  let eset ← statistic.1.serializeToJson
  let st ← statistic.2.serializeToJson
  pure (.object [("EqualSet", eset), ("DSStatistic", st)])

/-- What `serialize` dumps. The statistic of no table is left out. -/
def serializeToJson (sm : StatisticManager K) : Except JsonError (Json K) := do
  let j ← (sm.statistics.toList.filter fun s => s.1.entries.toList ≠ []).foldlM (fun (j : Json K) s => do
    let v ← entryToJson s
    j.pushBackAt "Statistics" v) .null
  j.set "AdjustRate" (.num sm.adjustRate)

def serialize (lib : JsonLibrary K) (sm : StatisticManager K) : Except JsonError String := do
  let j ← sm.serializeToJson
  lib.dump j

/-- `statistics[equalSet] = new DSStatistic(..)` for one element. -/
def readStatistic (lib : JsonLibrary K) (sm : StatisticManager K) (statistic : Json K) :
    Except JsonError (StatisticManager K) := do
  let eset ← statistic.lookup "EqualSet" >>= EqualSet.deserialize
  let str ← statistic.lookup "DSStatistic" >>= lib.dump
  let st ← DSStatistic.deserialize lib str
  pure { sm with statistics := sm.statistics.insert eset { st with precision := sm.compressPrecision } }

/-- Both rates are the one that is written. -/
def deserialize (lib : JsonLibrary K) (sm : StatisticManager K) (jsonStr : String) :
    Except JsonError (StatisticManager K) := do
  let j ← lib.parse jsonStr
  let statistics ← j.lookup "Statistics"
  let sm ← statistics.items.foldlM (readStatistic lib) sm
  let adjustRate ← j.lookup "AdjustRate" >>= Json.getDouble
  pure { sm with adjustRate, predicateAdjustRate := adjustRate }

/-- The library restores what is written of a manager. -/
structure Restorable (lib : JsonLibrary K) (sm : StatisticManager K) : Prop where
  manager : ∀ j, sm.serializeToJson = .ok j → lib.RoundTrips j
  statistic : ∀ key st, sm.statistics.find? key = some st → key.entries.toList ≠ [] →
    ∀ j, st.serializeToJson = .ok j → lib.RoundTrips j

/-- A statistic as `deserialize` gives it back in a manager of that precision. -/
structure Readable (p : K) (st : DSStatistic K) : Prop where
  keyed : st.Keyed
  finished : st.Finished
  tables : st.tables ≠ []
  precision : st.precision = p

variable {lib : JsonLibrary K} {sm sm0 : StatisticManager K}

/-- The JSON value of an element. -/
theorem exists_entryToJson {key : EqualSet} {st : DSStatistic K} (hne : key.entries.toList ≠ [])
    (hst : Readable sm0.compressPrecision st)
    (hlib : ∀ j, st.serializeToJson = .ok j → lib.RoundTrips j) :
    ∃ j, entryToJson (key, st) = .ok j ∧ ∀ s : StatisticManager K,
      s.compressPrecision = sm0.compressPrecision →
      readStatistic lib s j = .ok { s with statistics := s.statistics.insert key st } := by
  obtain ⟨je, hje, hreade⟩ := EqualSet.deserialize_serializeToJson (K := K) hne
  obtain ⟨js, hjs, -⟩ := DSStatistic.serializeToJson_ok hst.keyed
  obtain ⟨str, hdump, hread⟩ := DSStatistic.deserialize_serializeToJson hst.keyed hst.finished
    hst.tables hjs (hlib js hjs)
  refine ⟨.object [("EqualSet", je), ("DSStatistic", js)], ?_, fun s hs => ?_⟩
  · unfold entryToJson
    show (key.serializeToJson >>= fun eset => st.serializeToJson >>= _) = _
    rw [hje, hjs]
    rfl
  · have h1 : (Json.object [("EqualSet", je), ("DSStatistic", js)]).lookup "EqualSet" = .ok je :=
      Json.lookup_of_find? (by rw [Json.find?_object]; simp)
    have h2 : (Json.object [("EqualSet", je), ("DSStatistic", js)]).lookup "DSStatistic" = .ok js :=
      Json.lookup_of_find? (by rw [Json.find?_object]; simp)
    unfold readStatistic
    rw [h1]
    show (EqualSet.deserialize je >>= _) = _
    rw [hreade, h2]
    show (lib.dump js >>= _) = _
    rw [hdump]
    show (DSStatistic.deserialize lib str >>= _) = _
    rw [hread]
    show Except.ok { s with statistics := s.statistics.insert key { st with precision := s.compressPrecision } } = _
    rw [hs, ← hst.precision]

/-- A saved manager is read back: its statistics and its rate. -/
theorem deserialize_serialize (h0 : sm0.statistics = ∅)
    (hst : ∀ key st, sm.statistics.find? key = some st → key.entries.toList ≠ [] →
      Readable sm0.compressPrecision st)
    (hne : ∃ key, key.entries.toList ≠ [] ∧ (sm.statistics.find? key).isSome)
    (hlib : sm.Restorable lib) :
    ∃ str statistics, sm.serialize lib = .ok str ∧
      sm0.deserialize lib str = .ok { sm0 with
        statistics, adjustRate := sm.adjustRate, predicateAdjustRate := sm.adjustRate } ∧
      ∀ key, key.entries.toList ≠ [] → statistics.find? key = sm.statistics.find? key := by
  set l := sm.statistics.toList.filter fun s => s.1.entries.toList ≠ [] with hl
  have hmem : ∀ s ∈ l, s.1.entries.toList ≠ [] ∧ sm.statistics.find? s.1 = some s.2 := fun s hs =>
    ⟨of_decide_eq_true (List.mem_filter.mp hs).2, OrdMap.mem_toList.mp (List.mem_filter.mp hs).1⟩
  have hentry : ∀ s ∈ l, ∃ j, entryToJson s = .ok j ∧ ∀ t : StatisticManager K,
      t.compressPrecision = sm0.compressPrecision →
      readStatistic lib t j = .ok { t with statistics := t.statistics.insert s.1 s.2 } := fun s hs =>
    exists_entryToJson (hmem s hs).1 (hst _ _ (hmem s hs).2 (hmem s hs).1)
      (hlib.statistic _ _ (hmem s hs).2 (hmem s hs).1)
  choose! g hg hread using hentry
  obtain ⟨j1, hj1, hfill, hother, hitems⟩ := Json.foldlM_pushBackAt "Statistics" .null rfl hg
  obtain ⟨j, hj, -, hfind⟩ := Json.find?_set hfill "AdjustRate" (.num sm.adjustRate)
  have hjson : sm.serializeToJson = .ok j := by
    unfold serializeToJson
    rw [← hl]
    show (l.foldlM _ Json.null >>= _) = _
    rw [hj1]
    exact hj
  obtain ⟨str, hdump, hparse⟩ := hlib.manager j hjson
  obtain ⟨key, hkey, hsome⟩ := hne
  obtain ⟨st, hfst⟩ := Option.isSome_iff_exists.mp hsome
  have hl0 : l ≠ [] := List.ne_nil_of_mem (a := (key, st)) (List.mem_filter.mpr
    ⟨OrdMap.mem_toList.mpr hfst, decide_eq_true hkey⟩)
  have hitems' : (j.find? "Statistics").getD .null = .ofItems (l.map g) := by
    rw [hfind, if_neg (by decide), hitems]
  obtain ⟨v, hv, hvl⟩ := Json.lookup_of_ofItems hitems' fun h => hl0 (List.map_eq_nil_iff.mp h)
  have hrate : j.lookup "AdjustRate" = .ok (.num sm.adjustRate) :=
    Json.lookup_of_find? (by rw [hfind, if_pos rfl])
  set stats : OrdMap EqualSet (DSStatistic K) := l.foldl (fun m s => m.insert s.1 s.2) ∅ with hstats
  have hloop : (l.map g).foldlM (readStatistic lib) sm0 = .ok { sm0 with statistics := stats } := by
    rw [List.foldlM_map]
    obtain ⟨s, hs, rfl⟩ := foldlM_inv (f := fun s e => readStatistic lib s (g e))
      (fun done s => s = { sm0 with statistics := done.foldl (fun m s => m.insert s.1 s.2) ∅ })
      (b := sm0) (by rw [List.foldl_nil, ← h0])
      fun done e s (he : e ∈ l) hs => ⟨_, hread e he s (by rw [hs]), by
        rw [hs, List.foldl_append]
        rfl⟩
    exact hs
  refine ⟨str, stats, ?_, ?_, fun key hkey => ?_⟩
  · unfold serialize
    rw [hjson]
    exact hdump
  · unfold deserialize
    rw [hparse]
    show (j.lookup "Statistics" >>= _) = _
    rw [hv]
    show (v.items.foldlM (readStatistic lib) sm0 >>= _) = _
    rw [hvl, hloop, hrate]
    rfl
  · rw [hstats, OrdMap.find?_foldl_insert (fun s : EqualSet × DSStatistic K => s.1) (fun s => s.2)]
    cases hf : sm.statistics.find? key with
    | none =>
      rw [Option.map_eq_none_iff, List.find?_eq_none]
      intro s hs hk
      have hk : s.1 = key := by simpa using hk
      have := (hmem s (List.mem_reverse.mp hs)).2
      rw [hk, hf] at this
      cases this
    | some st =>
      have hin : (key, st) ∈ l.reverse := List.mem_reverse.mpr (List.mem_filter.mpr
        ⟨OrdMap.mem_toList.mpr hf, decide_eq_true hkey⟩)
      have hsome := @List.find?_isSome _ l.reverse fun s => decide (s.1 = key)
      obtain ⟨s, hs⟩ := Option.isSome_iff_exists.mp (hsome.mpr ⟨(key, st), hin, by simp⟩)
      refine Option.map_eq_some_iff.mpr ⟨s, by convert hs, ?_⟩
      have hk : s.1 = key := by simpa using List.find?_some hs
      have := (hmem s (List.mem_reverse.mp (List.mem_of_find?_eq_some hs))).2
      rw [hk, hf] at this
      exact (Option.some.inj this).symm

end StatisticManager

end StarCE
