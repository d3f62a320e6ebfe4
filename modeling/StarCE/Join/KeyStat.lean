import StarCE.Join.StarStat

/-!
# The statistic of a key from the group sizes

At a key value the tables of a key join as many rows as the product of their
groups (`joinCount`). The statistic an equal set yields for the key is made of
these numbers alone: their total, the bag of them, and for every table the bag
of what its rows join, each compressed (`starStat_eq_iff`). A table that is
listed twice is collected, finished and limited twice.
-/

namespace StarCE

open DSStatistic

variable {K V : Type} [Field K] [DecidableEq V]

/-- The rows the tables join at a key value. -/
def joinCount (db : Database V) (e : EqualSet) (tables : List Table) (v : V) : ℤ :=
  (tables.map (tableCount db e.entries.toList v)).prod

def joinCard (db : Database V) (e : EqualSet) (tables : List Table) : ℤ :=
  ((keys db e.entries.toList).map (joinCount db e tables)).sum

/-- The numbers of joined rows of the key values that have any. -/
def joinKeyBag (K : Type) [Field K] (db : Database V) (e : EqualSet) (tables : List Table) :
    List K :=
  (keys db e.entries.toList).flatMap fun v =>
    if joinCount db e tables v = 0 then [] else [(joinCount db e tables v : K)]

/-- The numbers of joined rows of the rows of `t` that have any. -/
def joinRowBag (K : Type) [Field K] (db : Database V) (e : EqualSet) (tables : List Table)
    (t : Table) : List K :=
  (keys db e.entries.toList).flatMap fun v =>
    if joinCount db e tables v = 0 then []
    else List.replicate (tableCount db e.entries.toList v t).toNat
      ((joinCount db e tables v : K) / (tableCount db e.entries.toList v t : K))

section Counts

variable {db : Database V} {e : EqualSet} {tables : List Table} {t : Table}

theorem countOf_nonneg {c : CountMap × ℤ} {columns : List TableColumn}
    (hc : c ∈ (countsOf db columns).toList) (t : Table) : 0 ≤ countOf c.1 t := by
  have h1 := OrdMap.mem_toList.mp (show (c.1, c.2) ∈ _ from hc)
  rw [countsOf, OrdMap.find?_ofKeys] at h1
  split at h1
  · next hm =>
    obtain ⟨v, _, hv⟩ := List.mem_map.mp hm
    rw [← hv, countOf, countMap, OrdMap.find?_ofKeys]
    split
    · exact tableCount_nonneg t
    · exact le_rfl
  · cases h1

theorem posCounts_centralCalls : PosCounts
    (centralCalls tables (countsOf db e.entries.toList).toList : List (K × ℤ)) := by
  intro x hx
  obtain ⟨m, hm, hx⟩ := List.mem_filterMap.mp hx
  split at hx
  · cases hx
  · obtain rfl := Option.some.inj hx
    exact (counts_countsOf db e).freq_pos m hm

theorem posCounts_starCalls (ht : t ∈ tables) : PosCounts
    (starCalls tables t (countsOf db e.entries.toList).toList : List (K × ℤ)) := by
  intro x hx
  obtain ⟨m, hm, hx⟩ := List.mem_filterMap.mp hx
  split at hx
  · cases hx
  · next h0 =>
    obtain rfl := Option.some.inj hx
    refine mul_pos (lt_of_le_of_ne (countOf_nonneg hm t) fun h' => h0 ?_)
      ((counts_countsOf db e).freq_pos m hm)
    exact List.prod_eq_zero (List.mem_map.mpr ⟨t, ht, h'.symm⟩)

theorem posCounts_ones {K : Type} (l : List K) : PosCounts (l.map fun d => (d, (1 : ℤ))) := by
  intro x hx
  obtain ⟨d, _, rfl⟩ := List.mem_map.mp hx
  exact one_pos

end Counts

variable [LinearOrder K] [FloorRing K]

/-- The bag of the key values, as `centralDs` keeps it. -/
def joinKeySketch (p : K) (db : Database V) (e : EqualSet) (tables : List Table) :
    DegreeSequence K :=
  limitDsToCard ⟨compress p ((joinKeyBag K db e tables).map fun d => (d, 1)), []⟩
    (joinCard db e tables : K)

/-- The bag of the rows of `t`, as its sequence keeps it. -/
def joinRowSketch (p : K) (db : Database V) (e : EqualSet) (tables : List Table) (t : Table) :
    DegreeSequence K :=
  let n := tables.count t
  let calls := (joinRowBag K db e tables t).flatMap fun d => List.replicate n (d, 1)
  (limitDsToCard · (joinCard db e tables : K))^[n]
    (((∅ : DegreeSequence K).addDegrees calls p).finishTimes none n)

/-- The groups of two equal sets join equally many rows of the tables, and the numbers of joined
rows of the key values and of the rows of each table are the same once they are compressed. -/
structure SameJoins (p : K) (db : Database V) (e e' : EqualSet) (tables : List Table) : Prop where
  card : joinCard db e tables = joinCard db e' tables
  keys : joinKeySketch p db e tables = joinKeySketch p db e' tables
  rows : ∀ t ∈ tables, joinRowSketch p db e tables t = joinRowSketch p db e' tables t

/-! ## From the calls to the bags -/

section Calls

variable {db : Database V} {e : EqualSet} {tables : List Table} {t : Table}

theorem starProduct_eq_joinCount (h : ∀ u ∈ tables, u ∈ e.getTableList) (v : V) :
    starProduct (countMap db e.entries.toList v) tables = joinCount db e tables v := by
  rw [starProduct, joinCount]
  exact congrArg List.prod (List.map_congr_left fun u hu => countOf_countMap _ (h u hu) v)

theorem starCard_countsOf (h : ∀ u ∈ tables, u ∈ e.getTableList) :
    starCard tables (countsOf db e.entries.toList).toList = joinCard db e tables := by
  have hc := counts_countsOf db e
  rw [starCard_eq _ hc.freq_pos, (hc.perm.map _).sum_eq, List.map_map, joinCard]
  exact congrArg List.sum (List.map_congr_left fun v _ => starProduct_eq_joinCount h v)

section

omit [LinearOrder K] [FloorRing K]

theorem perm_joinKeyBag (h : ∀ u ∈ tables, u ∈ e.getTableList) :
    (spread (centralCalls tables (countsOf db e.entries.toList).toList : List (K × ℤ))).Perm
      (joinKeyBag K db e tables) := by
  have hc := counts_countsOf db e
  rw [spread_centralCalls _ hc.freq_pos]
  refine (hc.perm.flatMap_right _).trans (List.Perm.of_eq ?_)
  rw [List.flatMap_map, joinKeyBag]
  simp only [starProduct_eq_joinCount h]

theorem perm_joinRowBag (h : ∀ u ∈ tables, u ∈ e.getTableList) (ht : t ∈ tables) :
    (spread (starCalls tables t (countsOf db e.entries.toList).toList : List (K × ℤ))).Perm
      (joinRowBag K db e tables t) := by
  have hc := counts_countsOf db e
  rw [spread_starCalls _ _ hc.freq_pos]
  refine (hc.perm.flatMap_right _).trans (List.Perm.of_eq ?_)
  rw [List.flatMap_map, joinRowBag]
  simp only [keyDegrees, starProduct_eq_joinCount h, countOf_countMap _ (h t ht)]

end

end Calls

/-! ## The statistic -/

section Stat

variable {db : Database V} {e e' key : EqualSet} {t : Table}

theorem starStat_card_eq (p : K) (key : EqualSet) : (starStat p db e key).card =
    (starCard key.getTableList (countsOf db e.entries.toList).toList : K) := by
  rw [starStat, finishCollection_card, addCounts_card]
  simp [ofTables]

theorem starStat_card_join (p : K) (h : ∀ u ∈ key.getTableList, u ∈ e.getTableList) :
    (starStat p db e key).card = (joinCard db e key.getTableList : K) := by
  rw [starStat_card_eq, starCard_countsOf h]

theorem starStat_dsOf_count (p : K) (key : EqualSet) (t : Table) :
    (starStat p db e key).dsOf t =
      (limitDsToCard · (starStat p db e key).card)^[key.getTableList.count t]
        (((∅ : DegreeSequence K).addDegrees ((starCalls key.getTableList t
          (countsOf db e.entries.toList).toList).flatMap
            (List.replicate (key.getTableList.count t))) p).finishTimes none
              (key.getTableList.count t)) := by
  rw [starStat, finishCollection_card, dsOf_finishCollection_count, addCounts_tables,
    dsOf_addCounts_count, dsOf_ofTables]
  rfl

variable [IsStrictOrderedRing K]

theorem starStat_central_join (p : K) (h : ∀ u ∈ key.getTableList, u ∈ e.getTableList) :
    (starStat p db e key).centralDs = joinKeySketch p db e key.getTableList := by
  have hperm : compress p (centralCalls key.getTableList (countsOf db e.entries.toList).toList) =
      compress p ((joinKeyBag K db e key.getTableList).map fun d => (d, 1)) := by
    refine compress_congr posCounts_centralCalls (posCounts_ones _) ?_
    rw [spread_map_one]
    exact perm_joinKeyBag h
  rw [starStat, finishCollection_centralDs, addCounts_centralDs, finishCollection_eq_mk,
    joinKeySketch, ← hperm, ← starStat_card_join p h, starStat, finishCollection_card]
  rfl

theorem starStat_dsOf_join (p : K) (h : ∀ u ∈ key.getTableList, u ∈ e.getTableList)
    (ht : t ∈ key.getTableList) :
    (starStat p db e key).dsOf t = joinRowSketch p db e key.getTableList t := by
  set n := key.getTableList.count t with hn
  have hflat : (joinRowBag K db e key.getTableList t).flatMap (fun d => List.replicate n (d, 1)) =
      ((joinRowBag K db e key.getTableList t).map fun d => (d, (1 : ℤ))).flatMap
        (List.replicate n) := by
    rw [List.flatMap_map]
  have hpos : ∀ {l : List (K × ℤ)}, PosCounts l → PosCounts (l.flatMap (List.replicate n)) := by
    intro l hl x hx
    obtain ⟨c, hc, hx⟩ := List.mem_flatMap.mp hx
    rw [(List.mem_replicate.mp hx).2]
    exact hl c hc
  have hcalls : (∅ : DegreeSequence K).addDegrees ((starCalls key.getTableList t
        (countsOf db e.entries.toList).toList).flatMap (List.replicate n)) p =
      (∅ : DegreeSequence K).addDegrees ((joinRowBag K db e key.getTableList t).flatMap
        fun d => List.replicate n (d, 1)) p := by
    rw [hflat]
    apply addDegrees_congr (hpos (posCounts_starCalls ht)) (hpos (posCounts_ones _))
    rw [spread_flatMap_replicate, spread_flatMap_replicate, spread_map_one]
    exact (perm_joinRowBag h ht).flatMap_right _
  rw [starStat_dsOf_count, hcalls, starStat_card_join p h]
  rfl

/-- The statistic of a key is decided by what the groups of its tables join. -/
theorem starStat_eq_iff (p : K) (h : ∀ u ∈ key.getTableList, u ∈ e.getTableList)
    (h' : ∀ u ∈ key.getTableList, u ∈ e'.getTableList) :
    starStat p db e key = starStat p db e' key ↔ SameJoins p db e e' key.getTableList := by
  constructor
  · intro heq
    refine ⟨?_, ?_, fun t ht => ?_⟩
    · have hcard := congrArg DSStatistic.card heq
      rw [starStat_card_join p h, starStat_card_join p h'] at hcard
      exact_mod_cast hcard
    · rw [← starStat_central_join p h, ← starStat_central_join p h', heq]
    · rw [← starStat_dsOf_join p h ht, ← starStat_dsOf_join p h' ht, heq]
  · intro hs
    apply (starStat_listed p db e key).ext (starStat_listed p db e' key)
    · rw [starStat_card_join p h, starStat_card_join p h', hs.card]
    · rw [starStat_precision, starStat_precision]
    · rw [starStat_central_join p h, starStat_central_join p h', hs.keys]
    · rw [starStat_tables, starStat_tables]
    · intro t ht
      rw [starStat_tables] at ht
      rw [starStat_dsOf_join p h ht, starStat_dsOf_join p h' ht, hs.rows t ht]

end Stat

end StarCE
