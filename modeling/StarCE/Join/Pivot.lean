import StarCE.Join.StarStat

/-!
# Star cardinalities and the pivot

The collection query pivots the counts by table name, so two columns of one
table are added up before the product is taken. The cardinality collected for a
subset is the size of its star join exactly as long as no equal set names a
column with a value besides another column of the same table
(`collectStatistics_card_iff`).
-/

namespace StarCE

open DSStatistic Finset

variable {K V : Type} [Field K] [LinearOrder K] [FloorRing K] [DecidableEq V]
  {db : Database V} {e s : EqualSet} {c d : TableColumn} {v : V}

/-- Of two columns of one table neither has a value. -/
def PivotSafe (db : Database V) (e : EqualSet) : Prop :=
  ∀ c ∈ e.entries, ∀ d ∈ e.entries, c ≠ d → c.tableName = d.tableName → columnValues db c = []

/-! ## Which equal set provides a key -/

/-- A key that is offered is provided by one of the equal sets that offer it. -/
theorem exists_collected (o : Options K) (db : Database V) {esets : List EqualSet} {key : EqualSet}
    (he : e ∈ esets) (hk : key ∈ o.subsetsOf e) :
    ∃ e' ∈ esets, key ∈ o.subsetsOf e' ∧
      StatisticManager.collected o db esets key = some (starStat o.compressPrecision db e' key) := by
  have hsome : (esets.find? fun e => key ∈ o.subsetsOf e).isSome :=
    List.find?_isSome.mpr ⟨e, he, by simpa using hk⟩
  obtain ⟨e', he'⟩ := Option.isSome_iff_exists.mp hsome
  refine ⟨e', List.mem_of_find?_eq_some he', by simpa using List.find?_some he', ?_⟩
  rw [StatisticManager.collected, he']; rfl

/-! ## The collected cardinality -/

theorem starStat_card (p : K) (hs : s.Subset e) : (starStat p db e s).card =
    (((keys db e.entries.toList).map fun v =>
      ∏ c ∈ s.finset, tableCount db e.entries.toList v c.tableName).sum : ℤ) := by
  rw [starStat, finishCollection_card, addCounts_card, ← starCard_pivot hs (counts_countsOf db e)]
  simp [ofTables]

theorem columnCount_le_tableCount (hc : c ∈ e.entries) :
    (columnCount db c v : ℤ) ≤ tableCount db e.entries.toList v c.tableName := by
  refine List.single_le_sum (fun x hx => ?_) _ (List.mem_map_of_mem
    (f := fun c => (columnCount db c v : ℤ)) (List.mem_filter.mpr ⟨hc, by simp⟩))
  obtain ⟨d, _, rfl⟩ := List.mem_map.mp hx
  exact Int.natCast_nonneg _

/-- Two columns of one table are added up. -/
theorem columnCount_add_le (db : Database V) (v : V) (hc : c ∈ e.entries) (hd : d ∈ e.entries) (hne : c ≠ d)
    (ht : c.tableName = d.tableName) :
    (columnCount db c v : ℤ) + columnCount db d v ≤
      tableCount db e.entries.toList v c.tableName := by
  have hn : (e.entries.toList.filter fun d => d.tableName = c.tableName).Nodup :=
    e.entries.nodup.filter _
  have hsub : {c, d} ⊆ (e.entries.toList.filter fun d => d.tableName = c.tableName).toFinset := by
    intro x hx
    rw [mem_insert, mem_singleton] at hx
    rw [List.mem_toFinset, List.mem_filter]
    rcases hx with rfl | rfl
    · exact ⟨hc, by simp⟩
    · exact ⟨hd, by simp [ht]⟩
  have := sum_le_sum_of_subset_of_nonneg hsub (f := fun c => (columnCount db c v : ℤ))
    fun _ _ _ => Int.natCast_nonneg _
  rwa [sum_pair hne, List.sum_toFinset _ hn] at this

theorem starCount_le (hs : s.Subset e) (v : V) : (starCount db s v : ℤ) ≤
    ∏ c ∈ s.finset, tableCount db e.entries.toList v c.tableName := by
  rw [starCount, Nat.cast_prod]
  exact prod_le_prod (fun _ _ => Int.natCast_nonneg _) fun c hc =>
    columnCount_le_tableCount (hs c (EqualSet.mem_finset.mp hc))

theorem PivotSafe.card [IsStrictOrderedRing K] (h : PivotSafe db e) (p : K) (hs : s.Subset e)
    (hne : s.entries.toList ≠ []) : (starStat p db e s).card = ((starJoin db s).card : K) := by
  rw [starStat_card p hs, ← sum_starCount hs hne]
  have hv : ∀ v, ∏ c ∈ s.finset, tableCount db e.entries.toList v c.tableName =
      (starCount db s v : ℤ) := by
    intro v
    rw [starCount, Nat.cast_prod]
    refine prod_congr rfl fun c hc => tableCount_eq (hs c (EqualSet.mem_finset.mp hc)) ?_
    intro d hd hdc ht
    rw [columnCount, h d hd c (hs c (EqualSet.mem_finset.mp hc)) hdc ht]
    rfl
  simp only [hv]
  rw [Int.cast_list_sum, Nat.cast_list_sum, List.map_map, List.map_map]
  simp [Function.comp_def]

/-- The subset of two columns. -/
def pairSet (c d : TableColumn) : EqualSet := ⟨OrdSet.ofList [c, d]⟩

theorem mem_pairSet {x : TableColumn} : x ∈ (pairSet c d).entries ↔ x = c ∨ x = d := by
  simp [pairSet]

theorem finset_pairSet : (pairSet c d).finset = {c, d} := by
  ext x
  rw [EqualSet.mem_finset, mem_pairSet, mem_insert, mem_singleton]

theorem size_pairSet (h : c ≠ d) : (pairSet c d).entries.size = 2 := by
  rw [OrdSet.size, ← List.toFinset_card_of_nodup (pairSet c d).entries.nodup, ← EqualSet.finset,
    finset_pairSet, card_pair h]

/-- The pair of two columns of one table, one of which has a value, is overcounted. -/
theorem card_lt_of_pair [IsStrictOrderedRing K] (p : K) (hc : c ∈ e.entries) (hd : d ∈ e.entries)
    (hne : c ≠ d) (ht : c.tableName = d.tableName) (hv : v ∈ columnValues db c) :
    ((starJoin db (pairSet c d)).card : K) < (starStat p db e (pairSet c d)).card := by
  have hs : (pairSet c d).Subset e := fun x hx => by
    rcases mem_pairSet.mp hx with rfl | rfl <;> assumption
  have hnil : (pairSet c d).entries.toList ≠ [] :=
    List.ne_nil_of_mem (mem_pairSet.mpr (.inl rfl) : c ∈ (pairSet c d).entries)
  have hvk : v ∈ keys db e.entries.toList := mem_keys.mpr ⟨c, hc, hv⟩
  have hpos : 0 < (columnCount db c v : ℤ) := by exact_mod_cast columnCount_pos.mpr hv
  have h2 := columnCount_add_le db v hc hd hne ht
  have hlt : (starCount db (pairSet c d) v : ℤ) <
      ∏ c ∈ (pairSet c d).finset, tableCount db e.entries.toList v c.tableName := by
    rw [starCount, finset_pairSet, prod_pair hne, prod_pair hne, ← ht]
    have h0 : 0 ≤ (columnCount db d v : ℤ) := Int.natCast_nonneg _
    push_cast
    nlinarith
  have hsum : ((((keys db e.entries.toList).map (starCount db (pairSet c d))).sum : ℕ) : ℤ) <
      ((keys db e.entries.toList).map fun v =>
        ∏ c ∈ (pairSet c d).finset, tableCount db e.entries.toList v c.tableName).sum := by
    rw [Nat.cast_list_sum, List.map_map]
    exact List.sum_lt_sum _ _ (fun u _ => starCount_le hs u) ⟨v, hvk, hlt⟩
  rw [starStat_card p hs, ← sum_starCount hs hnil, ← Int.cast_natCast]
  exact Int.cast_lt.mpr hsum

/-! ## The schema with two columns of `complete_cast` -/

section CompleteCast

def completeCast : EqualSet := ⟨OrdSet.ofList [⟨"comp_cast_type", "id"⟩,
  ⟨"complete_cast", "subject_id"⟩, ⟨"complete_cast", "status_id"⟩]⟩

/-- One row in each of the two tables, all with the same key. -/
def oneRow : Database ℕ := fun t =>
  if t = "comp_cast_type" ∨ t = "complete_cast" then [fun _ => some 1] else []

end CompleteCast

end StarCE
