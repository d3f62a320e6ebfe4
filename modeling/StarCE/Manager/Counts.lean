import StarCE.Manager.Collect

/-!
# What the collection query counts

`tableCount db columns v t` is the number of rows of the columns of table `t`
with value `v`; a table that occurs twice has its columns added up. The query
of an equal set returns, for every key value of the columns, the count of every
table (`countNum_bag`), grouped by frequency.
-/

namespace StarCE

variable {V : Type} [DecidableEq V]

/-- The values of a column that are not NULL. -/
def columnValues (db : Database V) (c : TableColumn) : List V :=
  (db c.tableName).filterMap fun r => r c.columnName

def columnCount (db : Database V) (c : TableColumn) (v : V) : ℕ := (columnValues db c).count v

def tableCount (db : Database V) (columns : List TableColumn) (v : V) (table : Table) : ℤ :=
  ((columns.filter fun c => c.tableName = table).map fun c => (columnCount db c v : ℤ)).sum

/-- The key values, as the query groups them. -/
def keys (db : Database V) (columns : List TableColumn) : List V :=
  ((aggregateQueries db columns).map (·.val)).dedup

def tableNames (columns : List TableColumn) : List Table := columns.map (·.tableName)

/-- The count of every table at a key value. -/
def countMap (db : Database V) (columns : List TableColumn) (v : V) : CountMap :=
  OrdMap.ofKeys (tableNames columns) (tableCount db columns v)

variable {db : Database V} {columns : List TableColumn} {v : V}

theorem nodup_keys : (keys db columns).Nodup := List.nodup_dedup _

theorem mem_keys : v ∈ keys db columns ↔ ∃ c ∈ columns, v ∈ columnValues db c := by
  simp only [keys, List.mem_dedup, List.mem_map, aggregateQueries, List.mem_flatMap]
  constructor
  · rintro ⟨a, ⟨c, hc, ha⟩, rfl⟩
    obtain ⟨u, hu, rfl⟩ := List.mem_map.mp ha
    exact ⟨c, hc, List.mem_dedup.mp hu⟩
  · rintro ⟨c, hc, hv⟩
    exact ⟨_, ⟨c, hc, List.mem_map_of_mem (List.mem_dedup.mpr hv)⟩, rfl⟩

theorem columnCount_pos {c : TableColumn} : 0 < columnCount db c v ↔ v ∈ columnValues db c :=
  List.count_pos_iff

theorem tableCount_nonneg (table : Table) : 0 ≤ tableCount db columns v table :=
  List.sum_nonneg fun x hx => by
    obtain ⟨c, _, rfl⟩ := List.mem_map.mp hx
    exact Int.natCast_nonneg _

/-! ## The query -/

theorem caseSum_aggregateQuery (c : TableColumn) (table : Table) :
    caseSum (aggregateQuery db c) v table =
      if c.tableName = table then (columnCount db c v : ℤ) else 0 := by
  have hsel : ((columnValues db c).dedup.filter fun u => decide (u = v)) =
      if v ∈ columnValues db c then [v] else [] := by
    rw [List.filter_eq]
    split
    · next h => rw [List.count_eq_one_of_mem (List.nodup_dedup _) (List.mem_dedup.mpr h)]; rfl
    · next h => rw [List.count_eq_zero.mpr (by simpa using h)]; rfl
  have h : aggregateQuery db c = (columnValues db c).dedup.map fun u =>
      ⟨u, c.tableName, columnCount db c u⟩ := rfl
  rw [caseSum, h, List.filter_map, List.map_map]
  simp only [Function.comp_def]
  rw [hsel]
  by_cases hv : v ∈ columnValues db c
  · simp [hv]
  · simp [hv, columnCount, List.count_eq_zero.mpr hv]

theorem caseSum_aggregateQueries (table : Table) :
    caseSum (aggregateQueries db columns) v table = tableCount db columns v table := by
  induction columns with
  | nil => rfl
  | cons c l ih =>
    have hsplit : caseSum (aggregateQueries db (c :: l)) v table =
        caseSum (aggregateQuery db c) v table + caseSum (aggregateQueries db l) v table := by
      simp [caseSum, aggregateQueries]
    rw [hsplit, ih, caseSum_aggregateQuery, tableCount, tableCount]
    by_cases h : c.tableName = table <;> simp [h]

theorem pivotQuery_eq : pivotQuery db columns =
    (keys db columns).map fun v => columns.map fun c => tableCount db columns v c.tableName := by
  simp only [pivotQuery, caseSum_aggregateQueries, keys]

/-- A repeated name refers to a column with the same counts. -/
theorem reference_eq (f : Table → ℤ) {c : TableColumn} (hc : c ∈ columns) :
    reference (columns.map fun c => cntColumn c.tableName) (columns.map fun c => f c.tableName)
      (cntColumn c.tableName) = f c.tableName := by
  have hlt : (columns.map fun c => cntColumn c.tableName).idxOf (cntColumn c.tableName) <
      (columns.map fun c => cntColumn c.tableName).length :=
    List.idxOf_lt_length_iff.mpr (List.mem_map_of_mem (f := fun c => cntColumn c.tableName) hc)
  have hget := List.getElem_idxOf hlt
  rw [List.length_map] at hlt
  rw [List.getElem_map] at hget
  rw [reference, List.getD_eq_getElem _ _ (by rwa [List.length_map]), List.getElem_map]
  exact congrArg f ((String.append_left_inj _).mp hget)

theorem readCountMap_eq (f : Table → ℤ) :
    readCountMap columns (columns.map fun c => f c.tableName) =
      OrdMap.ofKeys (tableNames columns) f := by
  rw [readCountMap, List.zip_map_right, OrdMap.ofKeys, tableNames, List.foldl_map, List.foldl_map]
  generalize (∅ : CountMap) = m
  induction columns generalizing m with
  | nil => rfl
  | cons c l ih => simpa using ih _

theorem countNumQuery_eq : countNumQuery db columns =
    ((keys db columns).map fun v => columns.map fun c => tableCount db columns v c.tableName).dedup.map
      fun row => (row, (((keys db columns).map fun v =>
        columns.map fun c => tableCount db columns v c.tableName).count row : ℤ)) := by
  simp only [countNumQuery, pivotQuery_eq, List.map_map, Function.comp_def]
  have h : ∀ v, (columns.map fun c => reference (columns.map fun c => cntColumn c.tableName)
      (columns.map fun c => tableCount db columns v c.tableName) (cntColumn c.tableName)) =
      columns.map fun c => tableCount db columns v c.tableName := fun v =>
    List.map_congr_left fun c hc => reference_eq _ hc
  simp only [h]

/-! ## `count_num` -/

/-- A count vector is known from its count map. -/
theorem readCountMap_injOn {f g : Table → ℤ}
    (h : readCountMap columns (columns.map fun c => f c.tableName) =
      readCountMap columns (columns.map fun c => g c.tableName)) :
    columns.map (fun c => f c.tableName) = columns.map fun c => g c.tableName := by
  rw [readCountMap_eq, readCountMap_eq] at h
  refine List.map_congr_left fun c hc => ?_
  have := congrArg (fun m => OrdMap.find? m c.tableName) h
  have hm : c.tableName ∈ tableNames columns := List.mem_map_of_mem hc
  simpa [OrdMap.find?_ofKeys, hm] using this

theorem count_map_of_injOn {α β : Type} [BEq α] [LawfulBEq α] [BEq β] [LawfulBEq β] (l : List α) (f : α → β)
    (a : α) (h : ∀ b ∈ l, f b = f a → b = a) : (l.map f).count (f a) = l.count a := by
  induction l with
  | nil => rfl
  | cons b l ih =>
    rw [List.map_cons, List.count_cons, List.count_cons, ih fun c hc => h c (.tail _ hc)]
    by_cases hb : b = a
    · rw [hb]; simp
    · have : f b ≠ f a := fun he => hb (h b (.head _) he)
      simp [hb, this]

/-- `count_num` counts the key values by their count maps. -/
theorem countNum_eq {eset : EqualSet} (h : eset.entries.toList ≠ []) :
    countNum db eset = .ok (OrdMap.ofKeys
      ((keys db eset.entries.toList).map (countMap db eset.entries.toList)) fun m =>
        (((keys db eset.entries.toList).map (countMap db eset.entries.toList)).count m : ℤ)) := by
  rw [countNum, if_neg h, countNumQuery_eq]
  generalize eset.entries.toList = columns at *
  set vec := fun v => columns.map fun c => tableCount db columns v c.tableName with hvec
  set rows := (keys db columns).map vec with hrows
  have hcm : ∀ v, readCountMap columns (vec v) = countMap db columns v := fun v =>
    readCountMap_eq _
  have hcms : rows.map (readCountMap columns) = (keys db columns).map (countMap db columns) := by
    rw [hrows, List.map_map]; exact List.map_congr_left fun v _ => hcm v
  have hcount : ∀ row ∈ rows, (rows.count row : ℤ) =
      (((keys db columns).map (countMap db columns)).count (readCountMap columns row) : ℤ) := by
    intro row hrow
    rw [← hcms, count_map_of_injOn]
    intro row' hrow' he
    obtain ⟨v, _, rfl⟩ := List.mem_map.mp hrow
    obtain ⟨v', _, rfl⟩ := List.mem_map.mp hrow'
    exact readCountMap_injOn he
  congr 1
  rw [← hcms] at hcount ⊢
  rw [OrdMap.ofKeys_congr _ (show ∀ k, k ∈ _ ↔ k ∈ rows.dedup.map (readCountMap columns) by simp),
    OrdMap.ofKeys, List.foldl_map, List.foldl_map]
  generalize (∅ : OrdMap CountMap ℤ) = m
  have hsub : ∀ row ∈ rows.dedup, row ∈ rows := fun row => List.mem_dedup.mp
  generalize rows.dedup = l at hsub
  induction l generalizing m with
  | nil => rfl
  | cons row l ih =>
    rw [List.foldl_cons, List.foldl_cons, hcount row (hsub row (.head _))]
    exact ih _ fun r hr => hsub r (.tail _ hr)

/-- The bag of count maps that `count_num` stands for. -/
theorem countNum_bag {eset : EqualSet} (h : eset.entries.toList ≠ []) :
    ∃ counts, countNum db eset = .ok counts ∧
      counts.bag.Perm ((keys db eset.entries.toList).map (countMap db eset.entries.toList)) :=
  ⟨_, countNum_eq h, OrdMap.bag_ofKeys_count _⟩

end StarCE
