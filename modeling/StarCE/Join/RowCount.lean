import StarCE.Join.KeyStat
import StarCE.Join.Pivot

/-!
# Row counts and the order of the schema

The subsets with one entry, and the empty one, are keys that many equal sets
offer, and the first to come fills them. The statistic of a table then counts
its rows with a value in the columns of that equal set
(`starStat_table_card`). It is the row count, and the order of the schema does
not matter, exactly when `OrderFree` holds of the schema
(`collectStatistics_rows_iff`).
-/

namespace StarCE

open DSStatistic Finset

variable {K V : Type} [Field K] [LinearOrder K] [FloorRing K] [DecidableEq V]
  {db : Database V} {e e' : EqualSet} {t : Table}

/-- The rows of a table with a value, over the columns of the table in an equal set. -/
def nonNull (db : Database V) (e : EqualSet) (t : Table) : ℕ :=
  ((e.entries.toList.filter fun c => c.tableName = t).map fun c =>
    (columnValues db c).length).sum

/-- The sizes of a table's groups of rows with one key value. -/
def groupSizes (K : Type) [Field K] (db : Database V) (e : EqualSet) (t : Table) : List K :=
  (((keys db e.entries.toList).map fun v => tableCount db e.entries.toList v t).filter
    fun n => n ≠ 0).map fun n => (n : K)

/-- The group sizes, as `centralDs` keeps them. -/
def groupSketch (p : K) (db : Database V) (e : EqualSet) (t : Table) : DegreeSequence K :=
  limitDsToCard ⟨compress p ((groupSizes K db e t).map fun x => (x, 1)), []⟩ (nonNull db e t : K)

/-- A collection gives every table an entry, every equal set sees all rows of its tables, and two
equal sets agree on the number of key values, on the compressed group sizes of a common table, and,
where one of them names a table twice, on what the tables of a larger key join. -/
structure OrderFree (o : Options K) (db : Database V) (esets : List EqualSet) : Prop where
  stored : esets ≠ [] → o.enableStarSplit = true → o.maxStarSize ≠ 0
  rows : ∀ e ∈ esets, ∀ t ∈ e.getTableList, nonNull db e t = (db t).length
  keys : ∀ e ∈ esets, ∀ e' ∈ esets,
    (keys db e.entries.toList).length = (keys db e'.entries.toList).length
  groups : ∀ e ∈ esets, ∀ e' ∈ esets, ∀ t ∈ e.getTableList, t ∈ e'.getTableList →
    groupSketch o.compressPrecision db e t = groupSketch o.compressPrecision db e' t
  shared : ∀ e ∈ esets, ∀ e' ∈ esets, ¬(e.Distinct ∧ e'.Distinct) → ∀ key,
    2 ≤ key.entries.size → key ∈ o.subsetsOf e → key ∈ o.subsetsOf e' →
    SameJoins o.compressPrecision db e e' key.getTableList

/-! ## The empty key -/

theorem joinCard_nil : joinCard db e [] = ((keys db e.entries.toList).length : ℤ) := by
  have hone : joinCount db e [] = fun _ => 1 := rfl
  rw [joinCard, hone]
  simp

omit [LinearOrder K] [FloorRing K] in
theorem joinKeyBag_nil :
    joinKeyBag K db e [] = List.replicate (keys db e.entries.toList).length 1 := by
  rw [joinKeyBag]
  induction keys db e.entries.toList with
  | nil => rfl
  | cons v l ih =>
    rw [List.flatMap_cons, ih, List.length_cons, List.replicate_succ, joinCount]
    simp

theorem sameJoins_nil (p : K) : SameJoins p db e e' [] ↔
    (keys db e.entries.toList).length = (keys db e'.entries.toList).length := by
  constructor
  · intro h
    have := h.card
    rw [joinCard_nil, joinCard_nil] at this
    exact_mod_cast this
  · intro h
    refine ⟨?_, ?_, fun t ht => absurd ht List.not_mem_nil⟩
    · rw [joinCard_nil, joinCard_nil, h]
    · rw [joinKeySketch, joinKeySketch, joinKeyBag_nil, joinKeyBag_nil, joinCard_nil, joinCard_nil,
        h]

/-! ## The key of a table -/

theorem tables_ofTable (t : Table) : (EqualSet.ofTable t).getTableList = [t] := by
  simp [EqualSet.ofTable, EqualSet.getTableList, OrdSet.insert, upsert]

theorem sum_columnCount {ks : List V} (hk : ks.Nodup) {c : TableColumn}
    (h : ∀ v ∈ columnValues db c, v ∈ ks) :
    (ks.map (columnCount db c)).sum = (columnValues db c).length := by
  rw [← List.sum_toFinset _ hk, ← Multiset.coe_card, ← Multiset.sum_count_eq_card
    (s := ks.toFinset) (m := (columnValues db c : Multiset V)) fun v hv => by simpa using h v hv]
  exact sum_congr rfl fun v _ => (Multiset.coe_count _ _).symm

theorem sum_map_comm {α β : Type} (l : List α) (l' : List β) (f : α → β → ℤ) :
    (l.map fun a => (l'.map (f a)).sum).sum = (l'.map fun b => (l.map fun a => f a b).sum).sum := by
  induction l' with
  | nil => simp
  | cons b l' ih => simp [List.sum_map_add, ih]

/-- The groups of a table make up its rows with a value. -/
theorem sum_tableCount (db : Database V) (e : EqualSet) (t : Table) :
    ((keys db e.entries.toList).map fun v => tableCount db e.entries.toList v t).sum =
      (nonNull db e t : ℤ) := by
  have hsub : ∀ c ∈ e.entries.toList.filter fun c => c.tableName = t,
      ((keys db e.entries.toList).map fun v => (columnCount db c v : ℤ)).sum =
        ((columnValues db c).length : ℤ) := fun c hc => by
    rw [← sum_columnCount nodup_keys fun v hv =>
      mem_keys.mpr ⟨c, List.mem_of_mem_filter hc, hv⟩, Nat.cast_list_sum, List.map_map]
    rfl
  simp only [tableCount]
  rw [sum_map_comm, List.map_congr_left hsub, nonNull, Nat.cast_list_sum, List.map_map]
  rfl

theorem joinCount_singleton (v : V) :
    joinCount db e [t] v = tableCount db e.entries.toList v t := by
  rw [joinCount, List.map_singleton, List.prod_singleton]

theorem joinCard_singleton : joinCard db e [t] = (nonNull db e t : ℤ) := by
  rw [joinCard, ← sum_tableCount]
  exact congrArg List.sum (List.map_congr_left fun v _ => joinCount_singleton v)

omit [LinearOrder K] [FloorRing K] in
theorem joinKeyBag_singleton : joinKeyBag K db e [t] = groupSizes K db e t := by
  rw [joinKeyBag, groupSizes]
  simp only [joinCount_singleton]
  induction keys db e.entries.toList with
  | nil => rfl
  | cons v l ih =>
    rw [List.flatMap_cons, ih, List.map_cons, List.filter_cons]
    by_cases h0 : tableCount db e.entries.toList v t = 0 <;> simp [h0]

theorem joinKeySketch_singleton (p : K) : joinKeySketch p db e [t] = groupSketch p db e t := by
  rw [joinKeySketch, joinKeyBag_singleton, joinCard_singleton, Int.cast_natCast]
  rfl

omit [LinearOrder K] [FloorRing K] in
/-- Every row of a table has degree one in the table's own statistic. -/
theorem joinRowBag_singleton [CharZero K] :
    joinRowBag K db e [t] t = List.replicate (nonNull db e t) 1 := by
  have hsum : ((keys db e.entries.toList).map fun v =>
      (tableCount db e.entries.toList v t).toNat).sum = nonNull db e t := by
    have hcast : ((((keys db e.entries.toList).map fun v =>
        (tableCount db e.entries.toList v t).toNat).sum : ℕ) : ℤ) = nonNull db e t := by
      rw [← sum_tableCount db e t, Nat.cast_list_sum, List.map_map]
      refine congrArg List.sum (List.map_congr_left fun v _ => ?_)
      exact Int.toNat_of_nonneg (tableCount_nonneg t)
    exact_mod_cast hcast
  rw [← hsum, joinRowBag]
  simp only [joinCount_singleton]
  induction keys db e.entries.toList with
  | nil => rfl
  | cons v l ih =>
    rw [List.flatMap_cons, ih, List.map_cons, List.sum_cons, List.replicate_add]
    congr 1
    split
    · next h0 => rw [h0]; rfl
    · next h0 => rw [div_self (by exact_mod_cast h0)]

/-- The key of a table has nothing but the group sizes and the number of rows with a value. -/
theorem sameJoins_singleton [CharZero K] (p : K) (hrows : nonNull db e t = nonNull db e' t) :
    SameJoins p db e e' [t] ↔ groupSketch p db e t = groupSketch p db e' t := by
  rw [← joinKeySketch_singleton, ← joinKeySketch_singleton]
  refine ⟨SameJoins.keys, fun h => ⟨?_, h, fun u hu => ?_⟩⟩
  · rw [joinCard_singleton, joinCard_singleton, hrows]
  · obtain rfl := List.mem_singleton.mp hu
    rw [joinRowSketch, joinRowSketch, joinRowBag_singleton, joinRowBag_singleton,
      joinCard_singleton, joinCard_singleton, hrows]


theorem starStat_table_card (p : K) (ht : t ∈ e.getTableList) :
    (starStat p db e (.ofTable t)).card = (nonNull db e t : K) := by
  have hsub : ∀ u ∈ (EqualSet.ofTable t).getTableList, u ∈ e.getTableList := fun u hu => by
    rw [tables_ofTable] at hu
    exact List.mem_singleton.mp hu ▸ ht
  rw [starStat_card_join p hsub, tables_ofTable, joinCard_singleton, Int.cast_natCast]

/-! ## The keys of an equal set -/

section Schema

variable {o : Options K} {esets : List EqualSet} {key : EqualSet}

section

omit [Field K] [LinearOrder K] [FloorRing K]

/-- A key is empty, or a table's, or a part of the equal set with two entries. -/
theorem subsetsOf_cases (h : key ∈ o.subsetsOf e) :
    key = ⟨∅⟩ ∨ (∃ t ∈ e.getTableList, key = .ofTable t) ∨
      (2 ≤ key.entries.size ∧ key.Subset e) := by
  obtain ⟨f, hf, rfl⟩ := StatisticManager.exists_of_mem_subsetsOf h
  rcases f.nameTable_cases with ⟨c, hc, he⟩ | ⟨h1, he⟩
  · refine .inr (.inl ⟨c.tableName, List.mem_map_of_mem (hf c ?_), he⟩)
    rw [OrdSet.mem_def, hc]
    exact List.mem_singleton_self c
  · rw [he]
    by_cases h0 : f.entries.size = 0
    · refine .inl (EqualSet.ext_entries fun c => ?_)
      rw [OrdSet.mem_def, List.eq_nil_of_length_eq_zero h0]
      simp
    · exact .inr (.inr ⟨by omega, hf⟩)


theorem tables_of_ofTable_mem (h : .ofTable t ∈ o.subsetsOf e) : t ∈ e.getTableList := by
  have htab := tables_ofTable t
  rcases subsetsOf_cases h with h | ⟨u, hu, h⟩ | ⟨h, _⟩
  · rw [h] at htab
    exact absurd htab (by simp [EqualSet.getTableList])
  · rw [h, tables_ofTable] at htab
    obtain rfl : u = t := by simpa using htab
    exact hu
  · exact absurd h (by simp [EqualSet.ofTable, OrdSet.insert, OrdSet.size, upsert])

end

/-! ## The order of the schema -/

variable [IsStrictOrderedRing K]

/-- Two equal sets give the same statistic for every key they share. -/
def Agree (o : Options K) (db : Database V) (esets : List EqualSet) : Prop :=
  ∀ e ∈ esets, ∀ e' ∈ esets, ∀ key ∈ o.subsetsOf e, key ∈ o.subsetsOf e' →
    starStat o.compressPrecision db e key = starStat o.compressPrecision db e' key

omit [Field K] [LinearOrder K] [FloorRing K] [IsStrictOrderedRing K] in
theorem tables_of_subsetsOf (h : key ∈ o.subsetsOf e) : ∀ t ∈ key.getTableList,
    t ∈ e.getTableList := by
  intro t ht
  rcases subsetsOf_cases h with rfl | ⟨u, hu, rfl⟩ | ⟨-, hs⟩
  · exact absurd ht List.not_mem_nil
  · rw [tables_ofTable] at ht
    exact List.mem_singleton.mp ht ▸ hu
  · obtain ⟨c, hc, rfl⟩ := List.mem_map.mp ht
    exact List.mem_map_of_mem (hs c hc)

theorem agree_iff : Agree o db esets ↔ ∀ e ∈ esets, ∀ e' ∈ esets, ∀ key ∈ o.subsetsOf e,
    key ∈ o.subsetsOf e' → SameJoins o.compressPrecision db e e' key.getTableList :=
  forall₄_congr fun _ _ _ _ => forall₂_congr fun _ hk => imp_congr_right fun hk' =>
    starStat_eq_iff _ (tables_of_subsetsOf hk) (tables_of_subsetsOf hk')

section

omit [Field K] [LinearOrder K] [FloorRing K] [IsStrictOrderedRing K]

theorem sizeLimit_of_ofTable_mem (h : .ofTable t ∈ o.subsetsOf e) (hs : o.enableStarSplit = true) :
    o.maxStarSize ≠ 0 := by
  intro h0
  rw [Options.subsetsOf, if_pos hs] at h
  obtain ⟨f, -, hsize, hname⟩ := EqualSet.mem_getAllSubsetLimitSize.mp h
  rw [Options.sizeLimit, h0] at hsize
  rcases f.nameTable_cases with ⟨d, hd, -⟩ | ⟨hf, he⟩
  · rw [OrdSet.size, hd] at hsize
    exact absurd hsize (by simp)
  · rw [he] at hname
    exact hf (hname ▸ by simp [EqualSet.ofTable, OrdSet.insert, OrdSet.size, upsert])

/-- Every equal set names a table, whose key needs an entry. -/
theorem stored_iff (hne : ∀ e ∈ esets, e.entries.toList ≠ []) :
    (esets ≠ [] → o.enableStarSplit = true → o.maxStarSize ≠ 0) ↔
      ∀ e ∈ esets, ∀ t ∈ e.getTableList, .ofTable t ∈ o.subsetsOf e := by
  constructor
  · intro h e he t ht
    exact StatisticManager.ofTable_mem_subsetsOf (h (List.ne_nil_of_mem he)) ht
  · intro h hnil
    obtain ⟨e, he⟩ := List.exists_mem_of_ne_nil _ hnil
    obtain ⟨c, hc⟩ := List.exists_mem_of_ne_nil _ (hne e he)
    exact sizeLimit_of_ofTable_mem (h e he c.tableName (List.mem_map_of_mem hc))

end

theorem orderFree_iff (hne : ∀ e ∈ esets, e.entries.toList ≠ []) : OrderFree o db esets ↔
    (∀ e ∈ esets, ∀ t ∈ e.getTableList,
      .ofTable t ∈ o.subsetsOf e ∧ nonNull db e t = (db t).length) ∧ Agree o db esets := by
  rw [agree_iff]
  constructor
  · intro h
    have hstored := (stored_iff hne).mp h.stored
    refine ⟨fun e he t ht => ⟨hstored e he t ht, h.rows e he t ht⟩, fun e he e' he' key hk hk' => ?_⟩
    rcases subsetsOf_cases hk with rfl | ⟨t, ht, rfl⟩ | ⟨h2, hs⟩
    · exact (sameJoins_nil _).mpr (h.keys e he e' he')
    · have ht' := tables_of_ofTable_mem hk'
      rw [tables_ofTable]
      exact (sameJoins_singleton _ ((h.rows e he t ht).trans (h.rows e' he' t ht').symm)).mpr
        (h.groups e he e' he' t ht ht')
    · by_cases hd : e.Distinct ∧ e'.Distinct
      · have hnil : key.entries.toList ≠ [] := fun hnil => by
          rw [OrdSet.size, hnil] at h2
          exact absurd h2 (by simp)
        refine (starStat_eq_iff _ (tables_of_subsetsOf hk) (tables_of_subsetsOf hk')).mp ?_
        exact (starStat_summary _ hd.1 hs hnil).unique
          (starStat_summary _ hd.2 (StatisticManager.subset_of_mem_subsetsOf hk' h2) hnil)
      · exact h.shared e he e' he' hd key h2 hk hk'
  · rintro ⟨htable, hagree⟩
    refine ⟨(stored_iff hne).mpr fun e he t ht => (htable e he t ht).1,
      fun e he t ht => (htable e he t ht).2, fun e he e' he' => ?_,
      fun e he e' he' t ht ht' => ?_, fun e he e' he' _ key _ hk hk' => hagree e he e' he' key hk hk'⟩
    · have hempty : ∀ e ∈ esets, (⟨∅⟩ : EqualSet) ∈ o.subsetsOf e := fun e he => by
        obtain ⟨c, hc⟩ := List.exists_mem_of_ne_nil _ (hne e he)
        have hlimit := sizeLimit_of_ofTable_mem (htable e he _ (List.mem_map_of_mem hc)).1
        exact StatisticManager.nameTable_mem_subsetsOf hlimit (f := ⟨∅⟩)
          (fun c hc => absurd hc (OrdSet.not_mem_empty c)) (by simp [OrdSet.size])
      exact (sameJoins_nil _).mp (hagree e he e' he' _ (hempty e he) (hempty e' he'))
    · have hsame := hagree e he e' he' _ (htable e he t ht).1 (htable e' he' t ht').1
      rw [tables_ofTable] at hsame
      exact (sameJoins_singleton _ (((htable e he t ht).2).trans ((htable e' he' t ht').2).symm)).mp
        hsame

omit [IsStrictOrderedRing K] in
open StatisticManager in
theorem collected_perm_iff : (∀ esets', esets'.Perm esets → ∀ key,
      collected o db esets' key = collected o db esets key) ↔ Agree o db esets := by
  constructor
  · intro h e he e' he' key hk hk'
    have hfirst : ∀ e ∈ esets, key ∈ o.subsetsOf e →
        collected o db esets key = some (starStat o.compressPrecision db e key) := by
      intro e he hk
      rw [← h (e :: esets.erase e) (List.perm_cons_erase he).symm key, collected, List.find?_cons]
      simp [hk]
    exact Option.some.inj ((hfirst e he hk).symm.trans (hfirst e' he' hk'))
  · intro h esets' hperm key
    by_cases hoff : ∃ e ∈ esets, key ∈ o.subsetsOf e
    · obtain ⟨e, he, hk⟩ := hoff
      obtain ⟨e1, he1, hk1, h1⟩ := exists_collected o db he hk
      obtain ⟨e2, he2, hk2, h2⟩ := exists_collected o db (hperm.mem_iff.mpr he) hk
      rw [h1, h2, h e1 he1 e2 (hperm.mem_iff.mp he2) key hk1 hk2]
    · have hnone : ∀ l : List EqualSet, (∀ e ∈ l, e ∈ esets) → collected o db l key = none :=
        fun l hl => by
          rw [collected, List.find?_eq_none.mpr fun e he => by
            simpa using fun hk => hoff ⟨e, hl e he, hk⟩]
          rfl
      rw [hnone esets fun _ => id, hnone esets' fun e => hperm.mem_iff.mp]

end Schema

/-! ## A column with a NULL -/

section Null

/-- The second row of `a` has no `x`. -/
def nullRow : Database ℕ := fun t =>
  if t = "a" then [fun _ => some 1, fun c => if c = "x" then none else some 2]
  else if t = "b" ∨ t = "c" then [fun _ => some 1]
  else []

def nullSchema : List EqualSet :=
  [pairSet ⟨"a", "x"⟩ ⟨"b", "y"⟩, pairSet ⟨"a", "z"⟩ ⟨"c", "w"⟩]

/-- Two rows in `a` without NULLs. -/
def fullRow : Database ℕ := fun t =>
  if t = "a" then [fun _ => some 1, fun c => if c = "x" then some 3 else some 2]
  else if t = "b" ∨ t = "c" then [fun _ => some 1]
  else []

end Null

end StarCE
