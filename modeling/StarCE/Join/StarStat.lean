import StarCE.Join.Star
import StarCE.Manager.Collected
import StarCE.Stat.Sketch

/-!
# Collected statistics and star joins

With the tables of an equal set distinct, the statistic it yields for one of
its subsets is a sketch of the star join of that subset: the cardinality is the
number of star rows, the sequence of a table sketches the numbers of star rows
of its rows, and `centralDs` those of the key values (`starStat_summary`). The
order in which the key values come, and their grouping, do not matter.
-/

namespace StarCE

open DSStatistic Finset

variable {K V : Type} [Field K] [LinearOrder K] [FloorRing K] [DecidableEq V]
  {db : Database V} {e s : EqualSet} {c : TableColumn} {v : V}

/-! ## Counts -/

/-- The tables of an equal set are pairwise distinct. -/
def EqualSet.Distinct (e : EqualSet) : Prop := e.getTableList.Nodup

theorem EqualSet.Distinct.eq (h : e.Distinct) {c d : TableColumn} (hc : c ∈ e.entries)
    (hd : d ∈ e.entries) (ht : c.tableName = d.tableName) : c = d :=
  List.inj_on_of_nodup_map h hc hd ht

theorem EqualSet.Distinct.subset (h : e.Distinct) (hs : s.Subset e) : s.Distinct :=
  (List.nodup_map_iff_inj_on s.entries.nodup).mpr fun _ hc _ hd ht =>
    h.eq (hs _ hc) (hs _ hd) ht

theorem countOf_countMap (columns : List TableColumn) {t : Table} (ht : t ∈ tableNames columns)
    (v : V) : countOf (countMap db columns v) t = tableCount db columns v t := by
  rw [countOf, countMap, OrdMap.find?_ofKeys, if_pos ht]; rfl

/-- The count of a table when no other of its columns has the value. -/
theorem tableCount_eq (hc : c ∈ e.entries) (h : ∀ d ∈ e.entries, d ≠ c →
      d.tableName = c.tableName → columnCount db d v = 0) :
    tableCount db e.entries.toList v c.tableName = columnCount db c v := by
  have hn : (e.entries.toList.filter fun d => d.tableName = c.tableName).Nodup :=
    e.entries.nodup.filter _
  rw [tableCount, ← List.sum_toFinset _ hn, sum_eq_single c]
  · intro d hd hne
    obtain ⟨hd, ht⟩ := List.mem_filter.mp (List.mem_toFinset.mp hd)
    exact_mod_cast h d hd hne (by simpa using ht)
  · intro hn
    exact absurd (List.mem_toFinset.mpr (List.mem_filter.mpr ⟨hc, by simp⟩)) hn

theorem EqualSet.Distinct.tableCount (h : e.Distinct) (hc : c ∈ e.entries) :
    tableCount db e.entries.toList v c.tableName = columnCount db c v :=
  tableCount_eq hc fun _ hd hne ht => absurd (h.eq hd hc ht) hne

theorem mem_tableNames (hc : c ∈ e.entries) : c.tableName ∈ tableNames e.entries.toList :=
  List.mem_map_of_mem hc

/-- The product over the tables of a subset, as the pivot has them. -/
theorem starProduct_countMap (hs : s.Subset e) (v : V) :
    starProduct (countMap db e.entries.toList v) s.getTableList =
      ∏ c ∈ s.finset, tableCount db e.entries.toList v c.tableName := by
  rw [EqualSet.prod_finset, starProduct, EqualSet.getTableList, List.map_map]
  refine congrArg List.prod (List.map_congr_left fun c hc => ?_)
  exact countOf_countMap _ (mem_tableNames (hs c hc)) v

theorem EqualSet.Distinct.starProduct (h : e.Distinct) (hs : s.Subset e) (v : V) :
    starProduct (countMap db e.entries.toList v) s.getTableList = starCount db s v := by
  rw [starProduct_countMap hs, starCount, Nat.cast_prod]
  exact prod_congr rfl fun c hc => h.tableCount (hs c (EqualSet.mem_finset.mp hc))

theorem mem_keys_of_live (hs : s.Subset e) (hne : s.entries.toList ≠ [])
    (hv : v ∈ live db s) : v ∈ keys db e.entries.toList := by
  obtain ⟨c, hc⟩ := List.exists_mem_of_ne_nil _ hne
  exact mem_keys.mpr ⟨c, hs c hc,
    columnCount_pos.mp (starCount_pos.mp ((mem_live hne).mp hv) c hc)⟩

/-! ## Grouped counts -/

/-- Count maps with frequencies that stand for the key values of an equal set. -/
structure Counts (db : Database V) (e : EqualSet) (counts : List (CountMap × ℤ)) : Prop where
  freq_pos : ∀ c ∈ counts, 0 < c.2
  perm : (spread counts).Perm ((keys db e.entries.toList).map (countMap db e.entries.toList))

theorem counts_countsOf (db : Database V) (e : EqualSet) :
    Counts db e (countsOf db e.entries.toList).toList := by
  refine ⟨fun c hc => ?_, OrdMap.bag_ofKeys_count _⟩
  have h1 := OrdMap.mem_toList.mp (show (c.1, c.2) ∈ _ from hc)
  rw [countsOf, OrdMap.find?_ofKeys] at h1
  split at h1
  · next hm => rw [← Option.some.inj h1]; exact_mod_cast List.count_pos_iff.mpr hm
  · cases h1

section Calls

variable (tables : List Table) (t : Table) {counts : List (CountMap × ℤ)}

theorem starCard_eq (h : ∀ c ∈ counts, 0 < c.2) :
    starCard tables counts = ((spread counts).map fun m => starProduct m tables).sum := by
  induction counts with
  | nil => rfl
  | cons c l ih =>
    have hc : ((c.2.toNat : ℕ) : ℤ) = c.2 := Int.toNat_of_nonneg (h c (.head _)).le
    rw [starCard, List.map_cons, List.sum_cons, ← starCard, ih fun d hd => h d (.tail _ hd),
      spread_cons, List.map_append, List.sum_append, List.map_replicate, List.sum_replicate,
      nsmul_eq_mul, hc, mul_comm]

/-- The degrees of the rows of `t` at one key value. -/
def keyDegrees (m : CountMap) : List K :=
  if starProduct m tables = 0 then []
  else List.replicate (countOf m t).toNat ((starProduct m tables : K) / (countOf m t : K))

section

omit [LinearOrder K] [FloorRing K]

theorem spread_starCalls (h : ∀ c ∈ counts, 0 < c.2) :
    spread (starCalls tables t counts) = (spread counts).flatMap (keyDegrees (K := K) tables t) := by
  induction counts with
  | nil => rfl
  | cons c l ih =>
    have hc := h c (.head _)
    rw [starCalls, List.filterMap_cons, ← starCalls, spread_cons, List.flatMap_append,
      ← ih fun d hd => h d (.tail _ hd)]
    by_cases hp : starProduct c.1 tables = 0
    · simp [hp, keyDegrees]
    · have hnat : (countOf c.1 t * c.2).toNat = c.2.toNat * (countOf c.1 t).toNat := by
        rcases le_or_gt 0 (countOf c.1 t) with h0 | h0
        · rw [Int.toNat_mul h0 hc.le, mul_comm]
        · rw [Int.toNat_eq_zero.mpr h0.le, Int.toNat_eq_zero.mpr (by nlinarith), mul_zero]
      simp only [hp, if_false]
      rw [List.flatMap_replicate, keyDegrees, if_neg hp, List.flatten_replicate_replicate, ← hnat]
      rfl

theorem spread_centralCalls (h : ∀ c ∈ counts, 0 < c.2) :
    spread (centralCalls tables counts) = (spread counts).flatMap fun m =>
      if starProduct m tables = 0 then [] else [(starProduct m tables : K)] := by
  induction counts with
  | nil => rfl
  | cons c l ih =>
    rw [centralCalls, List.filterMap_cons, ← centralCalls, spread_cons, List.flatMap_append,
      ← ih fun d hd => h d (.tail _ hd)]
    by_cases hp : starProduct c.1 tables = 0
    · simp [hp]
    · rw [List.flatMap_replicate, if_neg hp]
      simp only [hp, if_false]
      rw [spread_cons, List.flatten_replicate_singleton]

end

end Calls

/-! ## The bags behind a statistic -/

/-- The numbers of star rows of the rows of one entry that are in any. -/
def rowBag (db : Database V) (s : EqualSet) (c : TableColumn) : List K :=
  (live db s).flatMap fun v => List.replicate (columnCount db c v)
    ((∏ d ∈ s.finset.erase c, columnCount db d v : ℕ) : K)

/-- The numbers of star rows of the key values that have any. -/
def keyBag (db : Database V) (s : EqualSet) : List K :=
  (live db s).map fun v => ((starCount db s v : ℕ) : K)

variable [IsStrictOrderedRing K]

theorem starCount_erase (hc : c ∈ s.entries) (v : V) :
    starCount db s v = columnCount db c v * ∏ d ∈ s.finset.erase c, columnCount db d v :=
  (mul_prod_erase _ _ (EqualSet.mem_finset.mpr hc)).symm

theorem natCast_whole {n : ℕ} (h : 0 < n) : 1 ≤ (n : K) ∧ IsInt (n : K) :=
  ⟨by exact_mod_cast h, n, by simp⟩

theorem rowBag_whole (db : Database V) (hne : s.entries.toList ≠ []) (hc : c ∈ s.entries) :
    Whole (rowBag db s c : List K) := by
  intro x hx
  obtain ⟨v, hv, hx⟩ := List.mem_flatMap.mp hx
  obtain ⟨_, rfl⟩ := List.mem_replicate.mp hx
  have h := (mem_live hne).mp hv
  rw [starCount_erase hc] at h
  exact natCast_whole (Nat.pos_of_mul_pos_left h)

theorem keyBag_whole (hne : s.entries.toList ≠ []) : Whole (keyBag db s : List K) := by
  intro x hx
  obtain ⟨v, hv, rfl⟩ := List.mem_map.mp hx
  exact natCast_whole ((mem_live hne).mp hv)

section

omit [LinearOrder K] [FloorRing K] [IsStrictOrderedRing K]

theorem sum_keyBag (hne : s.entries.toList ≠ []) :
    (keyBag db s : List K).sum = ((starJoin db s).card : K) := by
  rw [keyBag, card_starJoin hne, Nat.cast_list_sum, List.map_map]; rfl

theorem sum_rowBag (hne : s.entries.toList ≠ []) (hc : c ∈ s.entries) :
    (rowBag db s c : List K).sum = ((starJoin db s).card : K) := by
  rw [← sum_keyBag hne, keyBag, rowBag]
  induction live db s with
  | nil => rfl
  | cons v l ih =>
    rw [List.flatMap_cons, List.sum_append, ih, List.map_cons, List.sum_cons, List.sum_replicate,
      nsmul_eq_mul, starCount_erase hc, Nat.cast_mul]

end

/-- The live keys are the keys of the equal set with a star row. -/
theorem live_perm (hs : s.Subset e) (hne : s.entries.toList ≠ []) :
    ((keys db e.entries.toList).filter fun v => starCount db s v ≠ 0).Perm (live db s) := by
  refine (List.perm_ext_iff_of_nodup (nodup_keys.filter _) nodup_live).mpr fun v => ?_
  rw [List.mem_filter, decide_eq_true_eq]
  constructor
  · rintro ⟨_, h⟩; exact (mem_live hne).mpr (Nat.pos_of_ne_zero h)
  · intro h
    exact ⟨mem_keys_of_live hs hne h, ((mem_live hne).mp h).ne'⟩

omit [DecidableEq V] in
theorem flatMap_ite (l : List V) (P : V → Prop) [DecidablePred P] {M : Type} (g : V → List M) :
    (l.flatMap fun v => if P v then [] else g v) = (l.filter fun v => ¬P v).flatMap g := by
  induction l with
  | nil => rfl
  | cons v l ih => by_cases h : P v <;> simp [h, ih]

section Distinct

variable {counts : List (CountMap × ℤ)}

omit [IsStrictOrderedRing K] in
theorem perm_rowBag (hd : e.Distinct) (hs : s.Subset e) (hc : c ∈ s.entries)
    (h : Counts db e counts) :
    (spread (starCalls s.getTableList c.tableName counts : List (K × ℤ))).Perm (rowBag db s c) := by
  have hne : s.entries.toList ≠ [] := List.ne_nil_of_mem hc
  rw [spread_starCalls _ _ h.freq_pos]
  refine (h.perm.flatMap_right _).trans ?_
  rw [List.flatMap_map]
  have hkey : ∀ v, keyDegrees (K := K) s.getTableList c.tableName
      (countMap db e.entries.toList v) = if starCount db s v = 0 then [] else
        List.replicate (columnCount db c v)
          ((∏ d ∈ s.finset.erase c, columnCount db d v : ℕ) : K) := by
    intro v
    rw [keyDegrees, hd.starProduct hs, countOf_countMap _ (mem_tableNames (hs c hc)),
      hd.tableCount (hs c hc)]
    by_cases h0 : starCount db s v = 0
    · simp [h0]
    · have hpos : (columnCount db c v : K) ≠ 0 := by
        have := starCount_pos.mp (Nat.pos_of_ne_zero h0) c hc
        exact_mod_cast this.ne'
      rw [if_neg (by exact_mod_cast h0), if_neg h0, starCount_erase hc]
      push_cast
      rw [mul_div_cancel_left₀ _ hpos]
      simp
  simp only [hkey]
  rw [flatMap_ite]
  exact (live_perm hs hne).flatMap_right _

omit [LinearOrder K] [FloorRing K] [IsStrictOrderedRing K] in
theorem perm_keyBag (hd : e.Distinct) (hs : s.Subset e) (hne : s.entries.toList ≠ [])
    (h : Counts db e counts) :
    (spread (centralCalls s.getTableList counts : List (K × ℤ))).Perm (keyBag db s) := by
  rw [spread_centralCalls _ h.freq_pos]
  refine (h.perm.flatMap_right _).trans ?_
  rw [List.flatMap_map]
  simp only [hd.starProduct hs, Nat.cast_eq_zero, Int.cast_natCast]
  rw [flatMap_ite, keyBag, ← List.flatMap_singleton' (l := (live db s).map _), List.flatMap_map]
  exact (live_perm hs hne).flatMap_right _

/-! ## The summary -/

/-- What the statistic of a star says about the star join. -/
structure Summary (p : K) (db : Database V) (s : EqualSet) (st : DSStatistic K) : Prop where
  keyed : st.Keyed
  tables : st.tables = s.getTableList
  precision : st.precision = p
  card : st.card = ((starJoin db s).card : K)
  sketch : ∀ c ∈ s.entries, Sketch p (rowBag db s c).sum (rowBag db s c) (st.dsOf c.tableName)
  central : Sketch p (keyBag db s).sum (keyBag db s) st.centralDs

section

omit [LinearOrder K] [FloorRing K] [IsStrictOrderedRing K]

theorem starCalls_posCounts (hd : e.Distinct) (hs : s.Subset e) (hc : c ∈ s.entries)
    (h : Counts db e counts) :
    PosCounts (starCalls s.getTableList c.tableName counts : List (K × ℤ)) := by
  intro x hx
  obtain ⟨m, hm, hx⟩ := List.mem_filterMap.mp hx
  split at hx
  · cases hx
  · next h0 =>
    obtain rfl := Option.some.inj hx
    have hmem : m.1 ∈ spread counts := mem_spread.mpr ⟨m, hm, h.freq_pos m hm, rfl⟩
    obtain ⟨v, _, hv⟩ := List.mem_map.mp (h.perm.mem_iff.mp hmem)
    rw [← hv, hd.starProduct hs] at h0
    have hpos := starCount_pos.mp (Nat.pos_of_ne_zero (Nat.cast_ne_zero.mp h0)) c hc
    simp only
    rw [← hv, countOf_countMap _ (mem_tableNames (hs c hc)), hd.tableCount (hs c hc)]
    exact mul_pos (by exact_mod_cast hpos) (h.freq_pos m hm)

theorem centralCalls_posCounts (h : Counts db e counts) :
    PosCounts (centralCalls s.getTableList counts : List (K × ℤ)) := by
  intro x hx
  obtain ⟨m, hm, hx⟩ := List.mem_filterMap.mp hx
  split at hx
  · cases hx
  · obtain rfl := Option.some.inj hx
    exact h.freq_pos m hm

end

/-- The cardinality as the pivot computes it, whether or not the tables are distinct. -/
theorem starCard_pivot (hs : s.Subset e) (h : Counts db e counts) :
    starCard s.getTableList counts = ((keys db e.entries.toList).map fun v =>
      ∏ c ∈ s.finset, tableCount db e.entries.toList v c.tableName).sum := by
  rw [starCard_eq _ h.freq_pos, (h.perm.map _).sum_eq, List.map_map]
  exact congrArg List.sum (List.map_congr_left fun v _ => starProduct_countMap hs v)

theorem sum_starCount (hs : s.Subset e) (hne : s.entries.toList ≠ []) :
    ((keys db e.entries.toList).map (starCount db s)).sum = (starJoin db s).card := by
  rw [card_starJoin hne]
  exact sum_live hne nodup_keys (fun v => mem_keys_of_live hs hne) _ fun v => id

theorem starCard_counts (hd : e.Distinct) (hs : s.Subset e) (hne : s.entries.toList ≠ [])
    (h : Counts db e counts) : starCard s.getTableList counts = (starJoin db s).card := by
  rw [starCard_pivot hs h, ← sum_starCount hs hne, Nat.cast_list_sum, List.map_map]
  refine congrArg List.sum (List.map_congr_left fun v _ => ?_)
  rw [← starProduct_countMap hs, hd.starProduct hs]; rfl

section

omit [IsStrictOrderedRing K]

/-- The statistic of a subset, for any order and grouping of the key values. -/
theorem summary_of_counts (p : K) (hd : e.Distinct) (hs : s.Subset e)
    (hne : s.entries.toList ≠ []) (h : Counts db e counts) :
    Summary p db s ((ofTables s.getTableList p).addCounts counts).finishCollection := by
  have hk : (ofTables s.getTableList p).Keyed := keyed_ofTables (hd.subset hs) p
  have hk' := hk.addCounts counts
  have hcard : ((ofTables s.getTableList p).addCounts counts).card = ((starJoin db s).card : K) := by
    rw [addCounts_card, show (ofTables s.getTableList p).tables = s.getTableList from rfl,
      starCard_counts hd hs hne h]
    simp [ofTables]
  refine ⟨hk'.finishCollection, ?_, ?_, ?_, fun c hc => ?_, ?_⟩
  · rw [finishCollection_tables, addCounts_tables]; rfl
  · rw [finishCollection_precision, addCounts_precision]; rfl
  · rw [finishCollection_card, hcard]
  · have ht : c.tableName ∈ (ofTables s.getTableList p).tables := List.mem_map_of_mem hc
    refine ⟨_, starCalls_posCounts hd hs hc h, perm_rowBag hd hs hc h, ?_⟩
    rw [dsOf_finishCollection hk' (by simpa using ht), dsOf_addCounts counts hk ht,
      dsOf_ofTables, hcard, sum_rowBag hne hc, finishCollection_eq_mk]
    rfl
  · refine ⟨_, centralCalls_posCounts h, perm_keyBag hd hs hne h, ?_⟩
    rw [finishCollection_centralDs, addCounts_centralDs, hcard, sum_keyBag hne,
      finishCollection_eq_mk]
    rfl

theorem starStat_summary (p : K) (hd : e.Distinct) (hs : s.Subset e)
    (hne : s.entries.toList ≠ []) : Summary p db s (starStat p db e s) :=
  summary_of_counts p hd hs hne (counts_countsOf db e)

end

end Distinct

/-- The summary determines the statistic. -/
theorem Summary.unique {p : K} {st st' : DSStatistic K} (h : Summary p db s st)
    (h' : Summary p db s st') : st = st' := by
  refine Listed.ext h.keyed.isSome_iff h'.keyed.isSome_iff (h.card.trans h'.card.symm) (h.precision.trans h'.precision.symm)
    (h.central.unique h'.central) (h.tables.trans h'.tables.symm) fun t ht => ?_
  rw [h.tables] at ht
  obtain ⟨c, hc, rfl⟩ := List.mem_map.mp ht
  exact (h.sketch c hc).unique (h'.sketch c hc)

/-! ## Rows -/

/-- The key values of a column that are live are as many as its rows with them. -/
theorem filter_columnValues_perm (hc : c ∈ s.entries) :
    ((columnValues db c).filter fun v => 0 < ∏ d ∈ s.finset.erase c, columnCount db d v).Perm
      ((live db s).flatMap fun v => List.replicate (columnCount db c v) v) := by
  have hne : s.entries.toList ≠ [] := List.ne_nil_of_mem hc
  refine List.perm_iff_count.mpr fun a => ?_
  have hcount : ((live db s).map (List.count a ∘ fun v =>
      List.replicate (columnCount db c v) v)).sum =
      if a ∈ live db s then columnCount db c a else 0 := by
    rw [← List.sum_toFinset _ nodup_live]
    simp only [Function.comp, List.count_replicate, beq_iff_eq]
    rw [sum_ite_eq']
    simp
  rw [List.count_flatMap, hcount]
  by_cases hp : 0 < ∏ d ∈ s.finset.erase c, columnCount db d a
  · rw [List.count_filter (by simpa using hp), ← columnCount]
    split
    · rfl
    · next hl =>
      rw [mem_live hne, starCount_erase hc] at hl
      by_contra h0
      exact hl (Nat.mul_pos (Nat.pos_of_ne_zero h0) hp)
  · rw [List.count_eq_zero.mpr fun hm => hp (by simpa using (List.mem_filter.mp hm).2), if_neg]
    rw [mem_live hne, starCount_erase hc]
    exact fun h => hp (Nat.pos_of_mul_pos_left h)

/-- The positive numbers of star rows over all rows of an entry make up its bag. -/
theorem rows_perm_rowBag (db : Database V) (hc : c ∈ s.entries) :
    (((List.finRange _).map fun i => ((rowDegree db s c i : ℕ) : K)).filter fun x => 0 < x).Perm
      (rowBag db s c) := by
  have h1 : ∀ l : List (Fin (db c.tableName).length),
      ((l.map fun i => ((rowDegree db s c i : ℕ) : K)).filter fun x => 0 < x) =
      ((l.filterMap (keyAt db c)).filter fun v =>
        0 < ∏ d ∈ s.finset.erase c, columnCount db d v).map fun v =>
          ((∏ d ∈ s.finset.erase c, columnCount db d v : ℕ) : K) := by
    intro l
    induction l with
    | nil => rfl
    | cons i l ih =>
      rw [List.map_cons, List.filter_cons, List.filterMap_cons, ih, rowDegree]
      cases hk : keyAt db c i with
      | none => simp
      | some v =>
        rw [List.filter_cons]
        simp only [decide_eq_true_eq, Nat.cast_pos]
        split <;> rfl
  rw [h1, ← columnValues_eq]
  refine ((filter_columnValues_perm hc).map _).trans ?_
  rw [List.map_flatMap, rowBag]
  simp

/-- Every choice of rows with a star row makes up a part of the bag. -/
theorem map_rowDegree_le (hc : c ∈ s.entries) (t : Finset (Fin (db c.tableName).length))
    (ht : ∀ i ∈ t, 0 < ((rowDegree db s c i : ℕ) : K)) :
    t.val.map (fun i => ((rowDegree db s c i : ℕ) : K)) ≤ (rowBag db s c : List K) := by
  rw [← Multiset.coe_eq_coe.mpr (rows_perm_rowBag db hc), ← Multiset.filter_coe, ← Multiset.map_coe,
    Multiset.le_filter]
  refine ⟨Multiset.map_le_map ?_, fun x hx => ?_⟩
  · have := val_le_iff.mpr (subset_univ t)
    rwa [Fin.univ_def] at this
  · obtain ⟨i, hi, rfl⟩ := Multiset.mem_map.mp hx
    exact ht i hi

namespace Summary

variable {p : K} {st : DSStatistic K}

theorem descending (h : Summary p db s st) (hc : c ∈ s.entries) :
    Descending (st.dsOf c.tableName).buckets :=
  (h.sketch c hc).descending (rowBag_whole db (List.ne_nil_of_mem hc) hc)

theorem integral (h : Summary p db s st) (hc : c ∈ s.entries) :
    Integral (st.dsOf c.tableName).buckets :=
  (h.sketch c hc).integral (rowBag_whole db (List.ne_nil_of_mem hc) hc)

theorem sum_eq (h : Summary p db s st) (hc : c ∈ s.entries) :
    (expand (st.dsOf c.tableName).buckets).sum = st.card := by
  have hne : s.entries.toList ≠ [] := List.ne_nil_of_mem hc
  rw [(h.sketch c hc).sum_eq (rowBag_whole db hne hc), sum_rowBag hne hc, h.card]

/-- The sequence of a table dominates the numbers of star rows of its rows. -/
theorem dominates (h : Summary p db s st) (hc : c ∈ s.entries) :
    Dominates (seq (st.dsOf c.tableName).buckets)
      fun i => ((rowDegree db s c i : ℕ) : K) :=
  ((h.sketch c hc).dominates (rowBag_whole db (List.ne_nil_of_mem hc) hc)).dominates
    (h.descending hc).seq_nonneg (fun _ => Nat.cast_nonneg _) fun t ht =>
      map_rowDegree_le hc t ht

end Summary

end StarCE
