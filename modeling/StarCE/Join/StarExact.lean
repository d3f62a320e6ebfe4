import StarCE.Join.StarStat
import StarCE.Stat.Conserve

/-!
# Collected stars are exact

Whatever equal set a star with distinct tables was collected with, its
sequences have whole degrees and sum up to its cardinality (`exact_starStat`).
-/

namespace StarCE

open DSStatistic

variable {K V : Type} [Field K] [LinearOrder K] [FloorRing K]
  [DecidableEq V] {tables : List Table} {u : Table} {counts : List (CountMap × ℤ)}

/-- The degree of the rows of one table at a key value is the product of the other counts. -/
theorem starProduct_div (hu : u ∈ tables) {m : CountMap} (h : ∀ t, 0 ≤ countOf m t)
    (hne : starProduct m tables ≠ 0) :
    0 < countOf m u ∧ ∃ r : ℤ, 0 < r ∧ (starProduct m tables : K) / (countOf m u : K) = r := by
  have hmul : countOf m u * starProduct m (tables.erase u) = starProduct m tables :=
    List.prod_map_erase (countOf m) hu
  have h0 : 0 ≤ starProduct m (tables.erase u) := List.prod_nonneg fun x hx => by
    obtain ⟨t, -, rfl⟩ := List.mem_map.mp hx
    exact h t
  rw [← hmul] at hne
  have hc : 0 < countOf m u := lt_of_le_of_ne (h u) (left_ne_zero_of_mul hne).symm
  have hcK : (countOf m u : K) ≠ 0 := by exact_mod_cast hc.ne'
  refine ⟨hc, _, lt_of_le_of_ne h0 (right_ne_zero_of_mul hne).symm, ?_⟩
  rw [← hmul, Int.cast_mul, mul_div_cancel_left₀ _ hcK]

variable [IsStrictOrderedRing K]

/-- The calls made for a table: whole degrees that add up to the star rows. -/
theorem starCalls_whole (hu : u ∈ tables)
    (h : ∀ c ∈ counts, 0 < c.2 ∧ ∀ t, 0 ≤ countOf c.1 t) :
    PosCounts (starCalls tables u counts : List (K × ℤ)) ∧
      Whole (spread (starCalls tables u counts) : List K) ∧
      (spread (starCalls tables u counts) : List K).sum = (starCard tables counts : K) := by
  have hcall : ∀ x ∈ (starCalls tables u counts : List (K × ℤ)), 0 < x.2 ∧ 1 ≤ x.1 ∧ IsInt x.1 := by
    intro x hx
    obtain ⟨c, hc, hx⟩ := List.mem_filterMap.mp hx
    split at hx
    · cases hx
    · next hne =>
      obtain rfl := Option.some.inj hx
      obtain ⟨hpos, r, hr, heq⟩ := starProduct_div (K := K) hu (h c hc).2 hne
      refine ⟨mul_pos hpos (h c hc).1, ?_, r, heq⟩
      show (1 : K) ≤ (starProduct c.1 tables : K) / (countOf c.1 u : K)
      rw [heq]
      exact_mod_cast hr
  refine ⟨fun x hx => (hcall x hx).1, fun y hy => ?_, ?_⟩
  · obtain ⟨x, hx, -, rfl⟩ := mem_spread.mp hy
    exact (hcall x hx).2
  · rw [sum_spread fun x hx => (hcall x hx).1.le]
    clear hcall
    induction counts with
    | nil => simp [starCalls, starCard]
    | cons c l ih =>
      have hl := ih fun d hd => h d (.tail _ hd)
      rw [starCalls, List.filterMap_cons, starCard, List.map_cons, List.sum_cons, ← starCard,
        Int.cast_add, ← hl, ← starCalls]
      by_cases hne : starProduct c.1 tables = 0
      · simp [hne]
      · obtain ⟨hpos, -⟩ := starProduct_div (K := K) hu (h c (.head _)).2 hne
        have hcK : (countOf c.1 u : K) ≠ 0 := by exact_mod_cast hpos.ne'
        simp only [hne, if_false, List.map_cons, List.sum_cons]
        congr 1
        push_cast
        field_simp

theorem countOf_countMap_nonneg (db : Database V) (columns : List TableColumn) (v : V) (t : Table) :
    0 ≤ countOf (countMap db columns v) t := by
  rw [countOf, countMap, OrdMap.find?_ofKeys]
  split
  · exact tableCount_nonneg t
  · exact le_rfl

theorem counts_nonneg {db : Database V} {e : EqualSet} (h : Counts db e counts) :
    ∀ c ∈ counts, 0 < c.2 ∧ ∀ t, 0 ≤ countOf c.1 t := fun c hc => by
  have hmem : c.1 ∈ spread counts := mem_spread.mpr ⟨c, hc, h.freq_pos c hc, rfl⟩
  obtain ⟨v, -, hv⟩ := List.mem_map.mp (h.perm.mem_iff.mp hmem)
  exact ⟨h.freq_pos c hc, fun t => hv ▸ countOf_countMap_nonneg db _ v t⟩

/-- The sequence of a table that is listed once, even where other tables are listed twice and
where the equal set the star was collected with is not the star's own. -/
theorem sketch_starStat (p : K) (db : Database V) (e : EqualSet) {key : EqualSet}
    (hu : key.getTableList.count u = 1) :
    ∃ bag : List K, Whole bag ∧ bag.sum = (starStat p db e key).card ∧
      Sketch p bag.sum bag ((starStat p db e key).dsOf u) := by
  set counts := (countsOf db e.entries.toList).toList with hcounts
  have hcard : ((ofTables key.getTableList p : DSStatistic K).addCounts counts).card =
      (starCard key.getTableList counts : K) := by
    rw [addCounts_card]
    exact zero_add _
  have htab : (ofTables key.getTableList p : DSStatistic K).tables = key.getTableList := rfl
  obtain ⟨hpos, hwhole, hsum⟩ := starCalls_whole (K := K)
    (List.count_pos_iff.mp (by omega : 0 < key.getTableList.count u))
    (counts_nonneg (counts_countsOf db e))
  refine ⟨_, hwhole, ?_, _, hpos, .rfl, ?_⟩
  · rw [hsum, starStat, finishCollection_card, hcard]
  · have hcalls : ((ofTables key.getTableList p : DSStatistic K).addCounts counts).dsOf u = _ :=
      dsOf_addCounts_count counts u
    have hrep : ∀ l : List (K × ℤ), l.flatMap (List.replicate 1) = l := List.flatMap_singleton'
    rw [dsOf_ofTables, htab, hu, hrep] at hcalls
    rw [starStat, dsOf_finishCollection_count, addCounts_tables, htab, hu, hcalls, hcard,
      hsum]
    exact congrArg (limitDsToCard · _) (finishCollection_eq_mk ..)

/-- Such a sequence has whole degrees and adds up to the star's cardinality. -/
theorem whole_starStat (p : K) (db : Database V) (e : EqualSet) {key : EqualSet}
    (hu : key.getTableList.count u = 1) :
    WholeBuckets ((starStat p db e key).dsOf u).buckets ∧
      ((starStat p db e key).dsOf u).getCard = (starStat p db e key).card := by
  obtain ⟨bag, hwhole, hsum, hs⟩ := sketch_starStat p db e hu
  refine ⟨⟨(hs.descending hwhole).sorted, fun b hb => ?_⟩, ?_⟩
  · obtain ⟨n, hn⟩ := hs.integral hwhole b hb
    have hpos := (hs.descending hwhole).degree_pos b hb
    refine ⟨⟨n, hn⟩, ?_, hs.count_pos hwhole b hb⟩
    rw [hn] at hpos ⊢
    exact_mod_cast hpos
  · rw [getCard_eq_sum _ (hs.descending hwhole).count_nonneg, hs.sum_eq hwhole, hsum]

/-- A star with distinct tables is exact. -/
theorem exact_starStat (p : K) (db : Database V) (e : EqualSet) {key : EqualSet}
    (hn : key.getTableList.Nodup) : (starStat p db e key).Exact := by
  have hk' := (keyed_ofTables hn p : (ofTables key.getTableList p : DSStatistic K).Keyed).addCounts
    (countsOf db e.entries.toList).toList
  have htables : (starStat p db e key).tables = key.getTableList := by
    rw [starStat, finishCollection_tables, addCounts_tables]
    rfl
  have hone : ∀ u ∈ (starStat p db e key).tables, key.getTableList.count u = 1 := fun u hu =>
    List.count_eq_one_of_mem hn (htables ▸ hu)
  exact ⟨hk'.finishCollection, fun u hu => (whole_starStat p db e (hone u hu)).1,
    fun u hu => (whole_starStat p db e (hone u hu)).2⟩

end StarCE
