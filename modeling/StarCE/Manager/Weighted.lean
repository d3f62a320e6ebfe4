import StarCE.Join.StarExact
import StarCE.Manager.Estimate
import StarCE.Stat.Average

/-!
# Estimating a filtered star

With `PredMethod` 0, one class and one filtered relation the estimate is a
weighted average: of the rows of the largest degrees, as many as rows pass the
filter, and of their share under uniformity (`estimateCardinality_average`).
-/

namespace StarCE

variable {K V : Type} [Field K] [LinearOrder K] [FloorRing K] [DecidableEq V]

namespace StatisticManager

open DSStatistic

variable {sm sm0 sm1 : StatisticManager K} {st star : DSStatistic K} {A : AttrEset}
  {idx : OrdMap String ℕ} {pow : K → K → K} {sort : Sorting K} {db : Database V} {esets : List EqualSet}

/-! ## A class with distinct tables -/

/-- Each attribute of a class is of another table. -/
def DistinctTables (sm : StatisticManager K) (A : AttrEset) : Prop :=
  (A.toList.map sm.tableOf).Nodup

section

omit [Field K] [LinearOrder K] [FloorRing K]

theorem DistinctTables.eq (h : sm.DistinctTables A) {a b : Attribute} (ha : a ∈ A) (hb : b ∈ A)
    (heq : sm.tableOf a = sm.tableOf b) : a = b :=
  List.inj_on_of_nodup_map h ha hb heq

theorem DistinctTables.getTableList_perm (h : sm.DistinctTables A) :
    (sm.columnsOf A).getTableList.Perm (A.toList.map sm.tableOf) := by
  by_cases h1 : A.size = 1
  · obtain ⟨a, ha⟩ := List.length_eq_one_iff.mp h1
    rw [columnsOf_of_eq ha, ha, EqualSet.getTableList_ofTable]
    exact .rfl
  · rw [columnsOf_of_ne h1, EqualSet.getTableList]
    have hn : (A.toList.map sm.columnOf).Nodup := by
      refine List.Nodup.of_map (·.tableName) ?_
      rwa [List.map_map]
    have hperm : (OrdSet.ofList (A.toList.map sm.columnOf)).toList.Perm
        (A.toList.map sm.columnOf) :=
      (List.perm_ext_iff_of_nodup (OrdSet.nodup _) hn).mpr fun c => OrdSet.mem_ofList
    have := hperm.map (·.tableName)
    rwa [List.map_map] at this

theorem DistinctTables.nodup (h : sm.DistinctTables A) : (sm.columnsOf A).getTableList.Nodup :=
  h.getTableList_perm.nodup_iff.mpr h

end

/-- At most one attribute of the class is of the table. -/
def NamedOnce (sm : StatisticManager K) (A : AttrEset) (table : Table) : Prop :=
  ∀ a ∈ A, ∀ b ∈ A, sm.tableOf a = table → sm.tableOf b = table → a = b

section

omit [Field K] [LinearOrder K] [FloorRing K]

theorem DistinctTables.namedOnce (h : sm.DistinctTables A) (table : Table) :
    sm.NamedOnce A table := fun _ ha _ hb hta htb => h.eq ha hb (hta.trans htb.symm)

theorem NamedOnce.count_eq {a : Attribute} (h : sm.NamedOnce A (sm.tableOf a)) (ha : a ∈ A) :
    (sm.columnsOf A).getTableList.count (sm.tableOf a) = 1 := by
  by_cases h1 : A.size = 1
  · obtain ⟨b, hb⟩ := List.length_eq_one_iff.mp h1
    have hab : a = b := List.mem_singleton.mp (hb ▸ ha)
    rw [columnsOf_of_eq hb, EqualSet.getTableList_ofTable, hab, List.count_singleton_self]
  · have hperm : ((OrdSet.ofList (A.toList.map sm.columnOf)).toList.filter
        fun c => c.tableName == sm.tableOf a).Perm [sm.columnOf a] := by
      refine (List.perm_ext_iff_of_nodup ((OrdSet.nodup _).filter _)
        (List.nodup_singleton _)).mpr fun c => ?_
      have hmem : c ∈ (OrdSet.ofList (A.toList.map sm.columnOf)).toList ↔
          ∃ b ∈ A, sm.columnOf b = c := OrdSet.mem_ofList.trans List.mem_map
      rw [List.mem_filter, hmem, List.mem_singleton, beq_iff_eq]
      constructor
      · rintro ⟨⟨b, hb, rfl⟩, heq⟩
        rw [h b hb a ha heq rfl]
      · rintro rfl
        exact ⟨⟨a, ha, rfl⟩, rfl⟩
    rw [columnsOf_of_ne h1, EqualSet.getTableList, List.count, List.countP_map,
      List.countP_eq_length_filter]
    exact hperm.length_eq

/-- The relation that each table name is read as keeps the sequence of the table. -/
theorem IndexOf.rekey (hidx : sm.IndexOf A idx)
    (htables : star.tables = (sm.columnsOf A).getTableList) (hfull : star.Full) :
    ∃ st, star.rekey idx = .ok st ∧ Rekeyed star idx st ∧
      ∀ a ∈ A, st.dsOf (relName idx (sm.tableOf a)) = star.dsOf (sm.tableOf a) := by
  have hsub : ∀ t ∈ star.tables, t ∈ (sm.columnsOf A).getTableList := fun t ht => htables ▸ ht
  have hmem : ∀ a ∈ A, sm.tableOf a ∈ star.tables := fun a ha => by
    rw [htables]
    exact mem_getTableList_columnsOf.mpr ⟨a, ha, rfl⟩
  have hsome : ∀ t ∈ star.tables, (idx.find? t).isSome ∧ (star.ds.find? t).isSome := by
    intro t ht
    obtain ⟨a, ha, rfl⟩ := mem_getTableList_columnsOf.mp (hsub t ht)
    obtain ⟨b, -, -, hb⟩ := hidx.exists_find ha
    exact ⟨by rw [hb]; rfl, hfull _ ht⟩
  obtain ⟨st, hok, hre⟩ := rekey_ok hsome
  exact ⟨st, hok, hre, fun a ha => hre.dsOf (hmem a ha) fun u hu heq =>
    hidx.relName_inj (hsub u hu) (hsub _ (hmem a ha)) heq⟩

theorem NamedOnce.relName_eq {a : Attribute} (h : sm.NamedOnce A (sm.tableOf a)) (ha : a ∈ A)
    (hidx : sm.IndexOf A idx) : relName idx (sm.tableOf a) = toString (ofLex a).1 := by
  obtain ⟨b, hb, heq, hfind⟩ := hidx.exists_find ha
  rw [relName, hfind, h b hb a ha heq rfl]
  rfl

end

/-- A star that is collected as a whole is found as a whole. -/
theorem getStatisticsFromEset_whole {key : EqualSet} (hstar : sm.statistics.find? key = some star)
    (hone : key.nameTable = key) (hne : key.entries.toList ≠ [])
    (hM : sm.enableStarSplit = true →
      3 ≤ sm.maxStarSize ∧ (key.entries.size : ℤ) ≤ sm.maxStarSize) :
    ∃ p, sm.getStatisticsFromEset key = .ok { star with precision := p } := by
  unfold getStatisticsFromEset
  split
  · next hs =>
    obtain ⟨h3, hle⟩ := hM hs
    have hpos : 0 < key.entries.size := List.length_pos_of_ne_nil hne
    have hsplit : key.split sm.maxStarSize = .ok [key] := by
      have hloop := EqualSet.splitLoop_of_le (key.entries.size - 1) h3 hne hle
      have heq : (⟨OrdSet.ofList key.entries.toList⟩ : EqualSet) = key :=
        EqualSet.ext_entries fun c => OrdSet.mem_ofList
      rw [heq, hone, Nat.sub_add_cancel hpos] at hloop
      rw [EqualSet.split, if_neg (by omega)]
      exact congrArg Except.ok hloop
    refine ⟨sm.compressPrecision, ?_⟩
    rw [hsplit]
    simp only [bind, Except.bind, chunkStatistics, hstar]
    rfl
  · exact ⟨star.precision, by rw [hstar]⟩

/-! ## One filtered relation -/

section Filter

variable {F N : ℤ} {t : Table} {k p : K} {ndv : OrdMap String ℤ}

theorem keyed_single (t : Table) (card p : K) : (single t card p).Keyed := by
  refine ⟨List.nodup_singleton t, fun u => ?_⟩
  rw [single, OrdMap.find?_insert]
  by_cases hu : u = t
  · simp [hu]
  · simp [hu]

variable [IsStrictOrderedRing K]

/-- The adjusted statistic of the filtered rows. -/
theorem adjusted_single (hndv : ndv.find? t = some N) (hF : 0 ≤ F) (hN : 1 ≤ N) (hFN : F ≤ N)
    (hk0 : 0 ≤ k) (hk : k ≤ 1) :
    ∃ rows, (single t (F : K) p).adjustToAverage ndv k = .ok rows ∧ rows.Keyed ∧
      rows.tables = [t] ∧ (rows.dsOf t).buckets = filteredBuckets F N k := by
  have hmem : t ∈ (single t (F : K) p).tables := .head _
  have hkeyed := (keyed_single t (F : K) p).averaged ndv k
  refine ⟨_, adjustToAverage_eq_ok.mpr ⟨fun u hu => ?_, rfl⟩, hkeyed.limitAllDsToCard, ?_, ?_⟩
  · rw [List.mem_singleton.mp hu, hndv]
    rfl
  · rw [limitAllDsToCard_tables]
    exact (keeps_averaged _ ndv k).tables
  · have hone : ((single t (F : K) p).dsOf t).buckets = [⟨1, F⟩] := by
      rw [dsOf, single, OrdMap.find?_insert_self, Option.getD_some, truncate_intCast]
      exact addDegree_one F p
    have hcard : ((single t (F : K) p).averaged ndv k).card = F := averaged_card _ ndv k
    rw [dsOf_limitAllDsToCard hkeyed (by rw [(keeps_averaged _ ndv k).tables]; exact hmem), hcard,
      dsOf_averaged (keyed_single t (F : K) p) hmem, hndv, limitDsToCard, Option.getD_some,
      show (single t (F : K) p).card = F from rfl, averageDs_single hone]
    refine limitBuckets_of_le (fun b hb => ?_) ?_
    · obtain ⟨hc, hd⟩ := filteredBuckets_nonneg hF hN hFN hk0 hk b hb
      exact mul_nonneg (by exact_mod_cast hc) hd
    · rw [zero_add]
      exact (sum_filteredBuckets hF hN hFN hk).le

/-- Merging a statistic with the filtered rows of one of its tables. -/
theorem filterRows_card {a : Attribute} {filter : String} {table : Table}
    (hkeyed : st.Keyed) (hmem : toString (ofLex a).1 ∈ st.tables)
    (hds : Descending (st.dsOf (toString (ofLex a).1)).buckets)
    (hfilter : sm.filterString.find? (ofLex a).1 = some filter) (hne : filter ≠ "")
    (htable : sm.tableName.find? (ofLex a).1 = some table)
    (hndv : sm.relNDV.find? (toString (ofLex a).1) = some N)
    (hF : sm.getTableCard (ofLex a).1 = .ok F) (hN : sm.getNDV table = .ok N) (h1 : 1 ≤ N)
    (hF0 : 0 ≤ F) (hFN : F ≤ N) (hlen : (st.dsOf (toString (ofLex a).1)).getNDV ≤ N)
    (hp0 : 0 ≤ sm.predicateAdjustRate) (hp1 : sm.predicateAdjustRate ≤ 1) :
    ∃ new, sm.filterRows st a = .ok new ∧ new.card = sm.predicateAdjustRate *
        sumLargest F.toNat (expand (st.dsOf (toString (ofLex a).1)).buckets) +
      (1 - sm.predicateAdjustRate) * ((F : K) / (N : K)) *
        (expand (st.dsOf (toString (ofLex a).1)).buckets).sum := by
  obtain ⟨rows, hrows, hrk, htables, hbuckets⟩ := adjusted_single (p := sm.compressPrecision)
    hndv hF0 h1 hFN hp0 hp1
  have hm : Mergeable st rows (toString (ofLex a).1) :=
    ⟨hkeyed, hrk, hmem, by rw [htables]; exact .head _, fun u _ hu => by
      rw [htables] at hu; exact List.mem_singleton.mp hu⟩
  obtain ⟨new, hok, hnew⟩ := merge_ok hm hds.count_nonneg fun b hb => by
    rw [hbuckets] at hb
    exact (filteredBuckets_nonneg hF0 h1 hFN hp0 hp1 b hb).1
  refine ⟨new, ?_, ?_⟩
  · rw [filterRows, OrdMap.lookup, hfilter]
    simp only [bind, Except.bind, if_neg hne, hF, OrdMap.lookup, htable, hN, hrows]
    exact hok
  · rw [hnew.card]
    exact sum_products_filtered hds hbuckets hlen hF0 h1 hFN hp0 hp1

omit [IsStrictOrderedRing K] in
theorem filterRows_unfiltered {a : Attribute}
    (h : sm.filterString.find? (ofLex a).1 = some "") : sm.filterRows st a = .ok st := by
  rw [filterRows, OrdMap.lookup, h]
  rfl

end Filter

/-! ## The estimate -/

theorem nameTable_of_collected {o : Options K} {key : EqualSet}
    (h : collected o db esets key = some st) : key.nameTable = key := by
  by_cases h1 : key.entries.size = 1
  · obtain ⟨t, rfl⟩ := eq_ofTable_of_collected h h1
    rfl
  · rcases key.nameTable_cases with ⟨c, hc, -⟩ | ⟨-, heq⟩
    · exact absurd (by rw [OrdSet.size, hc]; rfl) h1
    · exact heq

omit [Field K] [LinearOrder K] [FloorRing K] in
theorem size_le_of_mem_subsetsOf {o : Options K} (hs : o.enableStarSplit = true)
    (hM : 3 ≤ o.maxStarSize) {e key : EqualSet} (h : key ∈ o.subsetsOf e) :
    (key.entries.size : ℤ) ≤ o.maxStarSize := by
  rw [Options.subsetsOf, if_pos hs, EqualSet.mem_getAllSubsetLimitSize] at h
  obtain ⟨f, -, hle, rfl⟩ := h
  rw [Options.sizeLimit, if_neg (by omega)] at hle
  rcases f.nameTable_cases with ⟨c, -, heq⟩ | ⟨-, heq⟩
  · rw [heq]
    change (1 : ℤ) ≤ _
    omega
  · rw [heq]
    omega

/-- The estimate of one class is the cardinality the filters leave. -/
theorem estimateFromStats_single {new : DSStatistic K} (hclass : sm.classStatistics A = .ok st)
    (hfilter : filterClass pow sort sm A st = .ok new) :
    estimateFromStats pow sort sm [A] = .ok new.card := by
  have h1 : [A].mapM sm.classStatistics = .ok [st] := by
    rw [List.mapM_cons, hclass]
    rfl
  have h2 : ([A].zip [st]).mapM (fun c => filterClass pow sort sm c.1 c.2) = .ok [new] := by
    rw [List.zip_cons_cons, List.mapM_cons, hfilter]
    rfl
  rw [estimateFromStats, h1]
  simp only [bind, Except.bind, h2]
  exact congrArg Except.ok (mul_one new.card)

/-- A class whose star is collected as a whole. -/
theorem classStatistics_star (h0 : sm0.statistics = ∅)
    (hcol : collectStatistics pow db sm0 esets = .ok sm1) (hq : Session sm1 sm)
    (hopt : sm.enableStarSplit = sm0.enableStarSplit ∧ sm.maxStarSize = sm0.maxStarSize)
    (hM : sm.enableStarSplit = true → 3 ≤ sm.maxStarSize) (hA : ∃ a, a ∈ A) (hnamed : sm.Named A)
    (hstar : sm.statistics.find? (sm.columnsOf A) = some star) :
    (∃ p e, star = starStat p db e (sm.columnsOf A)) ∧
      ∃ idx st, sm.IndexOf A idx ∧ sm.classStatistics A = .ok st ∧
        (∀ u, (st.ds.find? u).isSome ↔ u ∈ st.tables) ∧ st.card = star.card ∧ st.tables = star.tables.map (relName idx) ∧
        ∀ a ∈ A, st.dsOf (relName idx (sm.tableOf a)) = star.dsOf (sm.tableOf a) := by
  have hc := (Session.find?_eq h0 hcol hq (sm.columnsOf A)).symm.trans hstar
  obtain ⟨e, -, hkey, hstat⟩ := exists_of_collected hc
  have htables : star.tables = (sm.columnsOf A).getTableList := by rw [hstat, starStat_tables]
  have hnil : (sm.columnsOf A).entries.toList ≠ [] := fun hnil =>
    size_columnsOf_ne_zero sm hA (by rw [OrdSet.size, hnil]; rfl)
  obtain ⟨p, hfound⟩ := getStatisticsFromEset_whole hstar (nameTable_of_collected hc) hnil
    fun hs => ⟨hM hs, by
      have := size_le_of_mem_subsetsOf (hopt.1 ▸ hs) (hopt.2 ▸ hM hs) hkey
      rwa [hopt.2]⟩
  obtain ⟨idx, -, hidx⟩ := getEqualSetFromAttrEset_ok hnamed
  obtain ⟨found, hfnd⟩ : ∃ s, s = { star with precision := p } := ⟨_, rfl⟩
  rw [← hfnd] at hfound
  have hfull : found.Full := by
    rw [hfnd, hstat]
    exact full_starStat _ db e _
  obtain ⟨st, hre, hrek, hds⟩ := hidx.rekey (by rw [hfnd]; exact htables) hfull
  refine ⟨⟨_, e, hstat⟩, idx, st, hidx,
    classStatistics_eq_ok.mpr ⟨hnamed, _, idx, hfound, hidx, hre⟩, hrek.isSome_iff, ?_, ?_, ?_⟩
  · rw [hrek.card, hfnd]
  · rw [hrek.tables, hfnd]
  · rw [hfnd] at hds
    exact hds

/-- A class with distinct tables whose star is collected as a whole. -/
theorem classStatistics_whole [IsStrictOrderedRing K] (h0 : sm0.statistics = ∅)
    (hcol : collectStatistics pow db sm0 esets = .ok sm1) (hq : Session sm1 sm)
    (hopt : sm.enableStarSplit = sm0.enableStarSplit ∧ sm.maxStarSize = sm0.maxStarSize)
    (hM : sm.enableStarSplit = true → 3 ≤ sm.maxStarSize) (hA : ∃ a, a ∈ A) (hnamed : sm.Named A)
    (hd : sm.DistinctTables A) (hstar : sm.statistics.find? (sm.columnsOf A) = some star) :
    star.Exact ∧ star.tables = (sm.columnsOf A).getTableList ∧
      ∃ st, sm.classStatistics A = .ok st ∧ st.Keyed ∧ st.card = star.card ∧
        (∀ u ∈ st.tables, ∃ a ∈ A, u = toString (ofLex a).1) ∧
        ∀ a ∈ A, toString (ofLex a).1 ∈ st.tables ∧
          st.dsOf (toString (ofLex a).1) = star.dsOf (sm.tableOf a) := by
  obtain ⟨⟨p, e, hstat⟩, idx, st, hidx, hclass, hsome, hcard, htab, hds⟩ :=
    classStatistics_star h0 hcol hq hopt hM hA hnamed hstar
  have htables : star.tables = (sm.columnsOf A).getTableList := by rw [hstat, starStat_tables]
  have hrel : ∀ a ∈ A, relName idx (sm.tableOf a) = toString (ofLex a).1 := fun a ha =>
    (hd.namedOnce _).relName_eq ha hidx
  rw [htables] at htab
  refine ⟨hstat ▸ exact_starStat p db e hd.nodup, htables, st, hclass, ⟨?_, hsome⟩, hcard,
    fun u hu => ?_, fun a ha => ⟨?_, ?_⟩⟩
  · rw [htab]
    exact List.Nodup.map_on (fun t ht u hu heq => hidx.relName_inj ht hu heq) hd.nodup
  · rw [htab] at hu
    obtain ⟨t, ht, rfl⟩ := List.mem_map.mp hu
    obtain ⟨a, ha, rfl⟩ := mem_getTableList_columnsOf.mp ht
    exact ⟨a, ha, hrel a ha⟩
  · rw [htab, ← hrel a ha]
    exact List.mem_map_of_mem (mem_getTableList_columnsOf.mpr ⟨a, ha, rfl⟩)
  · rw [← hrel a ha]
    exact hds a ha

/-- The estimate of one class whose filters leave `new`. -/
theorem estimateCardinality_single {new : DSStatistic K} (hsub : sm.useSubqueryCard = false)
    {rels : List ℕ} (hone : sm.getAttrEsetFromRels rels = [A]) (hnamed : sm.Named A)
    (hfilters : ∀ rel ∈ rels, (sm.filterString.find? rel).isSome)
    (hclass : sm.classStatistics A = .ok st) (hfilter : filterClass pow sort sm A st = .ok new) :
    estimateCardinality pow sort sm rels = .ok new.card := by
  rw [estimateCardinality_eq pow sort hsub hfilters ?_, hone, estimateFromStats_single hclass hfilter]
  intro A' hA'
  rw [hone] at hA'
  rw [List.mem_singleton.mp hA']
  exact hnamed

/-- An estimate of one class comes from its statistic. -/
theorem exists_of_estimateCardinality (hsub : sm.useSubqueryCard = false) {rels : List ℕ}
    (hone : sm.getAttrEsetFromRels rels = [A]) {est : K}
    (h : estimateCardinality pow sort sm rels = .ok est) :
    ∃ st new, sm.classStatistics A = .ok st ∧ filterClass pow sort sm A st = .ok new ∧
      est = new.card := by
  have hstats : estimateFromStats pow sort sm [A] = .ok est := by
    unfold estimateCardinality at h
    rw [hsub, hone] at h
    simp only [Bool.false_eq_true, if_false] at h
    split at h
    · obtain ⟨-, -, h⟩ := bind_eq_ok.mp h
      exact h
    · exact h
  obtain ⟨sts, hsts, h'⟩ := bind_eq_ok.mp hstats
  rw [List.mapM_cons] at hsts
  obtain ⟨st, hst, hsts⟩ := bind_eq_ok.mp hsts
  obtain rfl := Except.ok.inj hsts
  obtain ⟨news, hnews, -⟩ := bind_eq_ok.mp h'
  rw [List.zip_cons_cons, List.mapM_cons] at hnews
  obtain ⟨new, hnew, -⟩ := bind_eq_ok.mp hnews
  exact ⟨st, new, hst, hnew, Except.ok.inj (hstats.symm.trans (estimateFromStats_single hst hnew))⟩

section

omit [Field K] [LinearOrder K] [FloorRing K]

/-- Only the filtered relation does something. -/
theorem foldlM_oneFilter {step : DSStatistic K → Attribute → Except Error (DSStatistic K)}
    (hidle : ∀ s a, sm.filterString.find? (ofLex a).1 = some "" → step s a = .ok s)
    {aR : Attribute} (hd : sm.NamedOnce A (sm.tableOf aR)) (haR : aR ∈ A)
    (hothers : ∀ a ∈ A, (ofLex a).1 ≠ (ofLex aR).1 → sm.filterString.find? (ofLex a).1 = some "")
    {new : DSStatistic K} (hnew : step st aR = .ok new) : A.toList.foldlM step st = .ok new := by
  apply foldlM_single (OrdSet.nodup A) haR hnew
  intro s a ha hneq
  apply hidle
  apply hothers a ha
  intro hrel
  exact hneq (hd a ha aR haR (tableOf_congr hrel) rfl)

/-- The attribute of a relation of the only class, and what is known of it. -/
theorem exists_attr {rels : List ℕ} (hone : sm.getAttrEsetFromRels rels = [A]) {R : ℕ}
    (hR : R ∈ rels) {table : Table} (htable : sm.tableName.find? R = some table) :
    ∃ a ∈ A, (ofLex a).1 = R ∧ sm.tableOf a = table ∧ ∀ b ∈ A, (ofLex b).1 ∈ rels := by
  obtain ⟨B, hB, a, ha, hrel⟩ := exists_mem_getAttrEsetFromRels sm hR
  rw [hone] at hB
  obtain rfl := List.mem_singleton.mp hB
  refine ⟨a, ha, hrel, by rw [tableOf, hrel, htable]; rfl, fun b hb => ?_⟩
  exact rel_mem_of_getAttrEsetFromRels (by rw [hone]; exact .head _) hb

end

/-- `PredMethod` 0 without subquery cardinalities, with one filtered relation `R`, of which `F` rows
of `N` pass the filter: the average of the rows of the `F` largest degrees and of the share `F / N`
of the star. -/
theorem estimateCardinality_average [IsStrictOrderedRing K] (h0 : sm0.statistics = ∅)
    (hcol : collectStatistics pow db sm0 esets = .ok sm1) (hq : Session sm1 sm)
    (hopt : sm.enableStarSplit = sm0.enableStarSplit ∧ sm.maxStarSize = sm0.maxStarSize)
    (hM : sm.enableStarSplit = true → 3 ≤ sm.maxStarSize) (hsub : sm.useSubqueryCard = false)
    (hpred : sm.predMethod = 0) {rels : List ℕ} (hone : sm.getAttrEsetFromRels rels = [A])
    (hnamed : sm.Named A) (hd : sm.DistinctTables A)
    (hstar : sm.statistics.find? (sm.columnsOf A) = some star) {R : ℕ} {filter : String}
    {table : Table} (hR : R ∈ rels) (hfilter : sm.filterString.find? R = some filter)
    (hne : filter ≠ "") (hothers : ∀ rel ∈ rels, rel ≠ R → sm.filterString.find? rel = some "")
    (htable : sm.tableName.find? R = some table) {F N : ℤ} (hF : sm.getTableCard R = .ok F)
    (hN : sm.getNDV table = .ok N) (h1 : 1 ≤ N) (hF0 : 0 ≤ F) (hFN : F ≤ N)
    (hlen : (star.dsOf table).getNDV ≤ N) (hp0 : 0 ≤ sm.predicateAdjustRate)
    (hp1 : sm.predicateAdjustRate ≤ 1) :
    estimateCardinality pow sort sm rels = .ok
      (sm.predicateAdjustRate * sumLargest F.toNat (expand (star.dsOf table).buckets) +
        (1 - sm.predicateAdjustRate) * ((F : K) / (N : K)) * star.card) := by
  obtain ⟨aR, haR, rfl, htab, hmemA⟩ := exists_attr hone hR htable
  obtain ⟨hexact, htables, st, hclass, hkeyed, -, -, hds⟩ :=
    classStatistics_whole h0 hcol hq hopt hM ⟨aR, haR⟩ hnamed hd hstar
  -- the sequence of the filtered relation
  obtain ⟨hmemR, hdsR⟩ := hds aR haR
  rw [htab] at hdsR
  have hmemT : table ∈ star.tables := by
    rw [htables, ← htab]
    exact mem_getTableList_columnsOf.mpr ⟨aR, haR, rfl⟩
  obtain ⟨n, hndv, hn⟩ := hq.ndv htable
  obtain rfl : n = N := Except.ok.inj (hn.symm.trans hN)
  obtain ⟨new, hnew, hval⟩ := filterRows_card hkeyed hmemR
    (by rw [hdsR]; exact (hexact.whole table hmemT).descending) hfilter hne htable hndv hF hN h1 hF0
    hFN (by rw [hdsR]; exact hlen) hp0 hp1
  -- the other relations of the class change nothing
  have hloop : filterClass pow sort sm A st = .ok new := by
    rw [filterClass, if_pos hpred]
    exact foldlM_oneFilter (fun s a h => filterRows_unfiltered h) (hd.namedOnce _) haR
      (fun a ha hrel => hothers _ (hmemA a ha) hrel) hnew
  rw [estimateCardinality_single hsub hone hnamed ?_ hclass hloop, hval, hdsR,
    hexact.sum_eq hmemT]
  intro rel hrel
  by_cases heq : rel = (ofLex aR).1
  · rw [heq, hfilter]
    rfl
  · rw [hothers rel hrel heq]
    rfl

/-! ## Two rows of four pass -/

section Example

/-- The keys of the rows of two tables. -/
def keyedRows : Database ℕ := fun table =>
  (if table = "t" then [1, 1, 1, 2] else [1, 1, 2]).map fun key _ => some key

/-- The join of both tables, with a filter on the first. -/
def filteredPair : Except Error (StatisticManager ℚ × StatisticManager ℚ) := do
  let sm1 ← collectStatistics (fun x _ => x) keyedRows initial [twoColumns]
  let sm ← sm1.enterQuery [("t", ["x"], 2), ("u", ["x"], 3)]
    (.ofKeys [0, 1] fun rel => if rel = 0 then "t.x < 2" else "") [⟨0, 1, 0, 0⟩]
  pure (sm1, sm)

theorem estimateCardinality_average_pair : ∃ (sm1 sm : StatisticManager ℚ) (star : DSStatistic ℚ),
    collectStatistics (fun x _ => x) keyedRows initial [twoColumns] = .ok sm1 ∧ Session sm1 sm ∧
    sm.statistics.find? twoColumns = some star ∧ star.card = 7 ∧
    estimateCardinality (fun x _ => x) .stable sm [0, 1] = .ok
      (sm.predicateAdjustRate * sumLargest (2 : ℤ).toNat (expand (star.dsOf "t").buckets) +
        (1 - sm.predicateAdjustRate) * (((2 : ℤ) : ℚ) / ((4 : ℤ) : ℚ)) * star.card) := by
  have hrun : (do
      let s ← filteredPair
      pure (decide (((s.2.enableStarSplit = false ∧ s.2.maxStarSize = 3) ∧
        s.2.useSubqueryCard = false ∧ s.2.predMethod = 0) ∧
        (s.2.getAttrEsetFromRels [0, 1] = [firstAttrs 2] ∧
          namesOf s.2 2 = (["t", "u"].map fun t => (some t, some "x")) ∧
          ((firstAttrs 2).toList.map s.2.tableOf).Nodup ∧
          s.2.columnsOf (firstAttrs 2) = twoColumns) ∧
        (s.2.filterString.find? 0 = some "t.x < 2" ∧ s.2.filterString.find? 1 = some "" ∧
          s.2.tableName.find? 0 = some "t" ∧ s.2.getTableCard 0 = Except.ok 2 ∧
          s.2.getNDV "t" = Except.ok 4) ∧
        0 ≤ s.2.predicateAdjustRate ∧ s.2.predicateAdjustRate ≤ 1 ∧
        (s.2.statistics.find? twoColumns).map (fun star : DSStatistic ℚ => (star.card, (star.dsOf "t").getNDV)) =
          some (7, 4)))) = .ok true := by
    decide +kernel
  obtain ⟨s, hs, hrun⟩ := bind_eq_ok.mp hrun
  obtain ⟨⟨hopt, hsub, hpred⟩, ⟨hone, hnames, hd, hcols⟩, ⟨hf0, hf1, htable, hF, hN⟩, hp0, hp1,
    hstar⟩ := of_decide_eq_true (Except.ok.inj hrun)
  obtain ⟨star, hstar, heq⟩ := Option.map_eq_some_iff.mp hstar
  obtain ⟨hcard, hlen⟩ := Prod.mk.inj heq
  obtain ⟨sm1, hcol, hs⟩ := bind_eq_ok.mp hs
  obtain ⟨sm, henter, hs⟩ := bind_eq_ok.mp hs
  obtain rfl := Except.ok.inj hs
  refine ⟨sm1, sm, star, hcol, session_enterQuery henter, hstar, hcard, ?_⟩
  refine estimateCardinality_average rfl hcol (session_enterQuery henter) hopt
    (fun h => absurd (h.symm.trans hopt.1) (by decide)) hsub hpred hone
    (coversClass_of_names hnames (by decide)).named hd (hcols ▸ hstar) (R := 0) (.head _) hf0
    (by decide) ?_ htable hF hN (by decide) (by decide) (by decide) hlen.le hp0 hp1
  intro rel hrel hne
  rcases List.mem_pair.mp hrel with rfl | rfl
  · exact absurd rfl hne
  · exact hf1

end Example

end StatisticManager

end StarCE
