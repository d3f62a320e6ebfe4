import StarCE.Data.Loop
import StarCE.Manager.Counts
import StarCE.Stat.Tables

/-!
# The statistics after a collection

A key's statistic is the one of the first equal set that offers the key
(`collectStatistics_statistics`); later equal sets skip it. Nothing in the
collection throws once every equal set has an entry.
-/

namespace StarCE

variable {K V : Type} [Field K] [LinearOrder K] [FloorRing K] [DecidableEq V]

/-- `count_num` of a list of columns. -/
def countsOf (db : Database V) (columns : List TableColumn) : OrdMap CountMap ℤ :=
  OrdMap.ofKeys ((keys db columns).map (countMap db columns)) fun m =>
    (((keys db columns).map (countMap db columns)).count m : ℤ)

/-- The statistic an equal set yields for one of its subsets. -/
def starStat (precision : K) (db : Database V) (eset key : EqualSet) : DSStatistic K :=
  ((DSStatistic.ofTables key.getTableList precision).addCounts
    (countsOf db eset.entries.toList).toList).finishCollection

@[simp] theorem starStat_tables (p : K) (db : Database V) (e key : EqualSet) :
    (starStat p db e key).tables = key.getTableList := by
  rw [starStat, DSStatistic.finishCollection_tables, DSStatistic.addCounts_tables]
  rfl

theorem starStat_precision (p : K) (db : Database V) (e key : EqualSet) :
    (starStat p db e key).precision = p := by
  rw [starStat, DSStatistic.finishCollection_precision, DSStatistic.addCounts_precision]
  rfl

theorem starStat_listed (p : K) (db : Database V) (e key : EqualSet) :
    (starStat p db e key).Listed :=
  ((DSStatistic.listed_ofTables _ p).addCounts _).finishCollection

/-- The calls `addDegreeForSingleDS` makes on the sequence of a table. -/
def singleCalls (table : Table) (counts : List (CountMap × ℤ)) : List (K × ℤ) :=
  counts.filterMap fun c =>
    if DSStatistic.countOf c.1 table = 0 then none
    else some ((DSStatistic.countOf c.1 table : K), c.2)

namespace StatisticManager

/-- A collection changes neither the options nor what is known of the query. -/
structure Frame (sm sm' : StatisticManager K) : Prop where
  options : sm'.toOptions = sm.toOptions
  query : sm'.toQueryState = sm.toQueryState

variable {sm sm' sm'' : StatisticManager K} {pow : K → K → K} {db : Database V}

section

omit [Field K] [LinearOrder K] [FloorRing K]

theorem Frame.refl (sm : StatisticManager K) : Frame sm sm := ⟨rfl, rfl⟩

theorem Frame.trans (h : Frame sm sm') (h' : Frame sm' sm'') : Frame sm sm'' :=
  ⟨h'.options.trans h.options, h'.query.trans h.query⟩

end

/-- Nothing but the statistics and the single-table sequences has changed. -/
structure Steady (sm sm' : StatisticManager K) : Prop where
  frame : Frame sm sm'
  subsets : sm'.eset = sm.eset ∧ sm'.subset = sm.subset ∧ sm'.skip = sm.skip
  rates : sm'.adjustRate = sm.adjustRate ∧ sm'.predicateAdjustRate = sm.predicateAdjustRate ∧
    sm'.rateSum = sm.rateSum ∧ sm'.rateCount = sm.rateCount

section

omit [Field K] [LinearOrder K] [FloorRing K]

theorem Steady.refl (sm : StatisticManager K) : Steady sm sm :=
  ⟨.refl sm, ⟨rfl, rfl, rfl⟩, ⟨rfl, rfl, rfl, rfl⟩⟩

theorem Steady.trans (h : Steady sm sm') (h' : Steady sm' sm'') : Steady sm sm'' := by
  obtain ⟨hf, ⟨h1, h2, h3⟩, h4, h5, h6, h7⟩ := h
  obtain ⟨hf', ⟨h1', h2', h3'⟩, h4', h5', h6', h7'⟩ := h'
  exact ⟨hf.trans hf', ⟨h1'.trans h1, h2'.trans h2, h3'.trans h3⟩,
    h4'.trans h4, h5'.trans h5, h6'.trans h6, h7'.trans h7⟩

end

/-! ## Which subsets are fresh -/

/-- The subsets that are not skipped. -/
def freshOf (subset : List EqualSet) (skip : List Bool) : List EqualSet :=
  ((subset.zip skip).filter fun s => !s.2).map (·.1)

section

omit [Field K] [LinearOrder K] [FloorRing K]

theorem find?_modifyStatistic (sub : EqualSet) (f : DSStatistic K → DSStatistic K)
    (key : EqualSet) : (sm.modifyStatistic sub f).statistics.find? key =
      if key = sub then (sm.statistics.find? key).map f else sm.statistics.find? key := by
  unfold modifyStatistic
  split
  · next st hst =>
    simp only [OrdMap.find?_insert]
    split
    · next h => subst h; simp [hst]
    · rfl
  · next hnone =>
    split
    · next h => subst h; simp [hnone]
    · rfl

theorem modifyStatistic_steady (sm : StatisticManager K) (sub : EqualSet) (f : DSStatistic K → DSStatistic K) :
    Steady sm (sm.modifyStatistic sub f) ∧ (sm.modifyStatistic sub f).singleDS = sm.singleDS := by
  unfold modifyStatistic
  split <;> exact ⟨⟨⟨rfl, rfl⟩, ⟨rfl, rfl, rfl⟩, ⟨rfl, rfl, rfl, rfl⟩⟩, rfl⟩

theorem forSubsets_spec (f : DSStatistic K → DSStatistic K)
    (hn : (freshOf sm.subset sm.skip).Nodup) :
    Steady sm (sm.forSubsets f) ∧ (sm.forSubsets f).singleDS = sm.singleDS ∧
    ∀ key, (sm.forSubsets f).statistics.find? key =
      if key ∈ freshOf sm.subset sm.skip then (sm.statistics.find? key).map f
      else sm.statistics.find? key := by
  unfold forSubsets freshOf at *
  generalize sm.subset.zip sm.skip = l at *
  induction l generalizing sm with
  | nil => exact ⟨.refl sm, rfl, by simp⟩
  | cons s l ih =>
    obtain ⟨sub, skip⟩ := s
    cases skip with
    | true => simpa using ih (by simpa using hn)
    | false =>
      simp only [Bool.not_false, List.filter_cons_of_pos, List.map_cons, List.nodup_cons] at hn
      obtain ⟨hsteady, hsingle, hfind⟩ := @ih (sm.modifyStatistic sub f) hn.2
      obtain ⟨hs1, hs2⟩ := modifyStatistic_steady sm sub f
      rw [List.foldl_cons, if_neg (by simp)]
      refine ⟨hs1.trans hsteady, hsingle.trans hs2, fun key => ?_⟩
      rw [hfind, find?_modifyStatistic]
      by_cases hk : key = sub
      · subst hk; simp [hn.1]
      · simp [hk]

end

/-! ## Preparing -/

/-- The loop of `prepareCollection` after the subsets `l`. -/
structure Prepared (sm : StatisticManager K) (l : List EqualSet) (sm' : StatisticManager K) :
    Prop where
  frame : sm' = { sm with statistics := sm'.statistics, skip := sm'.skip }
  length : sm'.skip.length = l.length
  nodup : (freshOf l sm'.skip).Nodup
  mem_fresh : ∀ key, key ∈ freshOf l sm'.skip ↔ key ∈ l ∧ sm.statistics.find? key = none
  find : ∀ key, sm'.statistics.find? key = (sm.statistics.find? key).or
    (if key ∈ l then some (.ofTables key.getTableList sm.compressPrecision) else none)

theorem freshOf_append {l : List EqualSet} {skip : List Bool} (h : skip.length = l.length)
    (sub : EqualSet) (b : Bool) :
    freshOf (l ++ [sub]) (skip ++ [b]) = freshOf l skip ++ if b then [] else [sub] := by
  rw [freshOf, List.zip_append h.symm, List.filter_append, List.map_append, ← freshOf]
  cases b <;> rfl

section

omit [LinearOrder K] [FloorRing K]

theorem Prepared.step {l : List EqualSet} (h : Prepared sm l sm') (sub : EqualSet) :
    Prepared sm (l ++ [sub]) (sm'.prepareSubset sub) := by
  have hp : sm'.compressPrecision = sm.compressPrecision := by rw [h.frame]
  have hsub := h.find sub
  unfold prepareSubset
  split
  · next st hst =>
    -- the subset is skipped: it was there from the start, or came earlier in the list
    have hold : sub ∈ l ∨ sm.statistics.find? sub ≠ none := by
      by_contra hc
      push Not at hc
      rw [hsub, hc.2, if_neg hc.1] at hst
      cases hst
    refine ⟨by rw [h.frame], by simp [h.length], ?_, fun key => ?_, fun key => ?_⟩
    · rw [freshOf_append h.length]; simpa using h.nodup
    · rw [freshOf_append h.length]
      simp only [if_true, List.append_nil, h.mem_fresh, List.mem_append, List.mem_singleton]
      constructor
      · rintro ⟨hk, hn⟩; exact ⟨.inl hk, hn⟩
      · rintro ⟨hk | rfl, hn⟩
        · exact ⟨hk, hn⟩
        · exact ⟨hold.resolve_right (by simp [hn]), hn⟩
    · rw [h.find key]
      by_cases hk : key = sub
      · subst hk
        rcases hold with hl | hn
        · simp [hl]
        · obtain ⟨st', hst'⟩ := Option.ne_none_iff_exists'.mp hn
          simp [hst']
      · simp [hk]
  · next hnone =>
    rw [hnone] at hsub
    have hfresh : sm.statistics.find? sub = none ∧ sub ∉ l := by
      cases hf : sm.statistics.find? sub with
      | some st => rw [hf] at hsub; simp at hsub
      | none =>
        refine ⟨rfl, fun hl => ?_⟩
        rw [hf, if_pos hl] at hsub; simp at hsub
    refine ⟨by rw [h.frame], by simp [h.length], ?_, fun key => ?_, fun key => ?_⟩
    · rw [freshOf_append h.length]
      refine List.nodup_append.mpr ⟨h.nodup, by simp, fun a ha b hb => ?_⟩
      rintro rfl
      obtain rfl : a = sub := by simpa using hb
      exact hfresh.2 ((h.mem_fresh _).mp ha).1
    · rw [freshOf_append h.length, List.mem_append, h.mem_fresh, List.mem_append]
      simp only [Bool.false_eq_true, if_false, List.mem_singleton]
      constructor
      · rintro (⟨hk, hn⟩ | rfl)
        · exact ⟨.inl hk, hn⟩
        · exact ⟨.inr rfl, hfresh.1⟩
      · rintro ⟨hk | rfl, hn⟩
        · exact .inl ⟨hk, hn⟩
        · exact .inr rfl
    · simp only [OrdMap.find?_insert, h.find key, hp]
      by_cases hk : key = sub
      · subst hk; simp [hfresh.1]
      · simp [hk]

theorem prepareSubset_run (sm : StatisticManager K) (l : List EqualSet) (h : sm.skip = []) :
    Prepared sm l (l.foldl prepareSubset sm) :=
  foldl_inv (Prepared sm) ⟨rfl, by simp [h], by simp [freshOf], by simp [freshOf], by simp⟩
    fun _ sub _ _ h => h.step sub

end

/-! ## Single-table sequences -/

variable {singleDS : OrdMap Table (DegreeSequence K)} {p : K}

omit [Field K] [LinearOrder K] [FloorRing K] in
theorem singleDSOf_ok {t : Table} {ds : DegreeSequence K} (h : singleDS.find? t = some ds) :
    singleDSOf singleDS t = .ok ds := by rw [singleDSOf, h]

/-- A sequence after the calls of one count vector. -/
def addSingle (n : ℤ) (p : K) (c : ℤ) (ds : DegreeSequence K) : DegreeSequence K :=
  if c = 0 then ds else ds.addDegree (c : K) n p

theorem addSingle_run (p : K) (n : ℤ) {l : List (Table × ℤ)} (hl : l.Pairwise fun a b => a.1 < b.1)
    (h : ∀ kv ∈ l, (singleDS.find? kv.1).isSome) :
    ∃ s, l.foldlM (addSingleCount p n) singleDS = .ok s ∧
      ∀ t, s.find? t = (singleDS.find? t).map
        (addSingle n p (((l.find? fun kv => kv.1 = t).map (·.2)).getD 0)) := by
  induction l generalizing singleDS with
  | nil =>
    refine ⟨singleDS, rfl, fun t => ?_⟩
    have : addSingle n p 0 = (id : DegreeSequence K → _) := funext fun ds => by simp [addSingle]
    simp [this]
  | cons kv l ih =>
    obtain ⟨hkv, hl⟩ := List.pairwise_cons.mp hl
    obtain ⟨ds, hds⟩ := Option.isSome_iff_exists.mp (h kv (.head _))
    have hnone : l.find? (fun b => b.1 = kv.1) = none :=
      List.find?_eq_none.mpr fun b hb => by simpa using (hkv b hb).ne'
    rw [List.foldlM_cons]
    by_cases hc : kv.2 = 0
    · obtain ⟨s, hs, hfind⟩ := ih hl fun b hb => h b (.tail _ hb)
      refine ⟨s, by rw [addSingleCount, if_pos hc]; exact hs, fun t => ?_⟩
      rw [hfind, List.find?_cons]
      by_cases ht : kv.1 = t
      · subst ht; simp [hnone, hc]
      · simp [ht]
    · obtain ⟨s, hs, hfind⟩ := @ih (singleDS.insert kv.1 (ds.addDegree (kv.2 : K) n p))
        hl fun b hb => by
          rw [OrdMap.find?_insert]; split
          · rfl
          · exact h b (.tail _ hb)
      refine ⟨s, by rw [addSingleCount, if_neg hc, singleDSOf_ok hds]; exact hs, fun t => ?_⟩
      rw [hfind, OrdMap.find?_insert, List.find?_cons]
      by_cases ht : kv.1 = t
      · subst ht; simp [hnone, hds, addSingle, hc]
      · simp [ht, Ne.symm ht]

theorem addDegreeForSingleDS_ok (sm : StatisticManager K) (count : CountMap) (n : ℤ)
    (h : ∀ t, (count.find? t).isSome → (sm.singleDS.find? t).isSome) :
    ∃ s, sm.addDegreeForSingleDS count n = .ok { sm with singleDS := s } ∧
      ∀ t, s.find? t = (sm.singleDS.find? t).map
        (addSingle n sm.compressPrecision (DSStatistic.countOf count t)) := by
  obtain ⟨s, hs, hfind⟩ := addSingle_run sm.compressPrecision n
    count.sorted fun kv hkv => h kv.1 (by rw [OrdMap.mem_toList.mp hkv]; rfl)
  exact ⟨s, by rw [addDegreeForSingleDS, hs]; rfl, hfind⟩

theorem addSingle_eq (table : Table) (c : CountMap × ℤ) (ds : DegreeSequence K) :
    addSingle c.2 p (DSStatistic.countOf c.1 table) ds = ds.addDegrees (singleCalls table [c]) p := by
  rw [addSingle, singleCalls, List.filterMap_cons]
  split <;> rfl

theorem addDegreeForSingleDS_run (sm : StatisticManager K) (counts : List (CountMap × ℤ))
    (h : ∀ c ∈ counts, ∀ t, (c.1.find? t).isSome → (sm.singleDS.find? t).isSome) :
    ∃ s, counts.foldlM (fun sm c => sm.addDegreeForSingleDS c.1 c.2) sm =
        .ok { sm with singleDS := s } ∧
      ∀ t, s.find? t = (sm.singleDS.find? t).map fun ds =>
        ds.addDegrees (singleCalls t counts) sm.compressPrecision := by
  have hrun : ∃ sm', counts.foldlM (fun sm c => sm.addDegreeForSingleDS c.1 c.2) sm = .ok sm' ∧
      ∃ s, sm' = { sm with singleDS := s } ∧ ∀ t, s.find? t =
        (sm.singleDS.find? t).map fun ds =>
          ds.addDegrees (singleCalls t counts) sm.compressPrecision := by
    refine foldlM_inv (fun l sm' => ∃ s, sm' = { sm with singleDS := s } ∧ ∀ t, s.find? t =
        (sm.singleDS.find? t).map fun ds =>
          ds.addDegrees (singleCalls t l) sm.compressPrecision)
      ⟨sm.singleDS, rfl, fun t => by simp [singleCalls]⟩ ?_
    rintro l c _ hc ⟨s, rfl, hfind⟩
    obtain ⟨s', hs', hfind'⟩ := addDegreeForSingleDS_ok { sm with singleDS := s } c.1 c.2
      fun t ht => by simpa [hfind] using h c hc t ht
    refine ⟨_, hs', s', rfl, fun t => ?_⟩
    rw [hfind', hfind, Option.map_map]
    refine congrFun (congrArg Option.map (funext fun ds => ?_)) _
    simp only [Function.comp]
    rw [addSingle_eq, ← DegreeSequence.addDegrees_append, singleCalls, singleCalls, singleCalls,
      List.filterMap_append]
  obtain ⟨_, hok, s, rfl, hfind⟩ := hrun
  exact ⟨s, hok, hfind⟩

/-- Every listed table is finished as often as it is listed. -/
theorem finishSingle_run (cleared : OrdMap Table (List K)) {tables : List Table}
    (h : ∀ t ∈ tables, (singleDS.find? t).isSome) :
    ∃ cleared' s, tables.foldlM finishSingle (cleared, singleDS) = .ok (cleared', s) ∧
      ∀ t, s.find? t = (singleDS.find? t).map fun ds =>
        ds.finishTimes (cleared.find? t) (tables.count t) := by
  induction tables generalizing cleared singleDS with
  | nil => exact ⟨cleared, singleDS, rfl, fun t => by simp [DegreeSequence.finishTimes]⟩
  | cons u l ih =>
    obtain ⟨ds, hds⟩ := Option.isSome_iff_exists.mp (h u (.head _))
    obtain ⟨cleared', s, hs, hfind⟩ := @ih (singleDS.insert u (ds.finishCall (cleared.find? u)))
      (cleared.insert u ((cleared.find? u).getD ds.clearedSums)) fun t ht => by
        rw [OrdMap.find?_insert]; split
        · rfl
        · exact h t (.tail _ ht)
    refine ⟨cleared', s, ?_, fun t => ?_⟩
    · rw [List.foldlM_cons, finishSingle, singleDSOf_ok hds]
      exact hs
    · rw [hfind, OrdMap.find?_insert, OrdMap.find?_insert, List.count_cons]
      by_cases ht : t = u
      · subst ht
        simp [hds, DegreeSequence.finishTimes]
      · simp [ht, Ne.symm ht]

/-! ## One equal set -/

/-- The state after `PrepareCollection`, and with `f` mapped over the fresh statistics. -/
structure Ready (f : DSStatistic K → DSStatistic K) (sm : StatisticManager K) (eset : EqualSet)
    (sm' : StatisticManager K) : Prop where
  frame : Frame sm sm'
  rates : sm'.adjustRate = sm.adjustRate ∧ sm'.predicateAdjustRate = sm.predicateAdjustRate ∧
    sm'.rateSum = sm.rateSum ∧ sm'.rateCount = sm.rateCount
  eset_eq : sm'.eset = eset
  subset_eq : sm'.subset = sm.subsetsOf eset
  skip_length : sm'.skip.length = sm'.subset.length
  nodup : (freshOf sm'.subset sm'.skip).Nodup
  mem_fresh : ∀ key, key ∈ freshOf sm'.subset sm'.skip ↔
    key ∈ sm.subsetsOf eset ∧ sm.statistics.find? key = none
  statistics : ∀ key, sm'.statistics.find? key = (sm.statistics.find? key).or
    (if key ∈ sm.subsetsOf eset then
      some (f (.ofTables key.getTableList sm.compressPrecision)) else none)

section

omit [LinearOrder K] [FloorRing K]

theorem prepareCollection_ready (sm : StatisticManager K) (eset : EqualSet) :
    Ready id sm eset (sm.prepareCollection eset) := by
  have h := prepareSubset_run { sm with eset, subset := sm.subsetsOf eset, skip := [] }
    (sm.subsetsOf eset) rfl
  set prep := (sm.subsetsOf eset).foldl prepareSubset
    { sm with eset, subset := sm.subsetsOf eset, skip := [] } with hprep
  have hf := h.frame
  have hsub : (sm.prepareCollection eset).subset = sm.subsetsOf eset := by
    change prep.subset = _; rw [hf]
  have hskip : (sm.prepareCollection eset).skip = prep.skip := rfl
  refine ⟨?_, ?_, ?_, hsub, ?_, ?_, ?_, h.find⟩
  · change Frame sm { prep with singleDS := _ }
    rw [hf]; exact ⟨rfl, rfl⟩
  · change prep.adjustRate = _ ∧ prep.predicateAdjustRate = _ ∧ prep.rateSum = _ ∧
      prep.rateCount = _
    rw [hf]; exact ⟨rfl, rfl, rfl, rfl⟩
  · change prep.eset = eset
    rw [hf]
  · rw [hsub, hskip]; exact h.length
  · rw [hsub, hskip]; exact h.nodup
  · rw [hsub, hskip]; exact h.mem_fresh

theorem Ready.steady {f : DSStatistic K → DSStatistic K} {eset : EqualSet}
    (h : Ready f sm eset sm') (hs : Steady sm' sm'')
    (hstat : sm''.statistics = sm'.statistics) : Ready f sm eset sm'' := by
  obtain ⟨hf, ⟨h1, h2, h3⟩, h4, h5, h6, h7⟩ := hs
  obtain ⟨r1, r2, r3, r4⟩ := h.rates
  refine ⟨h.frame.trans hf, ⟨h4.trans r1, h5.trans r2, h6.trans r3, h7.trans r4⟩,
    h1.trans h.eset_eq, h2.trans h.subset_eq, by rw [h2, h3, h.skip_length], ?_, ?_, ?_⟩
  · rw [h2, h3]; exact h.nodup
  · rw [h2, h3]; exact h.mem_fresh
  · rw [hstat]; exact h.statistics

theorem Ready.forSubsets {f : DSStatistic K → DSStatistic K} {eset : EqualSet}
    (h : Ready f sm eset sm') (g : DSStatistic K → DSStatistic K) :
    Ready (g ∘ f) sm eset (sm'.forSubsets g) := by
  obtain ⟨⟨hf, ⟨h1, h2, h3⟩, h4, h5, h6, h7⟩, -, hfind⟩ := forSubsets_spec g h.nodup
  obtain ⟨r1, r2, r3, r4⟩ := h.rates
  refine ⟨h.frame.trans hf, ⟨h4.trans r1, h5.trans r2, h6.trans r3, h7.trans r4⟩,
    h1.trans h.eset_eq, h2.trans h.subset_eq, by rw [h2, h3, h.skip_length], ?_, ?_, fun key => ?_⟩
  · rw [h2, h3]; exact h.nodup
  · rw [h2, h3]; exact h.mem_fresh
  · rw [hfind]
    by_cases hk : key ∈ sm.subsetsOf eset ∧ sm.statistics.find? key = none
    · rw [if_pos ((h.mem_fresh key).mpr hk), h.statistics, hk.2, if_pos hk.1, if_pos hk.1]; rfl
    · rw [if_neg fun hm => hk ((h.mem_fresh key).mp hm), h.statistics]
      cases hst : sm.statistics.find? key with
      | some st => rfl
      | none =>
        have hn : key ∉ sm.subsetsOf eset := fun hm => hk ⟨hm, hst⟩
        rw [if_neg hn, if_neg hn]

end

/-- The state in which `FinishCollection` starts to calibrate. -/
structure Gathered (db : Database V) (sm : StatisticManager K) (eset : EqualSet)
    (mid : StatisticManager K) : Prop where
  ready : Ready (fun st => (st.addCounts (countsOf db eset.entries.toList).toList).finishCollection)
    sm eset mid
  singleDS : ∀ t, mid.singleDS.find? t =
    if t ∈ eset.getTableList then
      some (((∅ : DegreeSequence K).addDegrees (singleCalls t
        (countsOf db eset.entries.toList).toList) sm.compressPrecision).finishTimes none
          (eset.getTableList.count t))
    else none

theorem mem_tables_of_countsOf {columns : List TableColumn} {c : CountMap × ℤ}
    (hc : c ∈ (countsOf db columns).toList) {t : Table} (ht : (c.1.find? t).isSome) :
    t ∈ tableNames columns := by
  have h1 := OrdMap.mem_toList.mp (show (c.1, c.2) ∈ _ from hc)
  rw [countsOf, OrdMap.find?_ofKeys] at h1
  split at h1
  · next hm =>
    obtain ⟨v, _, hv⟩ := List.mem_map.mp hm
    rw [← hv, countMap, OrdMap.find?_ofKeys] at ht
    by_contra hn
    rw [if_neg hn] at ht
    cases ht
  · cases h1

theorem collectEqualSet_gathered (pow : K → K → K) (db : Database V) (sm : StatisticManager K)
    {eset : EqualSet} (hne : eset.entries.toList ≠ []) :
    ∃ mid, Gathered db sm eset mid ∧
      collectEqualSet pow db sm eset = calibrateSubsets pow mid := by
  set counts := (countsOf db eset.entries.toList).toList with hcounts
  have r1 := prepareCollection_ready sm eset
  have hds1 : (sm.prepareCollection eset).singleDS = OrdMap.ofKeys eset.getTableList fun _ => ∅ :=
    rfl
  set sm1 := sm.prepareCollection eset
  have r2 := r1.forSubsets fun st => st.addCounts counts
  have hds2 := (forSubsets_spec (fun st => st.addCounts counts) r1.nodup).2.1
  set sm2 := sm1.forSubsets fun st => st.addCounts counts
  obtain ⟨s3, hs3, hfind3⟩ := addDegreeForSingleDS_run sm2 counts
    fun c hc t ht => by
      have hm : t ∈ eset.getTableList := mem_tables_of_countsOf hc ht
      rw [hds2, hds1, OrdMap.find?_ofKeys, if_pos hm]; rfl
  have hp2 : sm2.compressPrecision = sm.compressPrecision := by rw [r2.frame.options]
  have hds3 : ∀ t, s3.find? t = if t ∈ eset.getTableList then
      some ((∅ : DegreeSequence K).addDegrees (singleCalls t counts) sm.compressPrecision)
      else none := by
    intro t
    rw [hfind3, hp2, hds2, hds1, OrdMap.find?_ofKeys]
    split <;> rfl
  have r3 : Ready _ sm eset { sm2 with singleDS := s3 } :=
    r2.steady ⟨⟨rfl, rfl⟩, ⟨rfl, rfl, rfl⟩, ⟨rfl, rfl, rfl, rfl⟩⟩ rfl
  set sm3 : StatisticManager K := { sm2 with singleDS := s3 } with hsm3
  have r4 := r3.forSubsets DSStatistic.finishCollection
  have hds4 := (forSubsets_spec DSStatistic.finishCollection r3.nodup).2.1
  set sm4 := sm3.forSubsets DSStatistic.finishCollection
  obtain ⟨cleared, s5, hs5, hfind5⟩ := finishSingle_run ∅ (show ∀ t ∈ eset.getTableList, (s3.find? t).isSome from
    fun t ht => by rw [hds3, if_pos ht]; rfl)
  refine ⟨{ sm4 with singleDS := s5 }, ⟨?_, fun t => ?_⟩, ?_⟩
  · exact r4.steady ⟨⟨rfl, rfl⟩, ⟨rfl, rfl, rfl⟩, ⟨rfl, rfl, rfl, rfl⟩⟩ rfl
  · rw [hfind5, hds3]
    split <;> rfl
  · rw [collectEqualSet, countNum_eq hne]
    change (counts.foldlM _ sm2 >>= fun sm => sm.finishCollection pow) = _
    rw [hs3]
    change (sm4.eset.getTableList.foldlM finishSingle (∅, sm4.singleDS) >>= _) = _
    rw [r4.eset_eq, hds4]
    change (eset.getTableList.foldlM finishSingle (∅, s3) >>= _) = _
    rw [hs5]
    rfl

/-! ## Calibration -/

/-- Calibration only adds to the rates. -/
def RatesOnly (sm sm' : StatisticManager K) : Prop :=
  sm' = { sm with rateSum := sm'.rateSum, rateCount := sm'.rateCount }

omit [Field K] [LinearOrder K] [FloorRing K] in
theorem RatesOnly.trans (h : RatesOnly sm sm') (h' : RatesOnly sm' sm'') : RatesOnly sm sm'' := by
  rw [RatesOnly] at *; rw [h', h]

theorem calibrate_ok {tables : List Table} (h : ∀ t ∈ tables, (singleDS.find? t).isSome) :
    ∃ c, calibrate singleDS p tables = .ok c := by
  cases tables with
  | nil => exact ⟨_, rfl⟩
  | cons t l =>
    obtain ⟨ds, hds⟩ := Option.isSome_iff_exists.mp (h t (.head _))
    obtain ⟨c, hc, -⟩ := foldlM_inv (f := calibrateTable singleDS p) (fun _ _ => True)
      (b := ⟨ds, some ds.getCard⟩) trivial fun _ u c hu _ => by
        obtain ⟨ds', hds'⟩ := Option.isSome_iff_exists.mp (h u (.tail _ hu))
        exact ⟨_, by rw [calibrateTable, singleDSOf_ok hds']; rfl, trivial⟩
    exact ⟨c, by rw [calibrate, singleDSOf_ok hds]; exact hc⟩

theorem calibrateSubset_ok (pow : K → K → K) {sub : EqualSet} (hstat : (sm.statistics.find? sub).isSome)
    (h : 2 ≤ sub.entries.size → ∀ t ∈ sub.getTableList, (sm.singleDS.find? t).isSome) :
    ∃ sm', calibrateSubset pow sm sub = .ok sm' ∧ RatesOnly sm sm' := by
  unfold calibrateSubset
  split
  · exact ⟨sm, rfl, rfl⟩
  · next hs =>
    obtain ⟨c, hc⟩ := calibrate_ok (p := sm.compressPrecision) (h (by omega))
    obtain ⟨st, hst⟩ := Option.isSome_iff_exists.mp hstat
    simp only [hc, OrdMap.lookup, hst, bind, Except.bind]
    cases rateOf pow st.card c.ds.getCard c.avgCard sub.entries.size <;> exact ⟨_, rfl, rfl⟩

section

omit [Field K] [LinearOrder K] [FloorRing K]

theorem exists_of_mem_subsetsOf {o : Options K} {eset key : EqualSet}
    (h : key ∈ o.subsetsOf eset) : ∃ f : EqualSet, f.Subset eset ∧ f.nameTable = key := by
  unfold Options.subsetsOf at h
  split at h
  · obtain ⟨f, hf, _, rfl⟩ := EqualSet.mem_getAllSubsetLimitSize.mp h
    exact ⟨f, hf, rfl⟩
  · exact EqualSet.mem_getAllSubset.mp h

/-- A key with two entries is a part of the equal set. -/
theorem subset_of_mem_subsetsOf {o : Options K} {eset key : EqualSet}
    (h : key ∈ o.subsetsOf eset) (h2 : 2 ≤ key.entries.size) : key.Subset eset := by
  obtain ⟨f, hf, rfl⟩ := exists_of_mem_subsetsOf h
  rcases f.nameTable_cases with ⟨c, _, he⟩ | ⟨_, he⟩
  · rw [he] at h2
    exact absurd h2 (by simp [EqualSet.ofTable, OrdSet.insert, OrdSet.size, upsert])
  · rwa [he]

theorem le_sizeLimit {o : Options K} {eset : EqualSet} {n : ℕ}
    (h : (n : ℤ) ≤ o.maxStarSize) : n ≤ o.sizeLimit eset := by
  unfold Options.sizeLimit
  split <;> omega

/-- The keys with two entries are the parts within the size limit. -/
theorem mem_subsetsOf_iff {o : Options K} {eset key : EqualSet} (h2 : 2 ≤ key.entries.size) :
    key ∈ o.subsetsOf eset ↔
      key.Subset eset ∧ (o.enableStarSplit = true → key.entries.size ≤ o.sizeLimit eset) := by
  have hname := EqualSet.nameTable_of_two_le h2
  refine ⟨fun h => ⟨subset_of_mem_subsetsOf h h2, fun hsplit => ?_⟩, ?_⟩
  · rw [Options.subsetsOf, if_pos hsplit] at h
    obtain ⟨f, _, hn, rfl⟩ := EqualSet.mem_getAllSubsetLimitSize.mp h
    rcases f.nameTable_cases with ⟨c, _, he⟩ | ⟨_, he⟩
    · rw [he] at h2
      exact absurd h2 (by simp [EqualSet.ofTable, OrdSet.insert, OrdSet.size, upsert])
    · rwa [he]
  · rintro ⟨hs, hn⟩
    rw [Options.subsetsOf]
    split
    · next hsplit => exact EqualSet.mem_getAllSubsetLimitSize.mpr ⟨key, hs, hn hsplit, hname⟩
    · exact EqualSet.mem_getAllSubset.mpr ⟨key, hs, hname⟩

/-- Parts of at most one entry get a key unless the size limit is zero. -/
theorem nameTable_mem_subsetsOf {o : Options K} (ho : o.enableStarSplit = true → o.maxStarSize ≠ 0)
    {eset f : EqualSet} (hf : f.Subset eset) (h1 : f.entries.size ≤ 1) :
    f.nameTable ∈ o.subsetsOf eset := by
  rw [Options.subsetsOf]
  split
  · next hs =>
    refine EqualSet.mem_getAllSubsetLimitSize.mpr ⟨f, hf, ?_, rfl⟩
    have h0 := ho hs
    have hle : f.entries.size ≤ eset.entries.size :=
      (f.entries.nodup.subperm fun c hc => hf c hc).length_le
    unfold Options.sizeLimit
    split <;> omega
  · exact EqualSet.mem_getAllSubset.mpr ⟨f, hf, rfl⟩

theorem ofTable_mem_subsetsOf {o : Options K} (ho : o.enableStarSplit = true → o.maxStarSize ≠ 0)
    {eset : EqualSet} {t : Table} (ht : t ∈ eset.getTableList) : .ofTable t ∈ o.subsetsOf eset := by
  obtain ⟨c, hc, rfl⟩ := List.mem_map.mp ht
  refine nameTable_mem_subsetsOf ho (f := ⟨OrdSet.insert c ∅⟩) (fun d hd => ?_) le_rfl
  rcases OrdSet.mem_insert.mp hd with rfl | hd
  · exact hc
  · exact absurd hd (OrdSet.not_mem_empty d)

end

theorem mem_freshOf {subset : List EqualSet} {skip : List Bool} {key : EqualSet} :
    (key, false) ∈ subset.zip skip ↔ key ∈ freshOf subset skip := by
  simp [freshOf]

theorem Gathered.calibrate_ok {eset : EqualSet} {mid : StatisticManager K}
    (h : Gathered db sm eset mid) (pow : K → K → K) :
    ∃ sm', calibrateSubsets pow mid = .ok sm' ∧ RatesOnly mid sm' := by
  refine foldlM_inv (fun _ sm' => RatesOnly mid sm') rfl ?_
  rintro _ ⟨sub, skip⟩ b hs hb
  cases skip with
  | true => exact ⟨b, rfl, hb⟩
  | false =>
    have hm := (h.ready.mem_fresh sub).mp (mem_freshOf.mp hs)
    have hst : (b.statistics.find? sub).isSome := by
      rw [hb]; simp only; rw [h.ready.statistics, hm.2, if_pos hm.1]; rfl
    obtain ⟨sm', hok, hr⟩ := calibrateSubset_ok pow hst fun h2 t ht => by
      obtain ⟨c, hc, rfl⟩ := List.mem_map.mp ht
      have hmem : c.tableName ∈ eset.getTableList :=
        List.mem_map_of_mem (subset_of_mem_subsetsOf hm.1 h2 c hc)
      rw [hb]; simp only; rw [h.singleDS, if_pos hmem]; rfl
    exact ⟨sm', hok, hb.trans hr⟩

/-! ## All equal sets -/

/-- The statistic of a key: the first equal set that offers it provides it. -/
def collected (o : Options K) (db : Database V) (esets : List EqualSet) (key : EqualSet) :
    Option (DSStatistic K) :=
  (esets.find? fun e => key ∈ o.subsetsOf e).map fun e => starStat o.compressPrecision db e key

theorem exists_of_collected {o : Options K} {esets : List EqualSet} {key : EqualSet}
    {st : DSStatistic K} (h : collected o db esets key = some st) :
    ∃ e ∈ esets, key ∈ o.subsetsOf e ∧ st = starStat o.compressPrecision db e key := by
  obtain ⟨e, he, rfl⟩ := Option.map_eq_some_iff.mp h
  exact ⟨e, List.mem_of_find?_eq_some he, by simpa using List.find?_some he, rfl⟩

theorem isSome_collected {o : Options K} {esets : List EqualSet} {e key : EqualSet}
    (he : e ∈ esets) (h : key ∈ o.subsetsOf e) : (collected o db esets key).isSome := by
  rw [collected, Option.isSome_map, List.find?_isSome]
  exact ⟨e, he, by simpa using h⟩

theorem collectEqualSet_ok (pow : K → K → K) (db : Database V) (sm : StatisticManager K)
    {eset : EqualSet} (hne : eset.entries.toList ≠ []) :
    ∃ sm', collectEqualSet pow db sm eset = .ok sm' ∧ Frame sm sm' ∧
      ∀ key, sm'.statistics.find? key = (sm.statistics.find? key).or
        (collected sm.toOptions db [eset] key) := by
  obtain ⟨mid, hg, hmid⟩ := collectEqualSet_gathered pow db sm hne
  obtain ⟨sm', hok, hr⟩ := hg.calibrate_ok pow
  have hf : Frame mid sm' := by rw [hr]; exact ⟨rfl, rfl⟩
  refine ⟨sm', hmid.trans hok, hg.ready.frame.trans hf, fun key => ?_⟩
  have hst : sm'.statistics = mid.statistics := by rw [hr]
  rw [hst, hg.ready.statistics, collected, List.find?_cons]
  by_cases hk : key ∈ sm.toOptions.subsetsOf eset <;> simp [hk, starStat]

theorem collectEqualSets_ok (pow : K → K → K) (db : Database V) (sm : StatisticManager K)
    {esets : List EqualSet} (hne : ∀ e ∈ esets, e.entries.toList ≠ []) :
    ∃ sm', esets.foldlM (collectEqualSet pow db) sm = .ok sm' ∧ Frame sm sm' ∧
      ∀ key, sm'.statistics.find? key = (sm.statistics.find? key).or
        (collected sm.toOptions db esets key) := by
  refine foldlM_inv (fun l sm' => Frame sm sm' ∧ ∀ key, sm'.statistics.find? key =
    (sm.statistics.find? key).or (collected sm.toOptions db l key)) ⟨.refl sm, by simp [collected]⟩ ?_
  rintro l e b he ⟨hf, hfind⟩
  obtain ⟨sm', hok, hf', hfind'⟩ := collectEqualSet_ok pow db b (hne e he)
  refine ⟨sm', hok, hf.trans hf', fun key => ?_⟩
  rw [hfind', hfind, hf.options, Option.or_assoc]
  congr 1
  rw [collected, collected, collected, List.find?_append]
  cases l.find? fun e => key ∈ sm.toOptions.subsetsOf e <;> rfl

section

omit [LinearOrder K] [FloorRing K]

theorem initial_statistics : (initial : StatisticManager K).statistics = ∅ := rfl

theorem calcAdjustRate_frame (sm : StatisticManager K) :
    Frame sm sm.calcAdjustRate ∧ sm.calcAdjustRate.statistics = sm.statistics := by
  unfold calcAdjustRate
  split <;> exact ⟨⟨rfl, rfl⟩, rfl⟩

end

/-- Collection succeeds, and every key holds the statistic of the first equal set offering it. -/
theorem collectStatistics_ok (pow : K → K → K) (db : Database V) {sm : StatisticManager K}
    (h0 : sm.statistics = ∅) {esets : List EqualSet}
    (hne : ∀ e ∈ esets, e.entries.toList ≠ []) :
    ∃ sm', collectStatistics pow db sm esets = .ok sm' ∧ Frame sm sm' ∧
      ∀ key, sm'.statistics.find? key = collected sm.toOptions db esets key := by
  obtain ⟨sm', hok, hf, hfind⟩ := collectEqualSets_ok pow db sm hne
  obtain ⟨hf', hst⟩ := calcAdjustRate_frame sm'
  refine ⟨sm'.calcAdjustRate, by rw [collectStatistics, hok]; rfl, hf.trans hf', fun key => ?_⟩
  rw [hst, hfind, h0]
  rfl

/-- Collection succeeds only if every equal set has an entry. -/
theorem nonempty_of_collectStatistics {esets : List EqualSet}
    (h : collectStatistics pow db sm esets = .ok sm') : ∀ e ∈ esets, e.entries.toList ≠ [] := by
  obtain ⟨sm1, h1, -⟩ := bind_eq_ok.mp h
  clear h
  induction esets generalizing sm with
  | nil => simp
  | cons e l ih =>
    rw [List.foldlM_cons] at h1
    obtain ⟨sm2, h2, h3⟩ := bind_eq_ok.mp h1
    refine List.forall_mem_cons.mpr ⟨fun he => ?_, ih h3⟩
    rw [collectEqualSet, countNum, if_pos he] at h2
    cases h2

end StatisticManager

end StarCE
