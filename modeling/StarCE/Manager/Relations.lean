import StarCE.Join.StarSplit
import StarCE.Manager.Filters

/-!
# The relations of a class

A join class names its attributes by relation ids, the statistics by table
names, and `tableIdx` is the way back. The statistic of a class has the
relations of the class as its tables, each once, exactly if no two relations are
of one table, no table is listed twice and no table has the name of the pseudo
table (`classStatistics_relations_iff`).
-/

namespace StarCE

variable {K V : Type} [Field K] [LinearOrder K] [FloorRing K] [DecidableEq V]

namespace StatisticManager

open DSStatistic

variable {sm sm0 sm1 : StatisticManager K} {st star : DSStatistic K} {A : AttrEset}
  {idx : OrdMap String ℕ} {pow : K → K → K} {sort : Sorting K} {db : Database V} {esets : List EqualSet}

/-! ## The way back -/

section

omit [Field K] [LinearOrder K] [FloorRing K]

theorem IndexOf.exists_of_some (h : sm.IndexOf A idx) {t : Table} {rel : ℕ}
    (ht : idx.find? t = some rel) : ∃ a ∈ A, sm.tableOf a = t ∧ (ofLex a).1 = rel := by
  rw [h t] at ht
  obtain ⟨a, ha, rfl⟩ := Option.map_eq_some_iff.mp ht
  exact ⟨a, List.mem_reverse.mp (List.mem_of_find?_eq_some ha), by simpa using List.find?_some ha,
    rfl⟩

theorem IndexOf.exists_find (h : sm.IndexOf A idx) {a : Attribute} (ha : a ∈ A) :
    ∃ b ∈ A, sm.tableOf b = sm.tableOf a ∧ idx.find? (sm.tableOf a) = some (ofLex b).1 := by
  have hsome : (idx.find? (sm.tableOf a)).isSome := by
    rw [h, Option.isSome_map, List.find?_isSome]
    exact ⟨a, List.mem_reverse.mpr ha, by simp⟩
  obtain ⟨rel, hrel⟩ := Option.isSome_iff_exists.mp hsome
  obtain ⟨b, hb, htab, rfl⟩ := h.exists_of_some hrel
  exact ⟨b, hb, htab, hrel⟩

/-- Two attributes of one relation are of one table. -/
theorem tableOf_congr {a b : Attribute} (h : (ofLex a).1 = (ofLex b).1) :
    sm.tableOf a = sm.tableOf b := by rw [tableOf, tableOf, h]

theorem mem_getTableList_columnsOf {u : Table} :
    u ∈ (sm.columnsOf A).getTableList ↔ ∃ a ∈ A, sm.tableOf a = u := by
  by_cases h1 : A.size = 1
  · obtain ⟨a, ha⟩ := List.length_eq_one_iff.mp h1
    rw [columnsOf_of_eq ha, EqualSet.getTableList_ofTable, List.mem_singleton]
    simp only [OrdSet.mem_def, ha, List.mem_singleton, exists_eq_left]
    exact eq_comm
  · rw [columnsOf_of_ne h1, EqualSet.getTableList, List.mem_map]
    constructor
    · rintro ⟨c, hc, rfl⟩
      obtain ⟨a, ha, rfl⟩ := List.mem_map.mp (OrdSet.mem_ofList.mp hc)
      exact ⟨a, ha, rfl⟩
    · rintro ⟨a, ha, rfl⟩
      exact ⟨_, OrdSet.mem_ofList.mpr (List.mem_map_of_mem ha), rfl⟩

/-- The text a table name is rekeyed to determines the table. -/
theorem IndexOf.relName_inj (h : sm.IndexOf A idx) {t u : Table}
    (ht : t ∈ (sm.columnsOf A).getTableList) (hu : u ∈ (sm.columnsOf A).getTableList)
    (heq : relName idx t = relName idx u) : t = u := by
  obtain ⟨a, ha, rfl⟩ := mem_getTableList_columnsOf.mp ht
  obtain ⟨b, hb, rfl⟩ := mem_getTableList_columnsOf.mp hu
  obtain ⟨a', ha', hta, hia⟩ := h.exists_find ha
  obtain ⟨b', hb', htb, hib⟩ := h.exists_find hb
  rw [relName, relName, hia, hib] at heq
  rw [← hta, ← htb]
  exact tableOf_congr (toString_injective heq)

end

/-! ## When the way back is one -/

/-- The table names of a class lead back to its relations: they stand for one relation each, the
statistic lists none of them twice, there is a key for the columns, and none is lost with the
pseudo table. -/
structure KeysMatch (sm : StatisticManager K) (A : AttrEset) : Prop where
  relation : ∀ a ∈ A, ∀ b ∈ A, sm.tableOf a = sm.tableOf b → (ofLex a).1 = (ofLex b).1
  once : ((sm.firstColumns (sm.columnsOf A)).map (·.tableName)).Nodup
  key : sm.enableStarSplit = false →
    2 ≤ (sm.columnsOf A).entries.size ∨ ∃ t, sm.columnsOf A = .ofTable t
  size : sm.enableStarSplit = true → 3 ≤ sm.maxStarSize
  pseudo : sm.ManyChunks (sm.columnsOf A) → ∀ a ∈ A, sm.tableOf a ≠ centerTable

/-- What `classStatistics` is made of. -/
theorem classStatistics_eq_ok : sm.classStatistics A = .ok st ↔ sm.Named A ∧
    ∃ star idx, sm.getStatisticsFromEset (sm.columnsOf A) = .ok star ∧ sm.IndexOf A idx ∧
      star.rekey idx = .ok st := by
  rw [classStatistics, bind_eq_ok]
  constructor
  · rintro ⟨s, hs, h⟩
    obtain ⟨star, hstar, h⟩ := bind_eq_ok.mp h
    have hnamed := named_of_getEqualSetFromAttrEset hs
    obtain ⟨idx, hok, hidx⟩ := getEqualSetFromAttrEset_ok hnamed
    obtain rfl := Except.ok.inj (hok.symm.trans hs)
    exact ⟨hnamed, star, idx, hstar, hidx, h⟩
  · rintro ⟨hnamed, star, idx, hstar, hidx, h⟩
    obtain ⟨idx', hok, hidx'⟩ := getEqualSetFromAttrEset_ok hnamed
    obtain rfl : idx = idx' := OrdMap.ext_find? fun t => (hidx t).trans (hidx' t).symm
    exact ⟨_, hok, bind_eq_ok.mpr ⟨star, hstar, h⟩⟩

/-- The statistic of a class has exactly its relations as tables, each once. -/
structure OfRelations (A : AttrEset) (st : DSStatistic K) : Prop where
  nodup : st.tables.Nodup
  mem_iff : ∀ u, u ∈ st.tables ↔ ∃ a ∈ A, u = toString (ofLex a).1

section

omit [Field K] [LinearOrder K] [FloorRing K]

theorem KeysMatch.rekey (h : sm.KeysMatch A) (hlook : sm.LookedUp (sm.columnsOf A) star)
    (hidx : sm.IndexOf A idx) :
    ∃ st, star.rekey idx = .ok st ∧ Rekeyed star idx st ∧ OfRelations A st ∧ st.Full := by
  have hsome : ∀ t ∈ star.tables, (idx.find? t).isSome ∧ (star.ds.find? t).isSome := by
    intro t ht
    obtain ⟨a, ha, rfl⟩ := mem_getTableList_columnsOf.mp (hlook.mem t ht)
    obtain ⟨b, -, -, hb⟩ := hidx.exists_find ha
    refine ⟨by rw [hb]; rfl, ?_⟩
    by_cases hmany : sm.ManyChunks (sm.columnsOf A)
    · exact hlook.stored _ ht (h.pseudo hmany a ha)
    · exact hlook.full hmany _ ht
  obtain ⟨st, hok, hre⟩ := rekey_ok hsome
  refine ⟨st, hok, hre, ⟨?_, fun u => ?_⟩, hre.full⟩
  · rw [hre.tables]
    exact List.Nodup.map_on (fun t ht u hu heq => hidx.relName_inj (hlook.mem t ht)
      (hlook.mem u hu) heq) (hlook.nodup.mpr h.once)
  · rw [hre.tables, List.mem_map]
    constructor
    · rintro ⟨t, ht, rfl⟩
      obtain ⟨a, ha, rfl⟩ := mem_getTableList_columnsOf.mp (hlook.mem t ht)
      obtain ⟨b, hb, -, hfind⟩ := hidx.exists_find ha
      exact ⟨b, hb, by rw [relName, hfind]; rfl⟩
    · rintro ⟨a, ha, rfl⟩
      obtain ⟨b, hb, htab, hfind⟩ := hidx.exists_find ha
      refine ⟨sm.tableOf a, hlook.of_mem _ (mem_getTableList_columnsOf.mpr ⟨a, ha, rfl⟩) ?_, ?_⟩
      · by_cases hmany : sm.ManyChunks (sm.columnsOf A)
        · exact .inl (h.pseudo hmany a ha)
        · exact .inr hmany
      · rw [relName, hfind, ← h.relation b hb a ha htab]
        rfl

/-- Where a class keeps its relations, its names match. -/
theorem OfRelations.keys (hrel : OfRelations A st) (hlook : sm.LookedUp (sm.columnsOf A) star)
    (hidx : sm.IndexOf A idx) (hok : star.rekey idx = .ok st) :
    (∀ a ∈ A, ∀ b ∈ A, sm.tableOf a = sm.tableOf b → (ofLex a).1 = (ofLex b).1) ∧
      ((sm.firstColumns (sm.columnsOf A)).map (·.tableName)).Nodup ∧
      (sm.ManyChunks (sm.columnsOf A) → ∀ a ∈ A, sm.tableOf a ≠ centerTable) := by
  have hsome := isSome_of_rekey hok
  obtain ⟨st', hok', hre⟩ := rekey_ok hsome
  obtain rfl : st' = st := Except.ok.inj (hok'.symm.trans hok)
  -- a relation is what its own table name is read as
  have hown : ∀ a ∈ A, sm.tableOf a ∈ star.tables ∧
      idx.find? (sm.tableOf a) = some (ofLex a).1 := by
    intro a ha
    have hmem := (hrel.mem_iff (toString (ofLex a).1)).mpr ⟨a, ha, rfl⟩
    rw [hre.tables] at hmem
    obtain ⟨t, ht, heq⟩ := List.mem_map.mp hmem
    obtain ⟨rel, hrel⟩ := Option.isSome_iff_exists.mp (hsome t ht).1
    obtain ⟨b, -, htab, hb⟩ := hidx.exists_of_some hrel
    rw [relName, hrel] at heq
    obtain rfl : rel = (ofLex a).1 := toString_injective heq
    obtain rfl : t = sm.tableOf a := htab.symm.trans (tableOf_congr hb)
    exact ⟨ht, hrel⟩
  refine ⟨fun a ha b hb heq => ?_, ?_, fun hmany a ha hcenter => ?_⟩
  · have h := (hown a ha).2
    rw [heq, (hown b hb).2] at h
    exact (Option.some.inj h).symm
  · rw [← hlook.nodup]
    have := hrel.nodup
    rw [hre.tables] at this
    exact this.of_map _
  · have := (hsome _ (hown a ha).1).2
    rw [hcenter, hlook.center hmany] at this
    cases this

end

/-! ## Collected columns -/

theorem stocked_of_collected {o : Options K}
    (h : ∀ key, sm.statistics.find? key = collected o db esets key) : sm.Stocked := by
  intro key st hst
  obtain ⟨e, -, -, rfl⟩ := exists_of_collected ((h key).symm.trans hst)
  exact ⟨starStat_tables _ _ _ _, full_starStat _ _ _ _⟩

omit [Field K] [LinearOrder K] [FloorRing K] in
/-- The options that decide which parts of an equal set are collected. -/
theorem subsetsOf_congr {o o' : Options K} (h : o.enableStarSplit = o'.enableStarSplit)
    (h' : o.maxStarSize = o'.maxStarSize) (e : EqualSet) : o.subsetsOf e = o'.subsetsOf e := by
  unfold Options.subsetsOf Options.sizeLimit
  rw [h, h']

/-- The columns of a class are among those of an equal set; a single relation is covered by its
table. -/
def CoversClass (sm : StatisticManager K) (e : EqualSet) (A : AttrEset) : Prop :=
  ∀ a ∈ A, ∃ t, sm.tableName.find? (ofLex a).1 = some t ∧ t ∈ e.getTableList ∧
    (A.size ≠ 1 → ∃ c, sm.columnName.find? a = some c ∧ ⟨t, c⟩ ∈ e.entries)

section

omit [Field K] [LinearOrder K] [FloorRing K]

theorem CoversClass.named {e : EqualSet} (h : sm.CoversClass e A) : sm.Named A := fun a ha => by
  obtain ⟨t, ht, -, hc⟩ := h a ha
  refine ⟨by rw [ht]; rfl, fun hs => ?_⟩
  obtain ⟨c, hc, -⟩ := hc hs
  rw [hc]
  rfl

theorem CoversClass.coveredBy {e : EqualSet} (h : sm.CoversClass e A) :
    CoveredBy (sm.columnsOf A) e := by
  by_cases h1 : A.size = 1
  · obtain ⟨a, ha⟩ := List.length_eq_one_iff.mp h1
    obtain ⟨t, ht, hmem, -⟩ := h a (by rw [OrdSet.mem_def, ha]; exact .head _)
    refine .inr ⟨t, hmem, ?_⟩
    rw [columnsOf_of_eq ha, tableOf, ht]
    rfl
  · refine .inl fun c hc => ?_
    rw [columnsOf_of_ne h1] at hc
    obtain ⟨a, ha, rfl⟩ := List.mem_map.mp (OrdSet.mem_ofList.mp hc)
    obtain ⟨t, ht, -, hcol⟩ := h a ha
    obtain ⟨c, hc, hmem⟩ := hcol h1
    rw [columnOf, tableOf, ht, hc]
    exact hmem

theorem size_columnsOf_ne_zero (sm : StatisticManager K) (h : ∃ a, a ∈ A) :
    (sm.columnsOf A).entries.size ≠ 0 := by
  obtain ⟨a, ha⟩ := h
  have hmem : sm.tableOf a ∈ (sm.columnsOf A).getTableList :=
    mem_getTableList_columnsOf.mpr ⟨a, ha, rfl⟩
  have := List.length_pos_of_mem hmem
  rw [EqualSet.getTableList, List.length_map] at this
  exact this.ne'

end

/-- The statistic of a class whose columns are covered by a collected equal set exists and has the
relations of the class as its tables, each once, exactly if the names of the class match. -/
theorem classStatistics_relations_iff (h0 : sm0.statistics = ∅)
    (hcol : collectStatistics pow db sm0 esets = .ok sm1) (hq : Session sm1 sm)
    (hopt : sm.enableStarSplit = sm0.enableStarSplit ∧ sm.maxStarSize = sm0.maxStarSize)
    {rels : List ℕ} (hA : A ∈ sm.getAttrEsetFromRels rels) {e : EqualSet} (he : e ∈ esets)
    (hcov : sm.CoversClass e A) :
    (∃ st, sm.classStatistics A = .ok st ∧ st.tables.Nodup ∧
      (∀ u, u ∈ st.tables ↔ ∃ a ∈ A, u = toString (ofLex a).1) ∧
      ∀ st', st' = st ∨ filterClass pow sort sm A st = .ok st' →
        ∀ a ∈ A, ∃ ds, st'.ds.lookup (toString (ofLex a).1) = .ok ds) ↔ sm.KeysMatch A := by
  have hfind := Session.find?_eq h0 hcol hq
  have hhas : ∀ d ∈ sm.subsetsOf e, (sm.statistics.find? d).isSome := fun d hd => by
    rw [hfind]
    exact isSome_collected he (subsetsOf_congr hopt.1 hopt.2 e ▸ hd)
  have hne := size_columnsOf_ne_zero sm (exists_mem_of_getAttrEsetFromRels hA)
  have hlook := fun hM hkey => getStatisticsFromEset_lookedUp (stocked_of_collected hfind) hne
    hcov.coveredBy hhas hM hkey
  constructor
  · rintro ⟨st, hok, hnodup, hmem, -⟩
    obtain ⟨-, star, idx, hstar, hidx, hre⟩ := classStatistics_eq_ok.mp hok
    -- a statistic has been found, so there was a key for it
    have hsize : sm.enableStarSplit = true → 3 ≤ sm.maxStarSize := fun hs => by
      by_contra hM
      rw [getStatisticsFromEset, if_pos hs, EqualSet.split, if_pos (by omega)] at hstar
      cases hstar
    have hkey : sm.enableStarSplit = false →
        2 ≤ (sm.columnsOf A).entries.size ∨ ∃ t, sm.columnsOf A = .ofTable t := fun hs => by
      rw [getStatisticsFromEset, if_neg (by rw [hs]; exact Bool.false_ne_true)] at hstar
      by_cases h1 : (sm.columnsOf A).entries.size = 1
      · cases hf : sm.statistics.find? (sm.columnsOf A) with
        | none => rw [hf] at hstar; cases hstar
        | some st => exact .inr (eq_ofTable_of_collected ((hfind _).symm.trans hf) h1)
      · exact .inl (by omega)
    obtain ⟨star', hstar', hl⟩ := hlook hsize hkey
    obtain rfl : star' = star := Except.ok.inj (hstar'.symm.trans hstar)
    obtain ⟨h1, h2, h3⟩ := OfRelations.keys ⟨hnodup, hmem⟩ hl hidx hre
    exact ⟨h1, h2, hkey, hsize, h3⟩
  · intro hkeys
    obtain ⟨star, hstar, hl⟩ := hlook hkeys.size hkeys.key
    obtain ⟨idx, -, hidx⟩ := getEqualSetFromAttrEset_ok hcov.named
    obtain ⟨st, hok, hre, hrel, hfull⟩ := hkeys.rekey hl hidx
    have ht : ∀ a ∈ A, toString (ofLex a).1 ∈ st.tables := fun a ha =>
      (hrel.mem_iff _).mpr ⟨a, ha, rfl⟩
    refine ⟨st, classStatistics_eq_ok.mpr ⟨hcov.named, star, idx, hstar, hidx, hok⟩, hrel.nodup,
      hrel.mem_iff, fun st' hst' a ha => ?_⟩
    have hkeep : Keeps st st' := by
      rcases hst' with rfl | hst'
      · exact .refl _
      · exact keeps_filterClass hst' hfull ht
    exact ⟨_, (hkeep.full hfull).lookup (by rw [hkeep.tables]; exact ht a ha)⟩

/-! ## A table that is joined with itself -/

section Example

def twoColumns : EqualSet := ⟨.ofList [⟨"t", "x"⟩, ⟨"u", "x"⟩]⟩

/-- A query over relations that all have the column `x`, and the manager it is entered in. -/
def queryOf (tables : List Table) (calls : List JoinPredicate) :
    Except Error (StatisticManager ℚ × StatisticManager ℚ) := do
  let sm1 ← collectStatistics (fun x _ => x) everyTable initial [twoColumns]
  let sm ← sm1.enterQuery (tables.map fun t => (t, ["x"], 1))
    (.ofKeys (List.range tables.length) fun _ => "") calls
  pure (sm1, sm)

/-- The attributes `x` of the first relations. -/
def firstAttrs (n : ℕ) : AttrEset := .ofList ((List.range n).map fun rel => toLex (rel, 0))

/-- The names the attributes of some relations have. -/
def namesOf (sm : StatisticManager ℚ) (n : ℕ) : List (Option Table × Option String) :=
  (List.range n).map fun rel => (sm.tableName.find? rel, sm.columnName.find? (toLex (rel, 0)))

theorem coversClass_of_names {sm : StatisticManager ℚ} {n : ℕ} {l : List Table}
    (h : namesOf sm n = l.map fun t => (some t, some "x")) (hl : ∀ t ∈ l, t = "t" ∨ t = "u") :
    sm.CoversClass twoColumns (firstAttrs n) := by
  intro a ha
  obtain ⟨rel, hrel, rfl⟩ := List.mem_map.mp (OrdSet.mem_ofList.mp ha)
  have hmem : (sm.tableName.find? rel, sm.columnName.find? (toLex (rel, 0))) ∈ namesOf sm n :=
    List.mem_map_of_mem hrel
  rw [h] at hmem
  obtain ⟨t, ht, heq⟩ := List.mem_map.mp hmem
  obtain ⟨h1, h2⟩ := Prod.mk.inj heq
  refine ⟨t, h1.symm, ?_, fun _ => ⟨"x", h2.symm, ?_⟩⟩
  · rcases hl t ht with rfl | rfl <;> decide
  · rcases hl t ht with rfl | rfl <;> decide

/-- Two relations of two tables. -/
theorem classStatistics_relations_pair : ∃ sm1 sm : StatisticManager ℚ,
    Session sm1 sm ∧ firstAttrs 2 ∈ sm.getAttrEsetFromRels [0, 1] ∧
    ((∃ st, sm.classStatistics (firstAttrs 2) = .ok st ∧ st.tables.Nodup ∧
      (∀ u, u ∈ st.tables ↔ ∃ a ∈ firstAttrs 2, u = toString (ofLex a).1) ∧
      ∀ st', st' = st ∨ filterClass (fun x _ => x) .stable sm (firstAttrs 2) st = .ok st' →
        ∀ a ∈ firstAttrs 2, ∃ ds, st'.ds.lookup (toString (ofLex a).1) = .ok ds) ↔
      sm.KeysMatch (firstAttrs 2)) := by
  have hrun : (do
      let s ← queryOf ["t", "u"] [⟨0, 1, 0, 0⟩]
      pure (decide ((s.2.enableStarSplit = false ∧ s.2.maxStarSize = 3) ∧
        firstAttrs 2 ∈ s.2.getAttrEsetFromRels [0, 1] ∧
        namesOf s.2 2 = ["t", "u"].map fun t => (some t, some "x")))) = .ok true := by
    decide +kernel
  obtain ⟨s, hq, hrun⟩ := bind_eq_ok.mp hrun
  obtain ⟨hopt, hmem, hnames⟩ := of_decide_eq_true (Except.ok.inj hrun)
  obtain ⟨sm1, hcol, hq⟩ := bind_eq_ok.mp hq
  obtain ⟨sm, henter, hq⟩ := bind_eq_ok.mp hq
  obtain rfl := Except.ok.inj hq
  exact ⟨sm1, sm, session_enterQuery henter, hmem,
    classStatistics_relations_iff rfl hcol (session_enterQuery henter) hopt hmem (.head _)
      (coversClass_of_names hnames (by decide))⟩

/-- With two relations of one table the statistic of their class has lost the first. -/
theorem classStatistics_selfJoin : ∃ sm1 sm : StatisticManager ℚ,
    collectStatistics (fun x _ => x) everyTable initial [twoColumns] = .ok sm1 ∧ Session sm1 sm ∧
    sm.enableStarSplit = false ∧
    firstAttrs 3 ∈ sm.getAttrEsetFromRels [0, 1, 2] ∧ sm.CoversClass twoColumns (firstAttrs 3) ∧
    (∃ st, sm.classStatistics (firstAttrs 3) = .ok st ∧ st.tables = ["1", "2"]) ∧
    ¬∃ st, sm.classStatistics (firstAttrs 3) = .ok st ∧
      ∀ a ∈ firstAttrs 3, ∃ ds, st.ds.lookup (toString (ofLex a).1) = .ok ds := by
  have hrun : (do
      let s ← queryOf ["t", "t", "u"] [⟨0, 1, 0, 0⟩, ⟨1, 2, 0, 0⟩]
      let st ← s.2.classStatistics (firstAttrs 3)
      pure (decide (s.2.enableStarSplit = false ∧
        firstAttrs 3 ∈ s.2.getAttrEsetFromRels [0, 1, 2] ∧
        namesOf s.2 3 = (["t", "t", "u"].map fun t => (some t, some "x")) ∧
        st.tables = ["1", "2"] ∧ st.ds.lookup "0" = Except.error Error.outOfRange))) = .ok true := by
    decide +kernel
  obtain ⟨s, hq, hrun⟩ := bind_eq_ok.mp hrun
  obtain ⟨st, hst, hrun⟩ := bind_eq_ok.mp hrun
  obtain ⟨hsplit, hmem, hnames, htables, hlook⟩ := of_decide_eq_true (Except.ok.inj hrun)
  obtain ⟨sm1, hcol, hq⟩ := bind_eq_ok.mp hq
  obtain ⟨sm, henter, hq⟩ := bind_eq_ok.mp hq
  obtain rfl := Except.ok.inj hq
  refine ⟨sm1, sm, hcol, session_enterQuery henter, hsplit, hmem,
    coversClass_of_names hnames (by decide), ⟨st, hst, htables⟩, ?_⟩
  rintro ⟨st', hst', hall⟩
  obtain rfl : st = st' := Except.ok.inj (hst.symm.trans hst')
  obtain ⟨ds, hds⟩ := hall (toLex (0, 0)) (by decide)
  have hds : st.ds.lookup "0" = .ok ds := hds
  rw [hlook] at hds
  cases hds

end Example

end StatisticManager

end StarCE
