import StarCE.Manager.Session

/-!
# The statistic of a join class

`getEqualSetFromAttrEset` names the columns of a class and remembers one
relation for each table name; the rekeying constructor takes that way back. The
statistic it leaves has the relations of the class as its tables, each once,
exactly if the way back is one (`classStatistics_relations_iff`).
-/

namespace StarCE

variable {K V : Type} [Field K] [LinearOrder K] [FloorRing K] [DecidableEq V]

/-! ## Rekeying -/

namespace DSStatistic

variable {st new : DSStatistic K} {idx : OrdMap String ℕ}

/-- The id a table gets, as a text. -/
def relName (idx : OrdMap String ℕ) (t : Table) : String := toString ((idx.find? t).getD 0)

/-- A statistic after its tables have been renamed. -/
structure Rekeyed (st : DSStatistic K) (idx : OrdMap String ℕ) (new : DSStatistic K) : Prop where
  card : new.card = st.card
  precision : new.precision = st.precision
  central : new.centralDs = ∅
  tables : new.tables = st.tables.map (relName idx)
  find : ∀ u, new.ds.find? u = (st.tables.reverse.find? fun t => relName idx t = u).map st.dsOf

section

omit [Field K] [LinearOrder K] [FloorRing K]

theorem rekey_ok (h : ∀ t ∈ st.tables, (idx.find? t).isSome ∧ (st.ds.find? t).isSome) :
    ∃ new, st.rekey idx = .ok new ∧ Rekeyed st idx new := by
  have hrun : ∃ new : DSStatistic K, st.rekey idx = .ok new ∧ new =
      { card := st.card, precision := st.precision, centralDs := ∅
        ds := st.tables.foldl (fun (m : OrdMap Table (DegreeSequence K)) t =>
          m.insert (relName idx t) (st.dsOf t)) ∅
        tables := st.tables.map (relName idx) } := by
    refine foldlM_inv (fun l (new : DSStatistic K) => new =
      { card := st.card, precision := st.precision, centralDs := ∅
        ds := l.foldl (fun (m : OrdMap Table (DegreeSequence K)) t =>
          m.insert (relName idx t) (st.dsOf t)) ∅
        tables := l.map (relName idx) }) rfl ?_
    rintro l t _ ht rfl
    obtain ⟨i, hi⟩ := Option.isSome_iff_exists.mp (h t ht).1
    obtain ⟨d, hd⟩ := Option.isSome_iff_exists.mp (h t ht).2
    refine ⟨_, by simp only [OrdMap.lookup, hi, hd, bind, Except.bind]; rfl, ?_⟩
    simp [relName, dsOf, hi, hd]
  obtain ⟨new, hok, rfl⟩ := hrun
  exact ⟨_, hok, rfl, rfl, rfl, rfl, OrdMap.find?_foldl_insert _ _ _⟩

theorem isSome_of_rekey (h : st.rekey idx = .ok new) :
    ∀ t ∈ st.tables, (idx.find? t).isSome ∧ (st.ds.find? t).isSome := fun t ht => by
  obtain ⟨c, c', hc⟩ := exists_ok_of_foldlM h t ht
  obtain ⟨i, hi, hc⟩ := bind_eq_ok.mp hc
  obtain ⟨d, hd, -⟩ := bind_eq_ok.mp hc
  exact ⟨OrdMap.isSome_of_lookup hi, OrdMap.isSome_of_lookup hd⟩

theorem Rekeyed.isSome_iff (h : Rekeyed st idx new) (u : Table) :
    (new.ds.find? u).isSome ↔ u ∈ new.tables := by
  rw [h.find, Option.isSome_map, List.find?_isSome, h.tables, List.mem_map]
  simp

theorem Rekeyed.full (h : Rekeyed st idx new) : new.Full := fun u hu => (h.isSome_iff u).mpr hu

/-- A table whose new name is its own keeps its sequence. -/
theorem Rekeyed.dsOf (h : Rekeyed st idx new) {t : Table} (ht : t ∈ st.tables)
    (hinj : ∀ u ∈ st.tables, relName idx u = relName idx t → u = t) :
    new.dsOf (relName idx t) = st.dsOf t := by
  rw [DSStatistic.dsOf, h.find]
  cases hf : st.tables.reverse.find? fun u => relName idx u = relName idx t with
  | none =>
    have := List.find?_eq_none.mp hf t (List.mem_reverse.mpr ht)
    simp at this
  | some u =>
    have hu : relName idx u = relName idx t := by simpa using List.find?_some hf
    rw [hinj u (List.mem_reverse.mp (List.mem_of_find?_eq_some hf)) hu]
    rfl

end

end DSStatistic

/-! ## Naming the columns -/

namespace StatisticManager

variable {sm sm' sm0 sm1 : StatisticManager K} {pow : K → K → K} {db : Database V} {A : AttrEset}
  {idx : OrdMap String ℕ}

def tableOf (sm : StatisticManager K) (a : Attribute) : Table :=
  (sm.tableName.find? (ofLex a).1).getD ""

def columnOf (sm : StatisticManager K) (a : Attribute) : TableColumn :=
  ⟨sm.tableOf a, (sm.columnName.find? a).getD ""⟩

/-- The columns of a class; a single attribute stands for its table. -/
def columnsOf (sm : StatisticManager K) (A : AttrEset) : EqualSet :=
  match A.toList with
  | [a] => .ofTable (sm.tableOf a)
  | attrs => ⟨.ofList (attrs.map sm.columnOf)⟩

section

omit [Field K] [LinearOrder K] [FloorRing K]

theorem columnsOf_of_eq {a : Attribute} (h : A.toList = [a]) :
    sm.columnsOf A = .ofTable (sm.tableOf a) := by rw [columnsOf, h]

theorem columnsOf_of_ne (h : A.size ≠ 1) :
    sm.columnsOf A = ⟨.ofList (A.toList.map sm.columnOf)⟩ := by
  unfold columnsOf
  split
  · next a hA => exact absurd (by rw [OrdSet.size, hA]; rfl) h
  · rfl

end

/-- Every attribute of a class has the names `getEqualSetFromAttrEset` asks for. -/
def Named (sm : StatisticManager K) (A : AttrEset) : Prop :=
  ∀ a ∈ A, (sm.tableName.find? (ofLex a).1).isSome ∧
    (A.size ≠ 1 → (sm.columnName.find? a).isSome)

/-- What `tableIdx` has become: the last attribute of a table name gives it its relation. -/
def IndexOf (sm : StatisticManager K) (A : AttrEset) (idx : OrdMap String ℕ) : Prop :=
  ∀ t, idx.find? t = (A.toList.reverse.find? fun a => sm.tableOf a = t).map fun a => (ofLex a).1

section

omit [Field K] [LinearOrder K] [FloorRing K]

theorem getEqualSetFromAttrEset_ok (h : sm.Named A) :
    ∃ idx, sm.getEqualSetFromAttrEset A = .ok (sm.columnsOf A, idx) ∧ sm.IndexOf A idx := by
  unfold getEqualSetFromAttrEset
  split
  · next a hA =>
    rw [columnsOf_of_eq hA]
    have ha := OrdMap.lookup_of_isSome "" (h a (by rw [OrdSet.mem_def, hA]; exact .head _)).1
    refine ⟨(∅ : OrdMap String ℕ).insert (sm.tableOf a) (ofLex a).1, by rw [ha]; rfl, fun t => ?_⟩
    rw [hA, OrdMap.find?_insert, List.reverse_singleton, List.find?_singleton]
    by_cases ht : sm.tableOf a = t
    · simp [ht]
    · simp [ht, Ne.symm ht]
  · next attrs hA =>
    have hsize : A.size ≠ 1 := fun h1 => by
      obtain ⟨a, ha⟩ := List.length_eq_one_iff.mp h1
      exact hA a ha
    rw [columnsOf_of_ne hsize]
    have hrun : ∃ s : EqualSet × OrdMap String ℕ, A.toList.foldlM
        (fun (s : EqualSet × OrdMap String ℕ) attr => do
          let table ← sm.tableName.lookup (ofLex attr).1
          let column ← sm.columnName.lookup attr
          pure (⟨s.1.entries.insert ⟨table, column⟩⟩, s.2.insert table (ofLex attr).1))
        ((⟨∅⟩, ∅) : EqualSet × OrdMap String ℕ) = .ok s ∧
        s = (⟨.ofList (A.toList.map sm.columnOf)⟩, A.toList.foldl
          (fun (m : OrdMap String ℕ) a => m.insert (sm.tableOf a) (ofLex a).1) ∅) := by
      refine foldlM_inv (fun l (s : EqualSet × OrdMap String ℕ) =>
        s = (⟨.ofList (l.map sm.columnOf)⟩, l.foldl
          (fun (m : OrdMap String ℕ) a => m.insert (sm.tableOf a) (ofLex a).1) ∅)) rfl ?_
      rintro l a _ ha rfl
      have h1 := OrdMap.lookup_of_isSome "" (h a ha).1
      have h2 := OrdMap.lookup_of_isSome "" ((h a ha).2 hsize)
      refine ⟨_, by simp only [h1, h2, bind, Except.bind]; rfl, ?_⟩
      simp [OrdSet.ofList, columnOf, tableOf]
    obtain ⟨_, hok, rfl⟩ := hrun
    exact ⟨_, hok, fun t => OrdMap.find?_foldl_insert _ _ _ _⟩

theorem named_of_getEqualSetFromAttrEset {s : EqualSet × OrdMap String ℕ}
    (h : sm.getEqualSetFromAttrEset A = .ok s) : sm.Named A := by
  unfold getEqualSetFromAttrEset at h
  split at h
  · next a hA =>
    obtain ⟨t, ht, -⟩ := bind_eq_ok.mp h
    intro b hb
    rw [OrdSet.mem_def, hA] at hb
    rw [List.mem_singleton.mp hb]
    exact ⟨OrdMap.isSome_of_lookup ht, fun hs => absurd (by rw [OrdSet.size, hA]; rfl) hs⟩
  · intro a ha
    obtain ⟨c, c', hc⟩ := exists_ok_of_foldlM h a ha
    obtain ⟨t, ht, hc⟩ := bind_eq_ok.mp hc
    obtain ⟨col, hcol, -⟩ := bind_eq_ok.mp hc
    exact ⟨OrdMap.isSome_of_lookup ht, fun _ => OrdMap.isSome_of_lookup hcol⟩

end

/-! ## Looking the columns up -/

/-- The columns of `s` are columns of `e`, or `s` is one of its tables. -/
def CoveredBy (s e : EqualSet) : Prop := s.Subset e ∨ ∃ t ∈ e.getTableList, s = .ofTable t

omit [Field K] [LinearOrder K] [FloorRing K] in
/-- The chunks of covered columns have entries in the statistics. -/
theorem split_covered (hM : 3 ≤ sm.maxStarSize) {s e : EqualSet} (hne : s.entries.size ≠ 0)
    (hcov : CoveredBy s e) :
    ∃ c chunks, s.split sm.maxStarSize = .ok (c :: chunks) ∧
      (chunks = [] ↔ (s.entries.size : ℤ) ≤ sm.maxStarSize) ∧
      (∀ u, u ∈ s.getTableList ↔ ∃ d ∈ c :: chunks, u ∈ d.getTableList) ∧
      ∀ d ∈ c :: chunks, d ∈ sm.subsetsOf e := by
  by_cases h1 : s.entries.size = 1
  · obtain ⟨x, hx⟩ := List.length_eq_one_iff.mp h1
    have hsplit : s.split sm.maxStarSize = .ok [.ofTable x.tableName] := by
      have hone := EqualSet.splitLoop_of_le (l := [x]) 0 hM (by simp) (by simp; omega)
      rw [EqualSet.split, if_neg (by omega), h1, hx]
      exact congrArg Except.ok hone
    have htab : s.getTableList = [x.tableName] := by rw [EqualSet.getTableList, hx]; rfl
    have hmem : x.tableName ∈ e.getTableList := by
      rcases hcov with hsub | ⟨t, ht, rfl⟩
      · exact List.mem_map_of_mem (hsub x (by rw [OrdSet.mem_def, hx]; exact .head _))
      · rw [EqualSet.getTableList_ofTable] at htab
        exact (List.cons.inj htab).1 ▸ ht
    refine ⟨_, [], hsplit, by simp [h1]; omega, fun u => ?_, fun d hd => ?_⟩
    · rw [htab]
      simp [EqualSet.getTableList_ofTable]
    · rw [List.mem_singleton.mp hd]
      exact ofTable_mem_subsetsOf (fun _ => by omega) hmem
  · obtain ⟨chunks, hsplit, hc⟩ := EqualSet.split_chunks hM h1
    have hsub : s.Subset e := by
      rcases hcov with hsub | ⟨t, -, rfl⟩
      · exact hsub
      · exact absurd rfl h1
    cases chunks with
    | nil =>
      have := hc.flatten
      rw [OrdSet.size, ← this] at hne
      exact absurd rfl hne
    | cons c chunks =>
      refine ⟨c, chunks, hsplit, ?_, fun u => ?_, fun d hd => ?_⟩
      · rw [show (s.entries.size : ℤ) = s.entries.toList.length from rfl, ← hc.one_iff]
        cases chunks <;> simp
      · rw [EqualSet.getTableList, ← hc.flatten, List.map_flatMap, List.mem_flatMap]
        rfl
      · exact (mem_subsetsOf_iff (hc.size d hd).1).mpr
          ⟨fun x hx => hsub x (hc.subset hd x hx), fun _ => le_sizeLimit (hc.size d hd).2⟩

/-- The columns whose tables the statistic lists one by one. -/
def firstColumns (sm : StatisticManager K) (s : EqualSet) : List TableColumn :=
  if sm.enableStarSplit then s.firstChunk sm.maxStarSize else s.entries.toList

/-- More than one chunk is merged. -/
def ManyChunks (sm : StatisticManager K) (s : EqualSet) : Prop :=
  sm.enableStarSplit = true ∧ sm.maxStarSize < s.entries.size

/-- The statistic found for some columns. Merging chunks loses the sequence of a table with the
name of the pseudo table. -/
structure LookedUp (sm : StatisticManager K) (s : EqualSet) (st : DSStatistic K) : Prop where
  nodup : st.tables.Nodup ↔ ((sm.firstColumns s).map (·.tableName)).Nodup
  mem : ∀ u ∈ st.tables, u ∈ s.getTableList
  of_mem : ∀ u ∈ s.getTableList, u ≠ DSStatistic.centerTable ∨ ¬sm.ManyChunks s → u ∈ st.tables
  stored : st.Stored
  full : ¬sm.ManyChunks s → st.Full
  center : sm.ManyChunks s → st.ds.find? DSStatistic.centerTable = none

/-- Every entry has a sequence for each table of its key, in the order of the key. -/
def Stocked (sm : StatisticManager K) : Prop := ∀ key st, sm.statistics.find? key = some st →
  st.tables = key.getTableList ∧ st.Full

/-- The loop over the chunks after the first, `c`, once the chunks `l` are merged. -/
structure Chunking (c : EqualSet) (l : List EqualSet) (st : DSStatistic K) : Prop where
  stored : st.Stored
  nodup : st.tables.Nodup ↔ c.getTableList.Nodup
  mem : ∀ u ∈ st.tables, ∃ d ∈ c :: l, u ∈ d.getTableList
  of_mem : ∀ d ∈ c :: l, ∀ u ∈ d.getTableList, u ≠ DSStatistic.centerTable → u ∈ st.tables
  center : l ≠ [] → st.ds.find? DSStatistic.centerTable = none

theorem Chunking.step {c d : EqualSet} {l : List EqualSet} {st std : DSStatistic K}
    (h : Chunking c l st) (htables : std.tables = d.getTableList) (hfull : std.Full) :
    ∃ new, st.mergeByCenter std = .ok new ∧ Chunking c (l ++ [d]) new := by
  obtain ⟨new, hok, hstored, -, -, htab, hcenter⟩ :=
    DSStatistic.mergeByCenter_full h.stored hfull.stored
  obtain ⟨added, hperm, hn, hadd, hall⟩ := DSStatistic.erase_centerTables st.tables std.tables
  rw [← htab] at hperm
  refine ⟨new, hok, hstored, ?_, fun u hu => ?_, fun d' hd' u hu hne => ?_, fun _ => hcenter⟩
  · rw [hperm.nodup_iff, ← h.nodup, List.nodup_append]
    refine ⟨fun h => h.1, fun h => ⟨h, hn, ?_⟩⟩
    rintro a ha b hb rfl
    exact (hadd a hb).2.1 ha
  · rcases List.mem_append.mp (hperm.subset hu) with hu | hu
    · obtain ⟨d', hd', hu⟩ := h.mem u hu
      exact ⟨d', List.mem_append_left [d] hd', hu⟩
    · exact ⟨d, by simp, htables ▸ (hadd u hu).1⟩
  · refine hperm.symm.subset (List.mem_append.mpr ?_)
    rw [← List.cons_append, List.mem_append, List.mem_singleton] at hd'
    rcases hd' with hd' | rfl
    · exact .inl (h.of_mem d' hd' u hu hne)
    · exact hall u (htables ▸ hu) hne

/-- Covered columns are found, unless they are one column and star splitting is off. -/
theorem getStatisticsFromEset_lookedUp (hsm : sm.Stocked) {s e : EqualSet}
    (hne : s.entries.size ≠ 0) (hcov : CoveredBy s e)
    (hhas : ∀ d ∈ sm.subsetsOf e, (sm.statistics.find? d).isSome)
    (hM : sm.enableStarSplit = true → 3 ≤ sm.maxStarSize)
    (hkey : sm.enableStarSplit = false → 2 ≤ s.entries.size ∨ ∃ t, s = .ofTable t) :
    ∃ st, sm.getStatisticsFromEset s = .ok st ∧ sm.LookedUp s st := by
  unfold getStatisticsFromEset
  split
  · next hsplit =>
    obtain ⟨c, chunks, hok, hmany, htables, hsub⟩ := split_covered (hM hsplit) hne hcov
    have hfirst := EqualSet.head_split hok
    have hstat : ∀ d ∈ c :: chunks, ∃ st, sm.chunkStatistics s d = .ok st ∧
        st.tables = d.getTableList ∧ st.Full := fun d hd => by
      obtain ⟨st, hst⟩ := Option.isSome_iff_exists.mp (hhas d (hsub d hd))
      exact ⟨st, by simp only [chunkStatistics, hst], hsm d st hst⟩
    obtain ⟨std, hstd, htab, hfull⟩ := hstat c (.head _)
    have hrun : ∃ st : DSStatistic K, chunks.foldlM (sm.mergeChunk s)
        { std with precision := sm.compressPrecision } = .ok st ∧
        Chunking c chunks st ∧ (chunks = [] → st.Full) := by
      refine foldlM_inv (fun l (st : DSStatistic K) => Chunking c l st ∧ (l = [] → st.Full))
        ⟨⟨hfull.stored, by rw [← htab], fun u hu => ⟨c, .head _, htab ▸ hu⟩, ?_,
          fun h => absurd rfl h⟩, fun _ => hfull⟩ ?_
      · intro d hd u hu _
        rw [List.mem_singleton.mp hd, ← htab] at hu
        exact hu
      · rintro l d st hd ⟨hst, -⟩
        obtain ⟨st', hst', htab', hfull'⟩ := hstat d (.tail _ hd)
        obtain ⟨new, hnew, hc⟩ := hst.step htab' hfull'
        exact ⟨new, by rw [mergeChunk, hst']; exact hnew, hc, fun h => by simp at h⟩
    obtain ⟨st, hst, hc, hone⟩ := hrun
    have hchunks : sm.ManyChunks s ↔ chunks ≠ [] := by
      rw [ManyChunks, ne_eq, hmany, not_le]
      exact and_iff_right hsplit
    refine ⟨st, ?_, ?_, fun u hu => (htables u).mpr (hc.mem u hu), fun u hu hne' => ?_, hc.stored,
      fun h => hone (not_not.mp fun h' => h (hchunks.mpr h')), fun h => hc.center (hchunks.mp h)⟩
    · rw [hok]
      simp only [bind, Except.bind, hstd]
      exact hst
    · rw [hc.nodup, hfirst, firstColumns, if_pos hsplit]
    · obtain ⟨d, hd, hu⟩ := (htables u).mp hu
      rcases hne' with hne' | hne'
      · exact hc.of_mem d hd u hu hne'
      · have hnil : chunks = [] := not_not.mp fun h' => hne' (hchunks.mpr h')
        subst hnil
        rw [List.mem_singleton.mp hd, ← htab] at hu
        obtain rfl := Except.ok.inj hst
        exact hu
  · next hsplit =>
    have hs : sm.enableStarSplit = false := by simpa using hsplit
    have hmem : s ∈ sm.subsetsOf e := by
      rcases hcov with hsub | ⟨t, ht, rfl⟩
      · rcases hkey hs with h2 | ⟨t, rfl⟩
        · exact (mem_subsetsOf_iff h2).mpr ⟨hsub, fun h => absurd h hsplit⟩
        · exact ofTable_mem_subsetsOf (fun h => absurd h hsplit) (List.mem_map_of_mem
            (hsub ⟨t, ""⟩ (by simp [EqualSet.ofTable])))
      · exact ofTable_mem_subsetsOf (fun h => absurd h hsplit) ht
    obtain ⟨st, hst⟩ := Option.isSome_iff_exists.mp (hhas s hmem)
    obtain ⟨htab, hfull⟩ := hsm s st hst
    refine ⟨st, by rw [hst], ?_, fun u hu => htab ▸ hu, fun u hu _ => htab ▸ hu, hfull.stored,
      fun _ => hfull, fun h => absurd h.1 hsplit⟩
    rw [htab, firstColumns, if_neg hsplit]
    rfl

end StatisticManager

end StarCE
