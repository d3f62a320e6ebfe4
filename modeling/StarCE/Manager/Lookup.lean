import StarCE.Manager.Collected
import StarCE.Manager.Query
import StarCE.Stat.Center

/-!
# Collection and lookup

`prepareCollection` writes an entry for every part of an equal set, and
`getStatisticsFromEset` finds the entries it asks for, with and without
star splitting. Every statistic a manager holds has a sequence for each of its
tables (`Reached.stored`), so merging the chunks does not throw either.
-/

namespace StarCE

variable {K : Type}

theorem DSStatistic.Full.stored {st : DSStatistic K} (h : st.Full) : st.Stored :=
  fun u hu _ => h u hu

variable [Field K]

theorem DSStatistic.full_ofTables (tables : List Table) (p : K) :
    (DSStatistic.ofTables tables p).Full := fun u hu => by
  simp only [DSStatistic.ofTables, OrdMap.find?_ofKeys] at hu ⊢
  rw [if_pos hu]; rfl

variable [LinearOrder K] [FloorRing K]

theorem DSStatistic.Full.addCounts {st : DSStatistic K} (h : st.Full)
    (counts : List (OrdMap Table ℤ × ℤ)) : (st.addCounts counts).Full := by
  induction counts generalizing st with
  | nil => exact h
  | cons c l ih =>
    have hstep : (st.addDegree c.1 c.2).Full := by
      rw [DSStatistic.addDegree_eq]
      split
      · exact h
      · exact (DSStatistic.kept_forTables st _).full h
    exact ih hstep

theorem full_starStat {V : Type} [DecidableEq V] (p : K) (db : Database V) (eset key : EqualSet) :
    (starStat p db eset key).Full :=
  ((DSStatistic.full_ofTables _ p).addCounts _).finishCollection

namespace StatisticManager

variable {pow : K → K → K} {sm sm' : StatisticManager K}

/-- The managers that collecting leads to, from no statistics and with any options. -/
inductive Reached (pow : K → K → K) : StatisticManager K → Prop
  | fresh {sm : StatisticManager K} (h : sm.statistics = ∅) : Reached pow sm
  | setOptions {sm : StatisticManager K} (h : Reached pow sm) (o : Options K) :
      Reached pow { sm with toOptions := o }
  | prepare {sm : StatisticManager K} (h : Reached pow sm) (eset : EqualSet) :
      Reached pow (sm.prepareCollection eset)
  | collect {sm sm' : StatisticManager K} (h : Reached pow sm) {V : Type} [DecidableEq V]
      (db : Database V) (eset : EqualSet) (hok : collectEqualSet pow db sm eset = .ok sm') :
      Reached pow sm'

omit [LinearOrder K] [FloorRing K] in
theorem find?_prepareCollection (sm : StatisticManager K) (eset key : EqualSet) :
    (sm.prepareCollection eset).statistics.find? key = (sm.statistics.find? key).or
      (if key ∈ sm.subsetsOf eset then some (.ofTables key.getTableList sm.compressPrecision)
      else none) := (prepareCollection_ready sm eset).statistics key

theorem Reached.stored (h : Reached pow sm) {key : EqualSet} {st : DSStatistic K}
    (hst : sm.statistics.find? key = some st) : st.Stored := by
  induction h with
  | fresh h => simp [h] at hst
  | setOptions h o ih => exact ih hst
  | @prepare sm h eset ih =>
    rw [find?_prepareCollection, Option.or_eq_some_iff] at hst
    rcases hst with hst | ⟨-, hst⟩
    · exact ih hst
    · split at hst
      · obtain rfl := Option.some.inj hst
        exact (DSStatistic.full_ofTables _ _).stored
      · cases hst
  | @collect sm sm' h V _ db eset hok ih =>
    have hne : eset.entries.toList ≠ [] := fun h0 => by
      rw [collectEqualSet, countNum, if_pos h0] at hok
      cases hok
    obtain ⟨sm'', hok', -, hfind⟩ := collectEqualSet_ok pow db sm hne
    obtain rfl := Except.ok.inj (hok'.symm.trans hok)
    rw [hfind, Option.or_eq_some_iff] at hst
    rcases hst with hst | ⟨-, hst⟩
    · exact ih hst
    · obtain ⟨e, -, rfl⟩ := Option.map_eq_some_iff.mp hst
      exact (full_starStat _ _ _ _).stored

/-! ## The keys of a lookup -/

omit [LinearOrder K] [FloorRing K] in
theorem isSome_prepareCollection {eset key : EqualSet} (h : key ∈ sm.subsetsOf eset) :
    ((sm.prepareCollection eset).statistics.find? key).isSome := by
  rw [find?_prepareCollection, if_pos h]
  cases sm.statistics.find? key <;> rfl

/-- The parts that get an entry, before those with one entry are renamed. -/
def keyParts (sm : StatisticManager K) (eset : EqualSet) : List EqualSet :=
  eset.parts.filter fun f => sm.enableStarSplit = true → (f.entries.size : ℤ) ≤ sm.maxStarSize

section

omit [Field K] [LinearOrder K] [FloorRing K]

theorem subsetsOf_eq (hM : sm.enableStarSplit = true → 3 ≤ sm.maxStarSize) (eset : EqualSet) :
    sm.subsetsOf eset = (sm.keyParts eset).map EqualSet.nameTable := by
  rw [Options.subsetsOf, keyParts]
  split
  · next h =>
    have h0 := hM h
    rw [EqualSet.getAllSubsetLimitSize_eq, Options.sizeLimit, if_neg (by omega)]
    congr 2
    funext f
    simp only [h, forall_true_left, decide_eq_decide]
    omega
  · next h =>
    rw [EqualSet.getAllSubset_eq, List.filter_eq_self.mpr]
    exact fun f _ => by simp [h]

theorem mem_keyParts {eset f : EqualSet} : f ∈ sm.keyParts eset ↔
    f.Subset eset ∧ (sm.enableStarSplit = true → (f.entries.size : ℤ) ≤ sm.maxStarSize) := by
  rw [keyParts, List.mem_filter, EqualSet.mem_parts, decide_eq_true_iff]

end

/-- A part with two entries, and a table of the set. -/
def IsLookup (eset s : EqualSet) : Prop :=
  s.Subset eset ∧ 2 ≤ s.entries.size ∨ ∃ t ∈ eset.getTableList, s = .ofTable t

omit [Field K] [LinearOrder K] [FloorRing K] in
/-- The chunks of a set, and that each of them has an entry. -/
theorem isLookup_chunks (hM : 3 ≤ sm.maxStarSize) {eset s : EqualSet} (h : IsLookup eset s) :
    ∃ chunks, s.split sm.maxStarSize = .ok chunks ∧
      chunks.flatMap (·.entries.toList) = s.entries.toList ∧
      (∀ c ∈ chunks, (c.entries.size : ℤ) ≤ sm.maxStarSize ∧
        (c.entries.size = 1 → s.entries.size = 1)) ∧
      ∀ c ∈ chunks, c ∈ sm.subsetsOf eset := by
  rcases h with ⟨hs, h2⟩ | ⟨t, ht, rfl⟩
  · obtain ⟨chunks, hsplit, hc⟩ := EqualSet.split_chunks hM (e := s) (by omega)
    refine ⟨chunks, hsplit, hc.flatten, fun c hcm => ⟨(hc.size c hcm).2, fun h1 => ?_⟩,
      fun c hcm => (mem_subsetsOf_iff (hc.size c hcm).1).mpr
        ⟨fun x hx => hs x (hc.subset hcm x hx), fun _ => le_sizeLimit (hc.size c hcm).2⟩⟩
    have := (hc.size c hcm).1
    omega
  · refine ⟨[.ofTable t], EqualSet.split_ofTable hM t, by simp, fun c hcm => ?_, fun c hcm => ?_⟩
    · rw [List.mem_singleton.mp hcm]
      exact ⟨by change (1 : ℤ) ≤ _; omega, id⟩
    · rw [List.mem_singleton.mp hcm]
      exact ofTable_mem_subsetsOf (fun _ => by omega) ht

/-- Merging chunks that have entries succeeds. -/
theorem getStatisticsFromEset_of_chunks (hsm : Reached pow sm) (hsplit : sm.enableStarSplit = true)
    {s : EqualSet} {chunks : List EqualSet} (hc : s.split sm.maxStarSize = .ok chunks)
    (h : ∀ c ∈ chunks, (sm.statistics.find? c).isSome) :
    ∃ st, sm.getStatisticsFromEset s = .ok st := by
  have hchunk : ∀ c ∈ chunks, ∃ st, sm.chunkStatistics s c = .ok st ∧ st.Stored := fun c hcm => by
    obtain ⟨st, hst⟩ := Option.isSome_iff_exists.mp (h c hcm)
    exact ⟨st, by simp only [chunkStatistics, hst], hsm.stored hst⟩
  rw [getStatisticsFromEset, if_pos hsplit, hc]
  cases chunks with
  | nil => exact ⟨_, rfl⟩
  | cons c l =>
    obtain ⟨st, hst, hstored⟩ := hchunk c (.head _)
    obtain ⟨st', hok, -⟩ := foldlM_inv (f := sm.mergeChunk s)
      (b := { st with precision := sm.compressPrecision })
      (fun _ (x : DSStatistic K) => x.Stored) hstored fun _ d x hd hx => by
        obtain ⟨std, hstd, hds⟩ := hchunk d (.tail _ hd)
        obtain ⟨new, hok, hnew, -⟩ := DSStatistic.mergeByCenter_full hx hds
        exact ⟨new, by rw [mergeChunk, hstd]; exact hok, hnew⟩
    exact ⟨st', by simp only [bind, Except.bind, hst]; exact hok⟩

/-- After `prepareCollection` every part with two entries and every table of the set is found.
A mask of the parts is a natural number here and an `int` in the code, which holds the masks of
up to 30 entries. -/
theorem prepareCollection_lookup (hsm : Reached pow sm)
    (hM : sm.enableStarSplit = true → 3 ≤ sm.maxStarSize) (eset : EqualSet) :
    (∃ parts : List EqualSet, parts.Nodup ∧
      (∀ f, f ∈ parts ↔ f.Subset eset ∧
        (sm.enableStarSplit = true → (f.entries.size : ℤ) ≤ sm.maxStarSize)) ∧
      (sm.prepareCollection eset).subset = parts.map EqualSet.nameTable) ∧
    ∀ s, IsLookup eset s →
      (sm.enableStarSplit = false →
        ((sm.prepareCollection eset).statistics.find? s).isSome) ∧
      (sm.enableStarSplit = true → ∃ chunks, s.split sm.maxStarSize = .ok chunks ∧
        chunks.flatMap (·.entries.toList) = s.entries.toList ∧
        (∀ c ∈ chunks, (c.entries.size : ℤ) ≤ sm.maxStarSize ∧
          (c.entries.size = 1 → s.entries.size = 1)) ∧
        ∀ c ∈ chunks, ((sm.prepareCollection eset).statistics.find? c).isSome) ∧
      ∃ st, (sm.prepareCollection eset).getStatisticsFromEset s = .ok st := by
  have hr := prepareCollection_ready sm eset
  have hopt : (sm.prepareCollection eset).toOptions = sm.toOptions := hr.frame.options
  refine ⟨⟨sm.keyParts eset, (EqualSet.nodup_parts eset).filter _, fun f => mem_keyParts, ?_⟩,
    fun s hs => ?_⟩
  · rw [hr.subset_eq, subsetsOf_eq hM]
  · have hplain : sm.enableStarSplit = false →
        ((sm.prepareCollection eset).statistics.find? s).isSome := fun h => by
      refine isSome_prepareCollection ?_
      rcases hs with ⟨hsub, h2⟩ | ⟨t, ht, rfl⟩
      · exact (mem_subsetsOf_iff h2).mpr ⟨hsub, fun h' => by rw [h] at h'; cases h'⟩
      · exact ofTable_mem_subsetsOf (fun h' => by rw [h] at h'; cases h') ht
    refine ⟨hplain, fun h => ?_, ?_⟩
    · obtain ⟨chunks, hsplit, hflat, hsize, hmem⟩ := isLookup_chunks (hM h) hs
      exact ⟨chunks, hsplit, hflat, hsize, fun c hc => isSome_prepareCollection (hmem c hc)⟩
    · cases h : sm.enableStarSplit with
      | true =>
        obtain ⟨chunks, hsplit, -, -, hmem⟩ := isLookup_chunks (hM h) hs
        exact getStatisticsFromEset_of_chunks (hsm.prepare eset) (by rw [hopt]; exact h)
          (by rw [hopt]; exact hsplit) fun c hc => isSome_prepareCollection (hmem c hc)
      | false =>
        obtain ⟨st, hst⟩ := Option.isSome_iff_exists.mp (hplain h)
        refine ⟨st, ?_⟩
        rw [getStatisticsFromEset, if_neg (by rw [hopt, h]; exact Bool.false_ne_true), hst]

/-- A star of four tables, looked up as a whole: two chunks of two. -/
theorem prepareCollection_lookup_fourStar :
    let sm : StatisticManager ℚ := { initial with enableStarSplit := true }
    let eset : EqualSet := ⟨.ofList [⟨"a", "x"⟩, ⟨"b", "x"⟩, ⟨"c", "x"⟩, ⟨"d", "x"⟩]⟩
    Reached (fun x _ => x) sm ∧ (3 ≤ sm.maxStarSize) ∧ IsLookup eset eset ∧
      (eset.split 3).toOption.map List.length = some 2 ∧
      ∃ st, (sm.prepareCollection eset).getStatisticsFromEset eset = .ok st :=
  have hsm : Reached (fun x _ => x)
      ({ initial with enableStarSplit := true } : StatisticManager ℚ) := .fresh rfl
  have hlook : ∀ e : EqualSet, 2 ≤ e.entries.size → IsLookup e e := fun _ h => .inl ⟨fun _ => id, h⟩
  ⟨hsm, le_rfl, hlook _ (by decide), by decide,
    ((prepareCollection_lookup hsm (fun _ => le_rfl) _).2 _ (hlook _ (by decide))).2.2⟩

end StatisticManager

end StarCE
