import StarCE.Manager.Weighted
import StarCE.Stat.Averaged

/-!
# Two stars

An unfiltered query with two join classes that share a relation: the estimate
is at least what independence of the two stars gives over the rows of the
shared table (`independence_le_estimateCardinality`).
-/

namespace StarCE

variable {K V : Type} [Field K] [LinearOrder K] [FloorRing K] [DecidableEq V]
  [IsStrictOrderedRing K]

namespace StatisticManager

open DSStatistic

variable {sm sm0 sm1 : StatisticManager K} {st st1 st2 star1 star2 : DSStatistic K}
  {A B : AttrEset} {pow : K → K → K} {sort : Sorting K} {db : Database V} {esets : List EqualSet}

/-! ## Classes without filters -/

omit [IsStrictOrderedRing K] in
/-- Without filters no `PredMethod` changes a sequence of whole degrees. -/
theorem filterClass_unfiltered (pow : K → K → K) (sort : Sorting K) (hk : st.Keyed)
    (hf : ∀ a ∈ A, sm.filterString.find? (ofLex a).1 = some "") :
    ∃ new, filterClass pow sort sm A st = .ok new ∧ new.Keyed ∧ new.tables = st.tables ∧
      st.card ≤ new.card ∧ ∀ t ∈ st.tables, (∀ b ∈ (st.dsOf t).buckets, 1 ≤ b.maxDegree) →
        new.dsOf t = st.dsOf t := by
  have hsame : ∃ new, (Except.ok st : Except Error (DSStatistic K)) = .ok new ∧ new.Keyed ∧
      new.tables = st.tables ∧ st.card ≤ new.card ∧ ∀ t ∈ st.tables,
        (∀ b ∈ (st.dsOf t).buckets, 1 ≤ b.maxDegree) → new.dsOf t = st.dsOf t :=
    ⟨st, rfl, hk, rfl, le_rfl, fun _ _ _ => rfl⟩
  unfold filterClass
  split
  · rw [foldlM_id fun a ha => filterRows_unfiltered (hf a ha)]
    exact hsame
  · split
    · have hidle : ∀ a ∈ A.toList, sm.filterBlend st a = .ok st := fun a ha => by
        rw [filterBlend, OrdMap.lookup, hf a ha]
        rfl
      rw [foldlM_id hidle]
      exact hsame
    · have hcoeffs : sm.tableCoeffs A.toList = .ok [] := by
        unfold tableCoeffs
        rw [foldlM_id fun a ha => by rw [OrdMap.lookup, hf a ha]; rfl]
      have hrun : sm.filterUniform pow sort A st = .ok (st.applyFilterCoefficient 1) := by
        rw [filterUniform, hcoeffs]
        simp only [bind, Except.bind, sort.order_nil, List.zipIdx_nil, List.foldlM_nil]
        rfl
      refine ⟨st.applyFilterCoefficient 1, hrun, ?_, ?_, ?_, fun t ht h1 => ?_⟩
      · exact ⟨(hk.forTables _).nodup, (hk.forTables _).isSome_iff⟩
      · exact (keeps_applyFilterCoefficient st 1).tables
      · show st.card ≤ if (st.forTables _).card * 1 < 1 then 1 else (st.forTables _).card * 1
        rw [forTables_card, mul_one]
        split
        · next h => exact h.le
        · exact le_rfl
      · have hds : (st.applyFilterCoefficient 1).dsOf t = filterDs 1 (st.dsOf t) :=
          dsOf_forTables _ hk ht
        have hbuckets : (st.dsOf t).buckets.map (filterBucket 1) = (st.dsOf t).buckets := by
          refine (List.map_congr_left fun b hb => ?_).trans (List.map_id _)
          show (if b.maxDegree * 1 < 1 then _ else ⟨b.maxDegree * 1, b.count⟩) = b
          rw [mul_one, if_neg (not_lt.mpr (h1 b hb))]
        rw [hds, filterDs, hbuckets]

/-! ## The merge of two classes -/

section

omit [IsStrictOrderedRing K]

theorem mergePair_two {merged other : DSStatistic K} (hshare : canMerge A B = true)
    (hmerge : sm.mergeRoots st1 st2 (getCommonRelation A B) = .ok (merged, other)) :
    sm.mergePair { parent := [0, 1], attrEsets := [A, B], dsStats := [st1, st2] } (0, 1) =
      .ok { parent := [0, 0], attrEsets := [A.union B, B], dsStats := [merged, other] } := by
  set s : MergeLoop K := { parent := [0, 1], attrEsets := [A, B], dsStats := [st1, st2] } with hs
  have hroots : ¬s.root 0 = s.root 1 := zero_ne_one
  unfold mergePair
  show (if canMerge A B = true then _ else _) = _
  rw [if_pos hshare]
  show (if s.root 0 = s.root 1 then _ else _) = _
  rw [if_neg hroots]
  show (sm.mergeRoots st1 st2 (getCommonRelation A B) >>= _) = _
  rw [hmerge]
  rfl

/-- The estimate of two classes is the cardinality of their merge. -/
theorem estimateFromStats_two {new1 new2 merged other : DSStatistic K}
    (h1 : sm.classStatistics A = .ok st1) (h2 : sm.classStatistics B = .ok st2)
    (hf1 : filterClass pow sort sm A st1 = .ok new1) (hf2 : filterClass pow sort sm B st2 = .ok new2)
    (hshare : canMerge A B = true)
    (hmerge : sm.mergeRoots new1 new2 (getCommonRelation A B) = .ok (merged, other)) :
    estimateFromStats pow sort sm [A, B] = .ok merged.card := by
  have hst : [A, B].mapM sm.classStatistics = .ok [st1, st2] := by
    rw [List.mapM_cons, List.mapM_cons, h1, h2]
    rfl
  have hnew : ([A, B].zip [st1, st2]).mapM (fun c => filterClass pow sort sm c.1 c.2) =
      .ok [new1, new2] := by
    rw [List.zip_cons_cons, List.zip_cons_cons, List.mapM_cons, List.mapM_cons, hf1, hf2]
    rfl
  have hloop : (classPairs 2).foldlM sm.mergePair
      { parent := [0, 1], attrEsets := [A, B], dsStats := [new1, new2] } =
      .ok { parent := [0, 0], attrEsets := [A.union B, B], dsStats := [merged, other] } := by
    have hpairs : classPairs 2 = [(0, 1)] := by decide
    rw [hpairs, List.foldlM_cons, mergePair_two hshare hmerge]
    rfl
  have hcard : ({ parent := [0, 0], attrEsets := [A.union B, B], dsStats := [merged, other] } :
      MergeLoop K).card = merged.card := mul_one merged.card
  exact bind_eq_ok.mpr ⟨_, hst, bind_eq_ok.mpr ⟨_, hnew, bind_eq_ok.mpr ⟨_, hloop,
    congrArg Except.ok hcard⟩⟩⟩

end

/-- Two adjusted statistics merged at a table of both; they may have others in common. -/
theorem mergeRoots_ok {rel : ℕ} (hk1 : st1.Keyed) (hk2 : st2.Keyed)
    (hmem1 : toString rel ∈ st1.tables) (hmem2 : toString rel ∈ st2.tables)
    (hndv1 : ∀ u ∈ st1.tables, (sm.relNDV.find? u).isSome)
    (hndv2 : ∀ u ∈ st2.tables, (sm.relNDV.find? u).isSome)
    (hc1 : ∀ b ∈ ((st1.ready sm.relNDV sm.adjustRate).dsOf (toString rel)).buckets, 0 ≤ b.count)
    (hc2 : ∀ b ∈ ((st2.ready sm.relNDV sm.adjustRate).dsOf (toString rel)).buckets, 0 ≤ b.count) :
    ∃ merged, sm.mergeRoots st1 st2 rel = .ok (merged, st2.ready sm.relNDV sm.adjustRate) ∧
      merged.card = (spread (products (alignRuns
        ((st1.ready sm.relNDV sm.adjustRate).dsOf (toString rel))
        ((st2.ready sm.relNDV sm.adjustRate).dsOf (toString rel))))).sum := by
  have hfull : ∀ {s : DSStatistic K}, s.Keyed → (s.ready sm.relNDV sm.adjustRate).Full :=
    fun hk u hu => ((hk.ready _ _).isSome_iff u).mpr hu
  obtain ⟨merged, hok, -, -, -, hcard⟩ := merge_full (t := toString rel) (hfull hk1) (hfull hk2)
    (by rwa [ready_tables]) (by rwa [ready_tables])
  have hadjust : ∀ {s : DSStatistic K}, (∀ u ∈ s.tables, (sm.relNDV.find? u).isSome) →
      s.adjustToAverage sm.relNDV sm.adjustRate =
        .ok (s.averaged sm.relNDV sm.adjustRate).limitAllDsToCard := fun h =>
    adjustToAverage_eq_ok.mpr ⟨h, rfl⟩
  refine ⟨merged, ?_, hcard.trans (sum_products (alignRuns_count_nonneg hc1 hc2))⟩
  exact bind_eq_ok.mpr ⟨_, hadjust hndv1, bind_eq_ok.mpr ⟨_, hadjust hndv2, bind_eq_ok.mpr ⟨merged, hok, rfl⟩⟩⟩

/-! ## The estimate -/

theorem pairwise_rels (A : AttrEset) : (AttrEset.rels A).Pairwise (· ≤ ·) :=
  List.pairwise_map.mpr (A.sorted.imp fun h => Prod.Lex.monotone_fst _ _ h.le)

/-- Two classes merge at the first relation that they share. -/
theorem getCommonRelation_of_first {R : ℕ} (hA : ∃ a ∈ A, (ofLex a).1 = R)
    (hB : ∃ b ∈ B, (ofLex b).1 = R)
    (hfirst : ∀ a ∈ A, ∀ b ∈ B, (ofLex a).1 = (ofLex b).1 → R ≤ (ofLex a).1) :
    canMerge A B = true ∧ getCommonRelation A B = R := by
  have hin : R ∈ AttrEset.rels A ∧ R ∈ AttrEset.rels B := ⟨mem_rels.mpr hA, mem_rels.mpr hB⟩
  constructor
  · exact List.any_eq_true.mpr ⟨R, hin.1, by simpa using hin.2⟩
  · unfold getCommonRelation
    cases hfind : (AttrEset.rels A).find? fun r => r ∈ AttrEset.rels B with
    | none =>
      have := List.find?_eq_none.mp hfind R hin.1
      simp [hin.2] at this
    | some r =>
      obtain ⟨hr, before, after, hsplit, hbefore⟩ := List.find?_eq_some_iff_append.mp hfind
      have hsorted := pairwise_rels A
      have hmemA : r ∈ AttrEset.rels A := List.mem_of_find?_eq_some hfind
      obtain ⟨a, ha, rfl⟩ := mem_rels.mp hmemA
      obtain ⟨b, hb, hab⟩ := mem_rels.mp (by simpa using hr)
      -- `R` is shared, so that it does not stand before the relation found
      have hle : (ofLex a).1 ≤ R := by
        have hRA := hin.1
        rw [hsplit] at hRA hsorted
        rcases List.mem_append.mp hRA with hR | hR
        · have := hbefore R hR
          simp [hin.2] at this
        · rcases List.mem_cons.mp hR with rfl | hR
          · exact le_rfl
          · exact (List.pairwise_cons.mp (List.pairwise_append.mp hsorted).2.1).1 R hR
      exact le_antisymm hle (hfirst a ha b hb hab.symm)

/-- What a class of the query brings to the merge at its relation `R`. -/
theorem exists_spreadable (pow : K → K → K) (sort : Sorting K) (h0 : sm0.statistics = ∅)
    (hcol : collectStatistics pow db sm0 esets = .ok sm1) (hq : Session sm1 sm)
    (hopt : sm.enableStarSplit = sm0.enableStarSplit ∧ sm.maxStarSize = sm0.maxStarSize)
    (hM : sm.enableStarSplit = true → 3 ≤ sm.maxStarSize) (hnamed : sm.Named A)
    (hd : sm.DistinctTables A) {star : DSStatistic K}
    (hstar : sm.statistics.find? (sm.columnsOf A) = some star)
    (hf : ∀ a ∈ A, sm.filterString.find? (ofLex a).1 = some "") {aR : Attribute} (haR : aR ∈ A)
    {N : ℤ} (hN : sm.getNDV (sm.tableOf aR) = .ok N)
    (hlen : (star.dsOf (sm.tableOf aR)).getNDV ≤ N) :
    ∃ st new, sm.classStatistics A = .ok st ∧ filterClass pow sort sm A st = .ok new ∧ new.Keyed ∧
      (∀ u ∈ new.tables, (sm.relNDV.find? u).isSome) ∧
      toString (ofLex aR).1 ∈ new.tables ∧ sm.relNDV.find? (toString (ofLex aR).1) = some N ∧
      Spreadable new.card N (new.dsOf (toString (ofLex aR).1)) ∧
      (expand (new.dsOf (toString (ofLex aR).1)).buckets).sum = star.card := by
  obtain ⟨hexact, htables, st, hclass, hkeyed, hcard, hrels, hds⟩ :=
    classStatistics_whole h0 hcol hq hopt hM ⟨aR, haR⟩ hnamed hd hstar
  obtain ⟨new, hnew, hkn, htn, hcn, hdn⟩ := filterClass_unfiltered pow sort hkeyed hf
  obtain ⟨hmemR, hdsR⟩ := hds aR haR
  have hmemT : sm.tableOf aR ∈ star.tables := by
    rw [htables]
    exact mem_getTableList_columnsOf.mpr ⟨aR, haR, rfl⟩
  have hwhole := hexact.whole _ hmemT
  have hdsN : new.dsOf (toString (ofLex aR).1) = star.dsOf (sm.tableOf aR) := by
    rw [← hdsR]
    exact hdn _ hmemR fun b hb => (hwhole.whole b (hdsR ▸ hb)).2.1
  have hname : ∀ a ∈ A, ∃ table, sm.tableName.find? (ofLex a).1 = some table ∧
      sm.tableOf a = table := fun a ha => by
    obtain ⟨table, htable⟩ := Option.isSome_iff_exists.mp (hnamed a ha).1
    exact ⟨table, htable, by rw [tableOf, htable]; rfl⟩
  have hsum := hexact.sum_eq hmemT
  refine ⟨st, new, hclass, hnew, hkn, fun u hu => ?_, htn ▸ hmemR, ?_, ?_, by rw [hdsN, hsum]⟩
  · rw [htn] at hu
    obtain ⟨a, ha, rfl⟩ := hrels u hu
    obtain ⟨table, htable, -⟩ := hname a ha
    obtain ⟨n, hn, -⟩ := hq.ndv htable
    rw [hn]
    rfl
  · obtain ⟨table, htable, heq⟩ := hname aR haR
    obtain ⟨n, hn, hget⟩ := hq.ndv htable
    rw [heq] at hN
    obtain rfl := Except.ok.inj (hget.symm.trans hN)
    exact hn
  · rw [hdsN]
    refine ⟨hwhole.descending, fun b hb => ?_, ?_, hlen⟩
    · exact zero_lt_one.trans_le (hwhole.whole b hb).2.2
    · rw [hsum, ← hcard]
      exact hcn

/-- The estimate of an unfiltered query with two classes is at least the product of the rows of
both stars over the rows of `R`, the first relation that the classes share. -/
theorem independence_le_estimateCardinality (h0 : sm0.statistics = ∅)
    (hcol : collectStatistics pow db sm0 esets = .ok sm1) (hq : Session sm1 sm)
    (hopt : sm.enableStarSplit = sm0.enableStarSplit ∧ sm.maxStarSize = sm0.maxStarSize)
    (hM : sm.enableStarSplit = true → 3 ≤ sm.maxStarSize) (hsub : sm.useSubqueryCard = false)
    {rels : List ℕ} (htwo : sm.getAttrEsetFromRels rels = [A, B])
    (hf : ∀ rel ∈ rels, sm.filterString.find? rel = some "")
    (hnamed1 : sm.Named A) (hnamed2 : sm.Named B) (hd1 : sm.DistinctTables A)
    (hd2 : sm.DistinctTables B)
    (hstar1 : sm.statistics.find? (sm.columnsOf A) = some star1)
    (hstar2 : sm.statistics.find? (sm.columnsOf B) = some star2) {R : ℕ}
    (hRA : ∃ a ∈ A, (ofLex a).1 = R) (hRB : ∃ b ∈ B, (ofLex b).1 = R)
    (hfirst : ∀ a ∈ A, ∀ b ∈ B, (ofLex a).1 = (ofLex b).1 → R ≤ (ofLex a).1) {table : Table}
    (htable : sm.tableName.find? R = some table) {N : ℤ} (hN : sm.getNDV table = .ok N)
    (h1 : 1 ≤ N) (hlen1 : (star1.dsOf table).getNDV ≤ N) (hlen2 : (star2.dsOf table).getNDV ≤ N)
    (hk0 : 0 ≤ sm.adjustRate) (hk1 : sm.adjustRate ≤ 1) :
    ∃ est, estimateCardinality pow sort sm rels = .ok est ∧
      star1.card * star2.card / (N : K) ≤ est := by
  obtain ⟨hshare, hcommon⟩ := getCommonRelation_of_first hRA hRB hfirst
  obtain ⟨a, ha, hra⟩ := hRA
  obtain ⟨b, hb, hrb⟩ := hRB
  have hta : sm.tableOf a = table := by rw [tableOf, hra, htable]; rfl
  have htb : sm.tableOf b = table := by rw [tableOf, hrb, htable]; rfl
  have hmem : ∀ E ∈ [A, B], ∀ c ∈ E, (ofLex c).1 ∈ rels := fun E hE c hc =>
    rel_mem_of_getAttrEsetFromRels (by rw [htwo]; exact hE) hc
  obtain ⟨st1, new1, hclass1, hnew1, hkn1, htn1, hmem1, hndv, hs1, hsum1⟩ :=
    exists_spreadable pow sort h0 hcol hq hopt hM hnamed1 hd1 hstar1
      (fun c hc => hf _ (hmem A (.head _) c hc)) ha (by rw [hta]; exact hN)
      (by rw [hta]; exact hlen1)
  obtain ⟨st2, new2, hclass2, hnew2, hkn2, htn2, hmem2, -, hs2, hsum2⟩ :=
    exists_spreadable pow sort h0 hcol hq hopt hM hnamed2 hd2 hstar2
      (fun c hc => hf _ (hmem B (.tail _ (.head _)) c hc)) hb (by rw [htb]; exact hN)
      (by rw [htb]; exact hlen2)
  rw [hra] at hmem1 hndv hs1 hsum1
  rw [hrb] at hmem2 hs2 hsum2
  have hready1 := dsOf_ready hkn1 hmem1 hndv h1 hs1 hk0 hk1
  have hready2 := dsOf_ready hkn2 hmem2 hndv h1 hs2 hk0 hk1
  obtain ⟨merged, hmerge, hcard⟩ := mergeRoots_ok hkn1 hkn2 hmem1 hmem2
    (fun u hu => htn1 u hu) (fun u hu => htn2 u hu)
    (by rw [hready1]; exact (readyDs_descending hs1 h1 hk0 hk1).count_nonneg)
    (by rw [hready2]; exact (readyDs_descending hs2 h1 hk0 hk1).count_nonneg)
  rw [← hcommon] at hmerge
  have hfilters : ∀ rel ∈ rels, (sm.filterString.find? rel).isSome := fun rel hrel => by
    rw [hf rel hrel]
    rfl
  have hnamed : ∀ E ∈ sm.getAttrEsetFromRels rels, sm.Named E := by
    intro E hE
    rw [htwo] at hE
    rcases List.mem_pair.mp hE with rfl | rfl
    · exact hnamed1
    · exact hnamed2
  refine ⟨merged.card, ?_, ?_⟩
  · rw [estimateCardinality_eq pow sort hsub hfilters hnamed, htwo]
    exact estimateFromStats_two hclass1 hclass2 hnew1 hnew2 hshare hmerge
  · rw [hcard, hready1, hready2, ← hsum1, ← hsum2]
    exact uniform_le_products hs1 hs2 h1 hk0 hk1

/-! ## Two pairs with a table in common -/

section Example

/-- Three rows in `u`, two in the tables it is joined with. -/
def chainRows : Database ℕ := fun table =>
  if table = "u" then [1, 1, 2].map fun key column => some (if column = "x" then key else 3 - key)
  else [1, 2].map fun key _ => some key

def leftPair : EqualSet := ⟨.ofList [⟨"t", "x"⟩, ⟨"u", "x"⟩]⟩

def rightPair : EqualSet := ⟨.ofList [⟨"u", "y"⟩, ⟨"v", "y"⟩]⟩

def leftAttrs : AttrEset := .ofList [toLex (0, 0), toLex (1, 0)]

def rightAttrs : AttrEset := .ofList [toLex (1, 1), toLex (2, 0)]

/-- `t.x = u.x` and `u.y = v.y`. -/
def chainQuery : Except Error (StatisticManager ℚ × StatisticManager ℚ) := do
  let sm1 ← collectStatistics (fun x _ => x) chainRows initial [leftPair, rightPair]
  let sm ← sm1.enterQuery [("t", ["x"], 2), ("u", ["x", "y"], 3), ("v", ["y"], 2)]
    (.ofKeys [0, 1, 2] fun _ => "") [⟨0, 1, 0, 0⟩, ⟨1, 2, 1, 0⟩]
  pure (sm1, sm)

theorem independence_le_estimateCardinality_chain :
    ∃ (sm1 sm : StatisticManager ℚ) (star1 star2 : DSStatistic ℚ),
    collectStatistics (fun x _ => x) chainRows initial [leftPair, rightPair] = .ok sm1 ∧
    Session sm1 sm ∧ sm.statistics.find? leftPair = some star1 ∧
    sm.statistics.find? rightPair = some star2 ∧ star1.card = 3 ∧ star2.card = 3 ∧
    ∃ est, estimateCardinality (fun x _ => x) .stable sm [0, 1, 2] = .ok est ∧
      star1.card * star2.card / ((3 : ℤ) : ℚ) ≤ est := by
  have hrun : (do
      let s ← chainQuery
      pure (decide (((s.2.enableStarSplit = false ∧ s.2.maxStarSize = 3) ∧
        s.2.useSubqueryCard = false) ∧
        (s.2.getAttrEsetFromRels [0, 1, 2] = [leftAttrs, rightAttrs] ∧
          ∀ rel ∈ [0, 1, 2], s.2.filterString.find? rel = some "") ∧
        (∀ a ∈ leftAttrs.toList ++ rightAttrs.toList, (s.2.tableName.find? (ofLex a).1).isSome ∧
          (s.2.columnName.find? a).isSome) ∧
        ((leftAttrs.toList.map s.2.tableOf).Nodup ∧ (rightAttrs.toList.map s.2.tableOf).Nodup ∧
          s.2.columnsOf leftAttrs = leftPair ∧ s.2.columnsOf rightAttrs = rightPair) ∧
        (s.2.tableName.find? 1 = some "u" ∧ s.2.getNDV "u" = Except.ok 3) ∧
        (0 ≤ s.2.adjustRate ∧ s.2.adjustRate ≤ 1) ∧
        (s.2.statistics.find? leftPair).map (fun star : DSStatistic ℚ =>
          (star.card, (star.dsOf "u").getNDV)) = some (3, 3) ∧
        (s.2.statistics.find? rightPair).map (fun star : DSStatistic ℚ =>
          (star.card, (star.dsOf "u").getNDV)) = some (3, 3)))) = .ok true := by
    decide +kernel
  obtain ⟨s, hs, hrun⟩ := bind_eq_ok.mp hrun
  obtain ⟨⟨hopt, hsub⟩, ⟨htwo, hf⟩, hnames, ⟨hd1, hd2, hcols1, hcols2⟩, ⟨htable, hN⟩,
    ⟨hk0, hk1⟩, hstar1, hstar2⟩ := of_decide_eq_true (Except.ok.inj hrun)
  obtain ⟨star1, hstar1, heq1⟩ := Option.map_eq_some_iff.mp hstar1
  obtain ⟨hcard1, hlen1⟩ := Prod.mk.inj heq1
  obtain ⟨star2, hstar2, heq2⟩ := Option.map_eq_some_iff.mp hstar2
  obtain ⟨hcard2, hlen2⟩ := Prod.mk.inj heq2
  obtain ⟨sm1, hcol, hs⟩ := bind_eq_ok.mp hs
  obtain ⟨sm, henter, hs⟩ := bind_eq_ok.mp hs
  obtain rfl := Except.ok.inj hs
  refine ⟨sm1, sm, star1, star2, hcol, session_enterQuery henter, hstar1, hstar2, hcard1, hcard2, ?_⟩
  refine independence_le_estimateCardinality rfl hcol (session_enterQuery henter) hopt
    (fun h => absurd (h.symm.trans hopt.1) (by decide)) hsub htwo hf
    (fun a ha => ⟨(hnames a (List.mem_append_left _ ha)).1, fun _ =>
      (hnames a (List.mem_append_left _ ha)).2⟩)
    (fun a ha => ⟨(hnames a (List.mem_append_right _ ha)).1, fun _ =>
      (hnames a (List.mem_append_right _ ha)).2⟩)
    hd1 hd2 (hcols1 ▸ hstar1) (hcols2 ▸ hstar2) (R := 1) ⟨toLex (1, 0), by decide, rfl⟩
    ⟨toLex (1, 1), by decide, rfl⟩ (by decide) htable hN (by decide) hlen1.le hlen2.le hk0 hk1

/-- One row in `r`, four in `s`, all of one key. -/
def oneKeyRows : Database ℕ := fun table =>
  if table = "r" then [fun _ => some 1] else List.replicate 4 fun _ => some 1

def pairOn (column : String) : EqualSet := ⟨.ofList [⟨"r", column⟩, ⟨"s", column⟩]⟩

def attrsOn (column : ℕ) : AttrEset := .ofList [toLex (0, column), toLex (1, column)]

/-- `s.x = r.x` and `s.y = r.y`. -/
def twiceJoined : Except Error (StatisticManager ℚ × StatisticManager ℚ) := do
  let sm1 ← collectStatistics (fun x _ => x) oneKeyRows initial [pairOn "x", pairOn "y"]
  let sm ← sm1.enterQuery [("s", ["x", "y"], 4), ("r", ["x", "y"], 1)]
    (.ofKeys [0, 1] fun _ => "") [⟨0, 1, 0, 0⟩, ⟨0, 1, 1, 1⟩]
  pure (sm1, sm)

/-- Both classes are of `r` and `s`, and merge at `s`: the one row of `r` gives 16, the estimate
is 4. -/
theorem estimateCardinality_twiceJoined :
    ∃ (sm1 sm : StatisticManager ℚ) (star1 star2 : DSStatistic ℚ),
    collectStatistics (fun x _ => x) oneKeyRows initial [pairOn "x", pairOn "y"] = .ok sm1 ∧
    Session sm1 sm ∧ sm.getAttrEsetFromRels [0, 1] = [attrsOn 0, attrsOn 1] ∧
    (∀ rel ∈ [0, 1], sm.filterString.find? rel = some "") ∧
    sm.DistinctTables (attrsOn 0) ∧ sm.DistinctTables (attrsOn 1) ∧
    sm.statistics.find? (sm.columnsOf (attrsOn 0)) = some star1 ∧
    sm.statistics.find? (sm.columnsOf (attrsOn 1)) = some star2 ∧
    (∃ a ∈ attrsOn 0, (ofLex a).1 = 1) ∧ (∃ b ∈ attrsOn 1, (ofLex b).1 = 1) ∧
    sm.tableName.find? 1 = some "r" ∧ sm.getNDV "r" = .ok 1 ∧
    (star1.dsOf "r").getNDV ≤ 1 ∧ (star2.dsOf "r").getNDV ≤ 1 ∧
    0 ≤ sm.adjustRate ∧ sm.adjustRate ≤ 1 ∧ 1 < sm.compressPrecision ∧
    estimateCardinality (fun x _ => x) .stable sm [0, 1] = .ok 4 ∧
    ¬star1.card * star2.card / ((1 : ℤ) : ℚ) ≤ 4 := by
  have hrun : (do
      let s ← twiceJoined
      let est ← estimateCardinality (fun x _ => x) .stable s.2 [0, 1]
      pure (decide ((s.2.getAttrEsetFromRels [0, 1] = [attrsOn 0, attrsOn 1] ∧
          ∀ rel ∈ ([0, 1] : List ℕ), s.2.filterString.find? rel = some "") ∧ est = 4 ∧
        (∀ c ∈ ([0, 1] : List ℕ), ((attrsOn c).toList.map s.2.tableOf).Nodup ∧
          (s.2.statistics.find? (s.2.columnsOf (attrsOn c))).map (fun star : DSStatistic ℚ =>
            (star.card, (star.dsOf "r").getNDV)) = some (4, 1)) ∧
        (s.2.tableName.find? 1 = some "r" ∧ s.2.getNDV "r" = Except.ok 1) ∧
        (0 ≤ s.2.adjustRate ∧ s.2.adjustRate ≤ 1) ∧ 1 < s.2.compressPrecision))) = .ok true := by
    decide +kernel
  obtain ⟨s, hs, hrun⟩ := bind_eq_ok.mp hrun
  obtain ⟨est, hest, hrun⟩ := bind_eq_ok.mp hrun
  obtain ⟨⟨htwo, hf⟩, rfl, hclasses, ⟨htable, hN⟩, ⟨hk0, hk1⟩, hp⟩ :=
    of_decide_eq_true (Except.ok.inj hrun)
  obtain ⟨hd1, hstar1⟩ := hclasses 0 (.head _)
  obtain ⟨hd2, hstar2⟩ := hclasses 1 (.tail _ (.head _))
  obtain ⟨star1, hstar1, heq1⟩ := Option.map_eq_some_iff.mp hstar1
  obtain ⟨hcard1, hlen1⟩ := Prod.mk.inj heq1
  obtain ⟨star2, hstar2, heq2⟩ := Option.map_eq_some_iff.mp hstar2
  obtain ⟨hcard2, hlen2⟩ := Prod.mk.inj heq2
  obtain ⟨sm1, hcol, hs⟩ := bind_eq_ok.mp hs
  obtain ⟨sm, henter, hs⟩ := bind_eq_ok.mp hs
  obtain rfl := Except.ok.inj hs
  refine ⟨sm1, sm, star1, star2, hcol, session_enterQuery henter, htwo, hf, hd1, hd2, hstar1,
    hstar2, ⟨toLex (1, 0), by decide, rfl⟩, ⟨toLex (1, 1), by decide, rfl⟩, htable, hN, hlen1.le,
    hlen2.le, hk0, hk1, hp, hest, ?_⟩
  rw [hcard1, hcard2]
  norm_num

end Example

end StatisticManager

end StarCE
