import StarCE.Data.Loop
import StarCE.Stat.Align
import StarCE.Stat.Tables

/-!
# Merging two statistics

Two statistics with one common table are merged table by table: the common
table collects the rank-wise products (`products`), every other table what its
tuples receive of the rows of the ranks, in order (`edgeCalls`). `merge`
succeeds and leaves these compressed and cut at the new cardinality
(`merge_ok`).
-/

namespace StarCE

variable {K : Type} [Field K] [LinearOrder K] [FloorRing K]

/-- The rows of the left operand that the ranks of the runs bring, with their weight. -/
def leftFeed (runs : List (Run K)) : List (K × K) :=
  runs.map fun r => (r.degree1 * (r.count : K), r.degree2)

def rightFeed (runs : List (Run K)) : List (K × K) :=
  runs.map fun r => (r.degree2 * (r.count : K), r.degree1)

section

omit [LinearOrder K] [FloorRing K]

theorem leftFeed_append (runs : List (Run K)) (r : Run K) :
    leftFeed (runs ++ [r]) = leftFeed runs ++ [(r.degree1 * (r.count : K), r.degree2)] := by
  simp [leftFeed]

theorem rightFeed_append (runs : List (Run K)) (r : Run K) :
    rightFeed (runs ++ [r]) = rightFeed runs ++ [(r.degree2 * (r.count : K), r.degree1)] := by
  simp [rightFeed]

theorem leftFeed_swap (runs : List (Run K)) : leftFeed (runs.map Run.swap) = rightFeed runs := by
  rw [leftFeed, rightFeed, List.map_map]
  rfl

theorem rightFeed_eq (ds1 ds2 : DegreeSequence K) :
    rightFeed (alignRuns ds1 ds2) = leftFeed (alignRuns ds2 ds1) := by
  rw [alignRuns_comm ds1 ds2, leftFeed_swap]

end

/-- The state of one table after a feed, and the calls made on its new sequence. -/
def feedFrom (eps : K) (oldDs : DegreeSequence K) (s : EdgeState K × List (K × ℤ))
    (feed : List (K × K)) : EdgeState K × List (K × ℤ) :=
  feed.foldl (fun s x =>
    ((edgeStep eps x.2 oldDs x.1 s.1).1, s.2 ++ (edgeStep eps x.2 oldDs x.1 s.1).2)) s

def feedRun (eps : K) (oldDs : DegreeSequence K) (feed : List (K × K)) :
    EdgeState K × List (K × ℤ) := feedFrom eps oldDs (.init, []) feed

/-- All calls made on the new sequence of a table. -/
def edgeCalls (eps : K) (oldDs : DegreeSequence K) (feed : List (K × K)) : List (K × ℤ) :=
  (feedRun eps oldDs feed).2 ++ [((feedRun eps oldDs feed).1.curDegree, 1)]

theorem feedRun_append (eps : K) (oldDs : DegreeSequence K) (feed : List (K × K)) (x : K × K) :
    feedRun eps oldDs (feed ++ [x]) =
      ((edgeStep eps x.2 oldDs x.1 (feedRun eps oldDs feed).1).1,
        (feedRun eps oldDs feed).2 ++ (edgeStep eps x.2 oldDs x.1 (feedRun eps oldDs feed).1).2) := by
  rw [feedRun, feedFrom, List.foldl_append]; rfl

namespace DSStatistic

variable {st other old new : DSStatistic K} {t u : Table}

/-! ## The tables of the result -/

section

omit [Field K] [LinearOrder K] [FloorRing K]

theorem mem_edgeTables : u ∈ st.edgeTables t ↔ u ∈ st.tables ∧ u ≠ t := by
  simp [edgeTables]

theorem Keyed.nodup_edgeTables (h : st.Keyed) : (st.edgeTables t).Nodup := h.nodup.filter _

end

theorem mergeTables_eq {l l' : List Table} (hl' : l'.Nodup) :
    mergeTables l l' = l ++ l'.filter fun t => t ∉ l := by
  induction l' generalizing l with
  | nil => simp [mergeTables]
  | cons t l' ih =>
    obtain ⟨ht, hl'⟩ := List.nodup_cons.mp hl'
    rw [mergeTables, List.foldl_cons, ← mergeTables, ih hl']
    by_cases hm : t ∈ l
    · simp [hm]
    · rw [if_neg hm, List.append_assoc, List.singleton_append, List.filter_cons_of_pos (by simpa)]
      congr 2
      refine List.filter_congr fun u hu => ?_
      have : u ≠ t := fun h => ht (h ▸ hu)
      simp [this]

/-- The two operands have exactly the merge table in common. -/
structure Mergeable (st other : DSStatistic K) (t : Table) : Prop where
  left : st.Keyed
  right : other.Keyed
  mem_left : t ∈ st.tables
  mem_right : t ∈ other.tables
  common : ∀ u ∈ st.tables, u ∈ other.tables → u = t

section

omit [Field K] [LinearOrder K] [FloorRing K]

theorem Mergeable.tables (h : Mergeable st other t) :
    mergeTables st.tables other.tables = st.tables ++ other.edgeTables t := by
  rw [mergeTables_eq h.right.nodup, edgeTables]
  congr 1
  refine List.filter_congr fun u hu => ?_
  by_cases hu' : u = t
  · subst hu'; simp [h.mem_left]
  · have : u ∉ st.tables := fun hm => hu' (h.common u hm hu)
    simp [hu', this]

theorem Mergeable.nodup (h : Mergeable st other t) :
    (st.tables ++ other.edgeTables t).Nodup := by
  refine List.nodup_append.mpr ⟨h.left.nodup, h.right.nodup_edgeTables, fun a ha b hb => ?_⟩
  obtain ⟨hb, hbt⟩ := mem_edgeTables.mp hb
  rintro rfl
  exact hbt (h.common _ ha hb)

end

/-! ## One step -/

theorem mergeEdge_eq {rows degree : K} {tables : List Table} (E : Table → EdgeState K)
    (h : ∀ u ∈ tables, old.ds.lookup u = .ok (old.dsOf u)) :
    mergeEdgeDegreeSequences old rows degree tables (tables.map E) new = .ok
      (onTables (fun u ds => ds.addDegrees (edgeStep rowEps degree (old.dsOf u) rows (E u)).2
        new.precision) new tables,
      tables.map fun u => (edgeStep rowEps degree (old.dsOf u) rows (E u)).1) := by
  induction tables generalizing new with
  | nil => rfl
  | cons u l ih =>
    rw [List.map_cons, mergeEdgeDegreeSequences, h u (.head _)]
    simp only [bind, Except.bind, ih fun w hw => h w (.tail _ hw)]
    rfl

theorem addCurDegree_eq {tables : List Table} (E : Table → EdgeState K) :
    addCurDegree tables (tables.map E) new =
      onTables (fun u ds => ds.addDegree (E u).curDegree 1 new.precision) new tables := by
  induction tables generalizing new with
  | nil => rfl
  | cons u l ih =>
    rw [List.map_cons, addCurDegree, ih]
    rfl

/-- The loop of `merge` after the runs `l`. -/
structure Merging (st other : DSStatistic K) (t : Table) (l : List (Run K)) (s : MergeState K) :
    Prop where
  keyed : s.newStat.Keyed
  tables : s.newStat.tables = st.tables ++ other.edgeTables t
  precision : s.newStat.precision = st.precision
  central : s.newStat.centralDs = ∅
  edges1 : s.edges1 = (st.edgeTables t).map fun u => (feedRun rowEps (st.dsOf u) (leftFeed l)).1
  edges2 : s.edges2 =
    (other.edgeTables t).map fun u => (feedRun rowEps (other.dsOf u) (rightFeed l)).1
  newCard : s.newCard = (spread (products l)).sum
  mergeDs : s.newStat.dsOf t = (∅ : DegreeSequence K).addDegrees (products l) st.precision
  leftDs : ∀ u ∈ st.edgeTables t, s.newStat.dsOf u = (∅ : DegreeSequence K).addDegrees
    (feedRun rowEps (st.dsOf u) (leftFeed l)).2 st.precision
  rightDs : ∀ u ∈ other.edgeTables t, s.newStat.dsOf u = (∅ : DegreeSequence K).addDegrees
    (feedRun rowEps (other.dsOf u) (rightFeed l)).2 st.precision

variable [IsStrictOrderedRing K] {l : List (Run K)} {s : MergeState K}

theorem Merging.step (hm : Mergeable st other t) (h : Merging st other t l s) {r : Run K}
    (hr : 0 ≤ r.count) :
    ∃ s', mergeRun st other t s r = .ok s' ∧ Merging st other t (l ++ [r]) s' := by
  have hlook1 : ∀ u ∈ st.edgeTables t, st.ds.lookup u = .ok (st.dsOf u) := fun u hu =>
    hm.left.lookup (mem_edgeTables.mp hu).1
  have hlook2 : ∀ u ∈ other.edgeTables t, other.ds.lookup u = .ok (other.dsOf u) := fun u hu =>
    hm.right.lookup (mem_edgeTables.mp hu).1
  have hdisj : ∀ u ∈ st.edgeTables t, u ∉ other.edgeTables t := fun u hu hu' =>
    (mem_edgeTables.mp hu).2 (hm.common u (mem_edgeTables.mp hu).1 (mem_edgeTables.mp hu').1)
  have htmem : t ∈ s.newStat.tables := by rw [h.tables]; exact List.mem_append_left _ hm.mem_left
  -- the three parts of the body: the merge table, the left tables, the right tables
  set f1 : Table → DegreeSequence K → DegreeSequence K := fun u ds => ds.addDegrees
    (edgeStep rowEps r.degree2 (st.dsOf u) (r.degree1 * (r.count : K))
      (feedRun rowEps (st.dsOf u) (leftFeed l)).1).2 st.precision with hf1
  set f2 : Table → DegreeSequence K → DegreeSequence K := fun u ds => ds.addDegrees
    (edgeStep rowEps r.degree1 (other.dsOf u) (r.degree2 * (r.count : K))
      (feedRun rowEps (other.dsOf u) (rightFeed l)).1).2 st.precision with hf2
  set new1 := s.newStat.setDs t ((s.newStat.dsOf t).addDegree (r.degree1 * r.degree2) r.count
    s.newStat.precision) with hnew1
  set new2 := onTables f1 new1 (st.edgeTables t) with hnew2
  set new3 := onTables f2 new2 (other.edgeTables t) with hnew3
  obtain ⟨ht2, -, hp2, hc2⟩ := onTables_fields f1 new1 (st.edgeTables t)
  obtain ⟨ht3, -, hp3, hc3⟩ := onTables_fields f2 new2 (other.edgeTables t)
  have hp1 : new1.precision = st.precision := h.precision
  have hp2' : new2.precision = st.precision := hp2.trans hp1
  have hrun : mergeRun st other t s r = .ok
      { newStat := new3
        edges1 := (st.edgeTables t).map fun u =>
          (feedRun rowEps (st.dsOf u) (leftFeed (l ++ [r]))).1
        edges2 := (other.edgeTables t).map fun u =>
          (feedRun rowEps (other.dsOf u) (rightFeed (l ++ [r]))).1
        newCard := s.newCard + (r.count : K) * r.degree1 * r.degree2 } := by
    simp only [mergeRun, h.edges1, h.edges2, bind, Except.bind]
    rw [← hnew1, mergeEdge_eq _ hlook1]
    simp only [hp1, ← hf1, ← hnew2]
    rw [mergeEdge_eq _ hlook2]
    simp only [hp2', ← hf2, ← hnew3, leftFeed_append, rightFeed_append, feedRun_append]
    rfl
  have k1 : new1.Keyed := h.keyed.setDs htmem _
  have hsub : ∀ u, u ∈ st.edgeTables t ∨ u ∈ other.edgeTables t → u ∈ new1.tables := by
    intro u hu
    rw [hnew1, setDs_tables, h.tables, List.mem_append]
    exact hu.imp_left fun hu => (mem_edgeTables.mp hu).1
  have k2 : new2.Keyed := k1.onTables f1 fun u hu => hsub u (.inl hu)
  have k3 : new3.Keyed := k2.onTables f2 fun u hu => ht2 ▸ hsub u (.inr hu)
  have hds : ∀ u, new3.dsOf u = if u ∈ other.edgeTables t then f2 u (new2.dsOf u)
      else new2.dsOf u := dsOf_onTables f2 hm.right.nodup_edgeTables
  have hds2 : ∀ u, new2.dsOf u = if u ∈ st.edgeTables t then f1 u (new1.dsOf u)
      else new1.dsOf u := dsOf_onTables f1 hm.left.nodup_edgeTables
  have hds1 : ∀ u, u ≠ t → new1.dsOf u = s.newStat.dsOf u := fun u hu => by
    rw [hnew1, dsOf_setDs, if_neg hu]
  have htl : t ∉ st.edgeTables t := fun hu => (mem_edgeTables.mp hu).2 rfl
  have htr : t ∉ other.edgeTables t := fun hu => (mem_edgeTables.mp hu).2 rfl
  refine ⟨_, hrun, ?_⟩
  exact {
    keyed := k3
    tables := ht3.trans (ht2.trans h.tables)
    precision := hp3.trans hp2'
    central := hc3.trans (hc2.trans h.central)
    edges1 := rfl
    edges2 := rfl
    newCard := by
      simp only [h.newCard, products, List.map_append, spread_append, List.sum_append,
        List.map_cons, List.map_nil, spread_cons, spread_nil, List.append_nil, List.sum_replicate,
        nsmul_eq_mul, toNat_cast hr, mul_assoc]
    mergeDs := by
      rw [hds, if_neg htr, hds2, if_neg htl, hnew1, dsOf_setDs, if_pos rfl, h.mergeDs, h.precision,
        products, products, List.map_append, DegreeSequence.addDegrees_append]
      rfl
    leftDs := fun u hu => by
      rw [hds, if_neg (hdisj u hu), hds2, if_pos hu, hds1 u (mem_edgeTables.mp hu).2,
        h.leftDs u hu, hf1, leftFeed_append, feedRun_append, DegreeSequence.addDegrees_append]
    rightDs := fun u hu => by
      rw [hds, if_pos hu, hds2, if_neg fun hu' => hdisj u hu' hu, hds1 u (mem_edgeTables.mp hu).2,
        h.rightDs u hu, hf2, rightFeed_append, feedRun_append, DegreeSequence.addDegrees_append] }

/-! ## The whole merge -/

/-- What is left of a collection cut twice at the cardinality, as `merge` does. -/
def cutTwice (p card : K) (calls : List (K × ℤ)) : DegreeSequence K :=
  limitDsToCard (limitDsToCard ⟨compress p calls, []⟩ card) card

/-- The result of `merge`. -/
structure Merged (st other : DSStatistic K) (t : Table) (new : DSStatistic K) : Prop where
  keyed : new.Keyed
  tables : new.tables = st.tables ++ other.edgeTables t
  precision : new.precision = st.precision
  card : new.card = (spread (products (alignRuns (st.dsOf t) (other.dsOf t)))).sum
  central : new.centralDs = ∅
  mergeDs : new.dsOf t =
    cutTwice st.precision new.card (products (alignRuns (st.dsOf t) (other.dsOf t)))
  leftDs : ∀ u ∈ st.edgeTables t, new.dsOf u = cutTwice st.precision new.card
    (edgeCalls rowEps (st.dsOf u) (leftFeed (alignRuns (st.dsOf t) (other.dsOf t))))
  rightDs : ∀ u ∈ other.edgeTables t, new.dsOf u = cutTwice st.precision new.card
    (edgeCalls rowEps (other.dsOf u) (rightFeed (alignRuns (st.dsOf t) (other.dsOf t))))

theorem merge_ok (hm : Mergeable st other t) (h1 : ∀ b ∈ (st.dsOf t).buckets, 0 ≤ b.count)
    (h2 : ∀ b ∈ (other.dsOf t).buckets, 0 ≤ b.count) :
    ∃ new, merge st other t = .ok new ∧ Merged st other t new := by
  set runs := alignRuns (st.dsOf t) (other.dsOf t) with hruns
  set init := (ofTables (mergeTables st.tables other.tables) st.precision : DSStatistic K)
    with hinit
  have htables : init.tables = st.tables ++ other.edgeTables t := hm.tables
  have htmem : t ∈ init.tables := by rw [htables]; exact List.mem_append_left _ hm.mem_left
  have kinit : init.Keyed := keyed_ofTables (hm.tables ▸ hm.nodup) _
  have hempty : ∀ u, (init.setDs t (init.dsOf t)).dsOf u = ∅ := fun u => by
    rw [dsOf_setDs]; split <;> exact dsOf_ofTables _ _ _
  have hrun : ∃ s, runs.foldlM (mergeRun st other t)
      { newStat := init.setDs t (init.dsOf t)
        edges1 := (st.edgeTables t).map fun _ => .init
        edges2 := (other.edgeTables t).map fun _ => .init
        newCard := 0 } = .ok s ∧ Merging st other t runs s := by
    refine foldlM_inv (Merging st other t) ?_ fun l r s hr h =>
      h.step hm (alignRuns_count_nonneg h1 h2 r hr)
    exact ⟨kinit.setDs htmem _, htables, rfl, rfl, rfl, rfl, rfl, hempty t, fun u _ => hempty u,
      fun u _ => hempty u⟩
  obtain ⟨s, hs, h⟩ := hrun
  set g1 : Table → DegreeSequence K → DegreeSequence K := fun u ds => ds.addDegree
    (feedRun rowEps (st.dsOf u) (leftFeed runs)).1.curDegree 1 st.precision with hg1
  set g2 : Table → DegreeSequence K → DegreeSequence K := fun u ds => ds.addDegree
    (feedRun rowEps (other.dsOf u) (rightFeed runs)).1.curDegree 1 st.precision with hg2
  set new1 := onTables g1 s.newStat (st.edgeTables t) with hnew1
  set new2 := onTables g2 new1 (other.edgeTables t) with hnew2
  obtain ⟨ht1, -, hp1, hc1⟩ := onTables_fields g1 s.newStat (st.edgeTables t)
  obtain ⟨ht2, -, hp2, hc2⟩ := onTables_fields g2 new1 (other.edgeTables t)
  have hp1' : new1.precision = st.precision := hp1.trans h.precision
  have ht1' : new1.tables = st.tables ++ other.edgeTables t := ht1.trans h.tables
  have ht2' : new2.tables = st.tables ++ other.edgeTables t := ht2.trans ht1'
  set last : DSStatistic K := { new2 with card := s.newCard } with hlast
  have hmerge : merge st other t = .ok last.finishCollection.limitAllDsToCard := by
    simp only [merge, hm.left.lookup hm.mem_left, hm.right.lookup hm.mem_right, bind, Except.bind]
    rw [← hinit, ← hruns, hs]
    simp only [h.edges1, h.edges2, addCurDegree_eq, h.precision, ← hg1, ← hnew1, hp1', ← hg2,
      ← hnew2, ← hlast]
    rfl
  have k1 : new1.Keyed := h.keyed.onTables g1 fun u hu => by
    rw [h.tables, List.mem_append]; exact .inl (mem_edgeTables.mp hu).1
  have k2 : new2.Keyed := k1.onTables g2 fun u hu => by
    rw [ht1', List.mem_append]; exact .inr hu
  have klast : last.Keyed := ⟨k2.nodup, k2.isSome_iff⟩
  have hds : ∀ u, last.dsOf u = if u ∈ other.edgeTables t then g2 u (new1.dsOf u)
      else new1.dsOf u := dsOf_onTables g2 hm.right.nodup_edgeTables
  have hds1 : ∀ u, new1.dsOf u = if u ∈ st.edgeTables t then g1 u (s.newStat.dsOf u)
      else s.newStat.dsOf u := dsOf_onTables g1 hm.left.nodup_edgeTables
  have hcut : ∀ u ∈ last.tables, ∀ calls, last.dsOf u = (∅ : DegreeSequence K).addDegrees calls
      st.precision → last.finishCollection.limitAllDsToCard.dsOf u =
        cutTwice st.precision s.newCard calls := by
    intro u hu calls he
    rw [dsOf_limitAllDsToCard klast.finishCollection (by simpa using hu),
      dsOf_finishCollection klast hu, he, finishCollection_eq_mk, finishCollection_card]
    rfl
  have htl : t ∉ st.edgeTables t := fun hu => (mem_edgeTables.mp hu).2 rfl
  have htr : t ∉ other.edgeTables t := fun hu => (mem_edgeTables.mp hu).2 rfl
  refine ⟨_, hmerge, ?_⟩
  exact {
    keyed := klast.finishCollection.limitAllDsToCard
    tables := by simpa using ht2'
    precision := by simpa using hp2.trans hp1'
    card := by simpa using h.newCard
    central := by
      rw [limitAllDsToCard_centralDs, finishCollection_centralDs,
        show last.centralDs = ∅ from hc2.trans (hc1.trans h.central)]
      rfl
    mergeDs := by
      rw [limitAllDsToCard_card, finishCollection_card]
      refine hcut t (by rw [hlast, ht2']; exact List.mem_append_left _ hm.mem_left) _ ?_
      rw [hds, if_neg htr, hds1, if_neg htl, h.mergeDs]
    leftDs := fun u hu => by
      obtain ⟨hu1, -⟩ := mem_edgeTables.mp hu
      have hur : u ∉ other.edgeTables t := fun hu' =>
        (mem_edgeTables.mp hu).2 (hm.common u hu1 (mem_edgeTables.mp hu').1)
      rw [limitAllDsToCard_card, finishCollection_card]
      refine hcut u (by rw [hlast, ht2']; exact List.mem_append_left _ hu1) _ ?_
      rw [hds, if_neg hur, hds1, if_pos hu, h.leftDs u hu, edgeCalls,
        DegreeSequence.addDegrees_append]
      rfl
    rightDs := fun u hu => by
      have hul : u ∉ st.edgeTables t := fun hu' =>
        (mem_edgeTables.mp hu).2 (hm.common u (mem_edgeTables.mp hu').1 (mem_edgeTables.mp hu).1)
      rw [limitAllDsToCard_card, finishCollection_card]
      refine hcut u (by rw [hlast, ht2']; exact List.mem_append_right _ hu) _ ?_
      rw [hds, if_pos hu, hds1, if_neg hul, h.rightDs u hu, edgeCalls,
        DegreeSequence.addDegrees_append]
      rfl }

/-! ## The order of the operands -/

section

omit [Field K] [LinearOrder K] [FloorRing K] [IsStrictOrderedRing K]

theorem Mergeable.symm (h : Mergeable st other t) : Mergeable other st t :=
  ⟨h.right, h.left, h.mem_right, h.mem_left, fun u h1 h2 => h.common u h2 h1⟩

theorem Keyed.ds_ext {st' : DSStatistic K} (h : st.Keyed) (h' : st'.Keyed)
    (htables : ∀ u, u ∈ st.tables ↔ u ∈ st'.tables) (hds : ∀ u ∈ st.tables, st.dsOf u = st'.dsOf u) :
    st.ds = st'.ds := by
  refine OrdMap.ext_find? fun u => ?_
  by_cases hu : u ∈ st.tables
  · obtain ⟨d, hd⟩ := Option.isSome_iff_exists.mp ((h.isSome_iff u).mpr hu)
    obtain ⟨d', hd'⟩ := Option.isSome_iff_exists.mp ((h'.isSome_iff u).mpr ((htables u).mp hu))
    simpa [dsOf, hd, hd'] using hds u hu
  · have h1 : st.ds.find? u = none := by simpa using mt (h.isSome_iff u).mp hu
    have h2 : st'.ds.find? u = none := by
      simpa using mt (h'.isSome_iff u).mp (mt (htables u).mpr hu)
    rw [h1, h2]

end

section

omit [IsStrictOrderedRing K]

theorem Merged.tables_perm {new' : DSStatistic K} (hm : Mergeable st other t)
    (h : Merged st other t new) (h' : Merged other st t new') : new.tables.Perm new'.tables := by
  refine (List.perm_ext_iff_of_nodup h.keyed.nodup h'.keyed.nodup).mpr fun u => ?_
  rw [h.tables, h'.tables, List.mem_append, List.mem_append, mem_edgeTables, mem_edgeTables]
  constructor
  all_goals
    rintro (hu | ⟨hu, -⟩)
    · by_cases hut : u = t
      · exact .inl (by rw [hut]; first | exact hm.mem_right | exact hm.mem_left)
      · exact .inr ⟨hu, hut⟩
    · exact .inl hu

/-- Both orders of a merge give the same cardinality and sequences. -/
theorem Merged.ds_eq {new' : DSStatistic K} (hm : Mergeable st other t)
    (hp : st.precision = other.precision) (h : Merged st other t new)
    (h' : Merged other st t new') : new.card = new'.card ∧ new.ds = new'.ds := by
  have hperm := h.tables_perm hm h'
  have hcard : new.card = new'.card := by
    rw [h.card, h'.card, alignRuns_comm (st.dsOf t), products_swap]
  refine ⟨hcard, h.keyed.ds_ext h'.keyed (fun u => hperm.mem_iff) fun u hu => ?_⟩
  rw [h.tables, List.mem_append] at hu
  by_cases hut : u = t
  · subst hut
    rw [h.mergeDs, h'.mergeDs, alignRuns_comm (st.dsOf u), products_swap, hcard, hp]
  · rcases hu with hu | hu
    · have hmem : u ∈ st.edgeTables t := mem_edgeTables.mpr ⟨hu, hut⟩
      rw [h.leftDs u hmem, h'.rightDs u hmem, rightFeed_eq, hcard, hp]
    · rw [h.rightDs u hu, h'.leftDs u hu, rightFeed_eq, hcard, hp]

end

/-- `merge` terminates and does not depend on the order of its operands, save for the order of
the tables. -/
theorem merge_comm (hm : Mergeable st other t) (hp : st.precision = other.precision)
    (h1 : ∀ u ∈ st.tables, ∀ b ∈ (st.dsOf u).buckets, 0 ≤ b.count)
    (h2 : ∀ u ∈ other.tables, ∀ b ∈ (other.dsOf u).buckets, 0 ≤ b.count) :
    AlignSteps 0 0 (st.dsOf t).buckets 0 0 (other.dsOf t).buckets
      (alignRuns (st.dsOf t) (other.dsOf t)) ∧
    AlignSteps 0 0 (other.dsOf t).buckets 0 0 (st.dsOf t).buckets
      (alignRuns (other.dsOf t) (st.dsOf t)) ∧
    ∃ new new', merge st other t = .ok new ∧ merge other st t = .ok new' ∧
      new.card = new'.card ∧ new.ds = new'.ds ∧ new.tables.Perm new'.tables ∧
      new.precision = new'.precision ∧ new.centralDs = new'.centralDs := by
  have hc1 := h1 t hm.mem_left
  have hc2 := h2 t hm.mem_right
  obtain ⟨new, hok, h⟩ := merge_ok hm hc1 hc2
  obtain ⟨new', hok', h'⟩ := merge_ok hm.symm hc2 hc1
  obtain ⟨hcard, hds⟩ := h.ds_eq hm hp h'
  exact ⟨alignRuns_steps hc1 hc2, alignRuns_steps hc2 hc1, new, new', hok, hok', hcard, hds,
    h.tables_perm hm h', by rw [h.precision, h'.precision, hp], by rw [h.central, h'.central]⟩

/-- Fractional degrees, and empty buckets on both sides. -/
theorem merge_comm_fractions :
    let st : DSStatistic ℚ := (ofTables ["a", "b"] 2).setDs "a" ⟨[⟨5 / 2, 1⟩, ⟨1 / 2, 0⟩], []⟩
    let other : DSStatistic ℚ := (ofTables ["a", "c"] 2).setDs "a" ⟨[⟨3 / 2, 0⟩, ⟨5 / 4, 2⟩], []⟩
    Mergeable st other "a" ∧ ∃ new new', merge st other "a" = .ok new ∧
      merge other st "a" = .ok new' ∧ new.card = new'.card ∧ new.ds = new'.ds := by
  intro st other
  have hm : Mergeable st other "a" :=
    ⟨(keyed_ofTables (by decide) 2).setDs (by decide) _,
      (keyed_ofTables (by decide) 2).setDs (by decide) _, by decide, by decide, by decide⟩
  obtain ⟨-, -, new, new', hok, hok', hcard, hds, -⟩ := merge_comm hm rfl (by decide +kernel)
    (by decide +kernel)
  exact ⟨hm, new, new', hok, hok', hcard, hds⟩

/-- One table is listed twice. -/
def listedTwice : DSStatistic ℚ :=
  { ((ofTables ["t", "u", "u"] 2).setDs "t" ⟨[⟨1, 5⟩], []⟩).setDs "u" ⟨[⟨2, 2⟩, ⟨1, 1⟩], []⟩ with
    card := 5 }

def listedOnce : DSStatistic ℚ :=
  { ((ofTables ["t", "v"] 2).setDs "t" ⟨[⟨1, 5⟩], []⟩).setDs "v" ⟨[⟨1, 5⟩], []⟩ with card := 5 }

/-- A left operand keeps a table that is listed twice, and finishes it twice. -/
theorem merge_comm_listedTwice :
    (∀ u ∈ listedTwice.tables, u ∈ listedOnce.tables → u = "t") ∧
    (∀ u ∈ listedTwice.tables, ∀ b ∈ (listedTwice.dsOf u).buckets, 0 < b.maxDegree ∧ 0 ≤ b.count) ∧
    (merge listedTwice listedOnce "t").toOption.map (fun new => (new.tables, new.dsOf "u")) =
      some (["t", "u", "u", "v"], ⟨[⟨1, 2⟩, ⟨2, 1⟩], []⟩) ∧
    (merge listedOnce listedTwice "t").toOption.map (fun new => (new.tables, new.dsOf "u")) =
      some (["t", "v", "u"], ⟨[⟨2, 2⟩, ⟨1, 1⟩], []⟩) :=
  ⟨by decide +kernel, by decide +kernel, by decide +kernel, by decide +kernel⟩

end DSStatistic

end StarCE
