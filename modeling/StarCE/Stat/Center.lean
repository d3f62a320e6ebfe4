import StarCE.Data.Loop
import StarCE.Stat.Align
import StarCE.Stat.Tables

/-!
# Merging by center

`mergeByCenter` merges two statistics on a pseudo table that carries their
`centralDs`. The cardinality it leaves is the total of the rank-wise products
of the two center sequences, whatever the tables; the result has no center
sequence of its own any more (`mergeByCenter_ok`).
-/

namespace StarCE

variable {K : Type} [Field K] [LinearOrder K] [FloorRing K]

namespace DSStatistic

variable {st other old new new' : DSStatistic K} {t : Table}

/-- Every table has a sequence, save possibly the center. -/
def Stored (st : DSStatistic K) : Prop := ∀ u ∈ st.tables, u ≠ centerTable → (st.ds.find? u).isSome

/-- Every table has a sequence. -/
def Full (st : DSStatistic K) : Prop := ∀ u ∈ st.tables, (st.ds.find? u).isSome

/-- What writing the sequences of some tables does not change. -/
structure Kept (st st' : DSStatistic K) : Prop where
  tables : st'.tables = st.tables
  central : st'.centralDs = st.centralDs
  stored : ∀ u, (st.ds.find? u).isSome → (st'.ds.find? u).isSome

section

omit [Field K] [LinearOrder K] [FloorRing K]

theorem Kept.refl (st : DSStatistic K) : Kept st st := ⟨rfl, rfl, fun _ => id⟩

theorem Kept.trans (h : Kept st new) (h' : Kept new new') : Kept st new' :=
  ⟨h'.tables.trans h.tables, h'.central.trans h.central, fun u hu => h'.stored u (h.stored u hu)⟩

theorem Kept.full (h : Kept st new) (hf : st.Full) : new.Full := fun u hu =>
  h.stored u (hf u (h.tables ▸ hu))

theorem kept_setDs (st : DSStatistic K) (t : Table) (d : DegreeSequence K) :
    Kept st (st.setDs t d) :=
  ⟨rfl, rfl, fun u hu => by rw [find?_setDs]; split <;> simp [hu]⟩

theorem kept_forTables (st : DSStatistic K) (f : Table → DegreeSequence K → DegreeSequence K) :
    Kept st (st.forTables f) := by
  have key : ∀ (l : List Table) (st : DSStatistic K), Kept st (onTables f st l) := by
    intro l
    induction l with
    | nil => exact Kept.refl
    | cons t l ih => exact fun st => (kept_setDs st t _).trans (ih _)
  exact key _ _

theorem Full.lookup (h : st.Full) (ht : t ∈ st.tables) : st.ds.lookup t = .ok (st.dsOf t) := by
  obtain ⟨ds, hds⟩ := Option.isSome_iff_exists.mp (h t ht)
  simp [OrdMap.lookup, dsOf, hds]

end

theorem kept_finishTables (cleared : OrdMap Table (List K)) (l : List Table)
    (st : DSStatistic K) : Kept st (finishTables l cleared st) := by
  obtain ⟨htables, -, -, hcentral⟩ := finishTables_fields cleared l st
  exact ⟨htables, hcentral, fun u hu => (find?_finishTables cleared l u).mpr (.inl hu)⟩

theorem Full.finishCollection (h : st.Full) : st.finishCollection.Full := by
  have k1 := kept_finishTables ∅ st.tables st
  have k2 := kept_forTables { finishTables st.tables ∅ st with
    centralDs := (finishTables st.tables ∅ st).centralDs.finishCollection } fun _ ds =>
      limitDsToCard ds (finishTables st.tables ∅ st).card
  intro u hu
  rw [finishCollection_tables] at hu
  exact k2.stored u (k1.stored u (h u hu))

theorem kept_addCurDegree (tables : List Table) (edges : List (EdgeState K))
    (new : DSStatistic K) : Kept new (addCurDegree tables edges new) := by
  induction tables generalizing edges new with
  | nil => exact Kept.refl _
  | cons u l ih =>
    cases edges with
    | nil => exact Kept.refl _
    | cons e edges => exact (kept_setDs _ _ _).trans (ih _ _)

theorem mergeEdge_kept (hold : old.Full) (rows degree : K) {tables : List Table}
    (h : ∀ u ∈ tables, u ∈ old.tables) (edges : List (EdgeState K)) (new : DSStatistic K) :
    ∃ new' edges', mergeEdgeDegreeSequences old rows degree tables edges new = .ok (new', edges') ∧
      Kept new new' := by
  induction tables generalizing edges new with
  | nil => exact ⟨new, [], rfl, .refl _⟩
  | cons u l ih =>
    cases edges with
    | nil => exact ⟨new, [], rfl, .refl _⟩
    | cons e edges =>
      have hu := hold.lookup (h u (.head _))
      obtain ⟨new', edges', hrun, hkept⟩ := ih (fun w hw => h w (.tail _ hw)) edges
        (new.setDs u ((new.dsOf u).addDegrees
          (edgeStep rowEps degree (old.dsOf u) rows e).2 new.precision))
      refine ⟨new', (edgeStep rowEps degree (old.dsOf u) rows e).1 :: edges', ?_,
        (kept_setDs _ _ _).trans hkept⟩
      simp only [mergeEdgeDegreeSequences, hu, bind, Except.bind, hrun]
      rfl

theorem mem_mergeTables {l l' : List Table} {u : Table} : u ∈ mergeTables l l' ↔ u ∈ l ∨ u ∈ l' := by
  induction l' generalizing l with
  | nil => simp [mergeTables]
  | cons t l' ih =>
    rw [mergeTables, List.foldl_cons, ← mergeTables, ih, List.mem_cons]
    split
    · next h => exact ⟨Or.imp_right .inr, fun hu => by rcases hu with hu | rfl | hu <;> simp_all⟩
    · simp [or_assoc]

/-- The tables of the left operand come first and the new ones of the right once each. -/
theorem exists_mergeTables (l l' : List Table) :
    ∃ new : List Table, mergeTables l l' = l ++ new ∧ new.Nodup ∧ ∀ u ∈ new, u ∉ l := by
  induction l' using List.reverseRecOn with
  | nil => exact ⟨[], by simp [mergeTables], .nil, by simp⟩
  | append_singleton l' t ih =>
    obtain ⟨new, he, hn, hl⟩ := ih
    have hstep : mergeTables l (l' ++ [t]) =
        if t ∈ mergeTables l l' then mergeTables l l' else mergeTables l l' ++ [t] := by
      rw [mergeTables, List.foldl_append]
      rfl
    rw [hstep]
    split
    · exact ⟨new, he, hn, hl⟩
    · next ht =>
      rw [he, List.mem_append, not_or] at ht
      refine ⟨new ++ [t], by rw [he, List.append_assoc], ?_, fun u hu => ?_⟩
      · exact List.nodup_append.mpr ⟨hn, by simp, fun a ha b hb => by
          rw [List.mem_singleton.mp hb]; exact fun h => ht.2 (h ▸ ha)⟩
      · rcases List.mem_append.mp hu with hu | hu
        · exact hl u hu
        · exact List.mem_singleton.mp hu ▸ ht.1

/-- A merge fails only where a table has no sequence. -/
theorem merge_full (h1 : st.Full) (h2 : other.Full) (ht1 : t ∈ st.tables)
    (ht2 : t ∈ other.tables) :
    ∃ new, merge st other t = .ok new ∧ new.Full ∧ new.centralDs = ∅ ∧
      new.tables = mergeTables st.tables other.tables ∧
      new.card = ((alignRuns (st.dsOf t) (other.dsOf t)).map fun r =>
        (r.count : K) * r.degree1 * r.degree2).sum := by
  set runs := alignRuns (st.dsOf t) (other.dsOf t) with hruns
  set init := (ofTables (mergeTables st.tables other.tables) st.precision : DSStatistic K)
    with hinit
  have hfull : init.Full := fun u hu => by
    simp only [hinit, ofTables, OrdMap.find?_ofKeys] at hu ⊢
    rw [if_pos hu]; rfl
  have hsub1 : ∀ u ∈ st.edgeTables t, u ∈ st.tables := fun u hu => (List.mem_filter.mp hu).1
  have hsub2 : ∀ u ∈ other.edgeTables t, u ∈ other.tables := fun u hu => (List.mem_filter.mp hu).1
  have hrun : ∃ s : MergeState K, runs.foldlM (mergeRun st other t)
      { newStat := init.setDs t (init.dsOf t)
        edges1 := (st.edgeTables t).map fun _ => .init
        edges2 := (other.edgeTables t).map fun _ => .init
        newCard := 0 } = .ok s ∧ Kept init s.newStat ∧
        s.newCard = (runs.map fun r : Run K => (r.count : K) * r.degree1 * r.degree2).sum := by
    refine foldlM_inv (fun l (s : MergeState K) => Kept init s.newStat ∧
      s.newCard = (l.map fun r : Run K => (r.count : K) * r.degree1 * r.degree2).sum)
      ⟨kept_setDs _ _ _, rfl⟩ ?_
    rintro l r s hr ⟨hk, hcard⟩
    obtain ⟨n1, e1, hn1, k1⟩ := mergeEdge_kept h1 (r.degree1 * (r.count : K))
      r.degree2 hsub1 s.edges1 (s.newStat.setDs t ((s.newStat.dsOf t).addDegree
        (r.degree1 * r.degree2) r.count s.newStat.precision))
    obtain ⟨n2, e2, hn2, k2⟩ := mergeEdge_kept h2 (r.degree2 * (r.count : K))
      r.degree1 hsub2 s.edges2 n1
    refine ⟨_, by simp only [mergeRun, bind, Except.bind, hn1, hn2]; rfl,
      hk.trans ((kept_setDs _ _ _).trans (k1.trans k2)), ?_⟩
    simp only [hcard, List.map_append, List.sum_append, List.map_cons, List.map_nil,
      List.sum_cons, List.sum_nil, add_zero]
  obtain ⟨s, hs, hk, hcard⟩ := hrun
  set last : DSStatistic K := { addCurDegree (other.edgeTables t) s.edges2
    (addCurDegree (st.edgeTables t) s.edges1 s.newStat) with card := s.newCard } with hlast
  have hk' : Kept init last := by
    have := hk.trans ((kept_addCurDegree (st.edgeTables t) s.edges1 _).trans
      (kept_addCurDegree (other.edgeTables t) s.edges2 _))
    exact ⟨this.tables, this.central, this.stored⟩
  refine ⟨last.finishCollection.limitAllDsToCard, ?_, ?_, ?_, ?_, ?_⟩
  · rw [merge]
    simp only [h1.lookup ht1, h2.lookup ht2, bind, Except.bind]
    rw [← hinit, ← hruns, hs]
    rfl
  · have hf : last.finishCollection.Full := (hk'.full hfull).finishCollection
    exact (kept_forTables _ _).full hf
  · rw [limitAllDsToCard_centralDs, finishCollection_centralDs, hk'.central]
    rfl
  · rw [limitAllDsToCard_tables, finishCollection_tables, hk'.tables]
    rfl
  · rw [limitAllDsToCard_card, finishCollection_card]
    exact hcard

/-! ## The pseudo table -/

section

omit [Field K] [LinearOrder K] [FloorRing K]

theorem Stored.withCenter (h : st.Stored) : st.withCenter.Full := by
  intro u hu
  change (OrdMap.find? (st.setDs centerTable st.centralDs).ds u).isSome
  rw [find?_setDs]
  split
  · rfl
  · next hne =>
    rcases List.mem_append.mp hu with hu | hu
    · exact h u hu hne
    · exact absurd (List.mem_singleton.mp hu) hne

theorem dsOf_withCenter (st : DSStatistic K) : st.withCenter.dsOf centerTable = st.centralDs := by
  change (st.setDs centerTable st.centralDs).dsOf centerTable = _
  rw [dsOf_setDs, if_pos rfl]

theorem centerTable_mem_withCenter (st : DSStatistic K) : centerTable ∈ st.withCenter.tables :=
  List.mem_append_right _ (List.mem_singleton.mpr rfl)

end

/-- `mergeByCenter` multiplies the center sequences rank by rank, and drops one occurrence of the
pseudo table. -/
theorem mergeByCenter_full (h1 : st.Stored) (h2 : other.Stored) :
    ∃ new, st.mergeByCenter other = .ok new ∧ new.Stored ∧ new.centralDs = ∅ ∧
      new.card = ((alignRuns st.centralDs other.centralDs).map fun r =>
        (r.count : K) * r.degree1 * r.degree2).sum ∧
      new.tables = (mergeTables (st.tables ++ [centerTable])
        (other.tables ++ [centerTable])).erase centerTable ∧
      new.ds.find? centerTable = none := by
  obtain ⟨new, hok, hf, hcentral, htables, hcard⟩ := merge_full h1.withCenter h2.withCenter
    (centerTable_mem_withCenter st) (centerTable_mem_withCenter other)
  refine ⟨{ new with tables := new.tables.erase centerTable, ds := new.ds.erase centerTable }, ?_,
    ?_, hcentral, ?_, congrArg (List.erase · centerTable) htables, ?_⟩
  · rw [mergeByCenter, hok]; rfl
  · intro u hu hne
    change (OrdMap.find? (new.ds.erase centerTable) u).isSome
    rw [OrdMap.find?_erase, if_neg hne]
    exact hf u (List.mem_of_mem_erase hu)
  · rw [← dsOf_withCenter st, ← dsOf_withCenter other]; exact hcard
  · change OrdMap.find? (new.ds.erase centerTable) centerTable = none
    rw [OrdMap.find?_erase, if_pos rfl]

/-- The tables `mergeByCenter` leaves: those of the left operand and new ones of the right. -/
theorem erase_centerTables (l l' : List Table) : ∃ added : List Table,
    ((mergeTables (l ++ [centerTable]) (l' ++ [centerTable])).erase centerTable).Perm (l ++ added) ∧
      added.Nodup ∧ (∀ u ∈ added, u ∈ l' ∧ u ∉ l ∧ u ≠ centerTable) ∧
      ∀ u ∈ l', u ≠ centerTable → u ∈ l ∨ u ∈ added := by
  obtain ⟨added, he, hn, hl⟩ := exists_mergeTables (l ++ [centerTable]) (l' ++ [centerTable])
  have hmem : ∀ u, u ∈ (l ++ [centerTable]) ++ added ↔
      u ∈ l ++ [centerTable] ∨ u ∈ l' ++ [centerTable] := fun u => by
    rw [← he]; exact mem_mergeTables
  refine ⟨added, ?_, hn, fun u hu => ?_, fun u hu hne => ?_⟩
  · rw [he, List.append_assoc]
    refine (List.perm_middle.erase _).trans ?_
    rw [List.erase_cons_head]
    exact .rfl
  · have hnot := hl u hu
    rw [List.mem_append, List.mem_singleton, not_or] at hnot
    have := (hmem u).mp (List.mem_append_right _ hu)
    simp only [List.mem_append, List.mem_singleton] at this
    exact ⟨by tauto, hnot.1, hnot.2⟩
  · have := (hmem u).mpr (.inr (List.mem_append_left _ hu))
    simp only [List.mem_append, List.mem_singleton] at this
    tauto

section Products

variable [IsStrictOrderedRing K]

omit [FloorRing K] in
theorem sum_products {runs : List (Run K)} (h : ∀ r ∈ runs, 0 ≤ r.count) :
    (runs.map fun r => (r.count : K) * r.degree1 * r.degree2).sum = (spread (products runs)).sum := by
  induction runs with
  | nil => rfl
  | cons r l ih =>
    have hcons : products (r :: l) = (r.degree1 * r.degree2, r.count) :: products l := rfl
    rw [List.map_cons, List.sum_cons, ih fun s hs => h s (.tail _ hs), hcons, spread_cons,
      List.sum_append, List.sum_replicate, nsmul_eq_mul, toNat_cast (h r (.head _)), mul_assoc]

theorem mergeByCenter_ok (h1 : st.Stored) (h2 : other.Stored)
    (hc1 : ∀ b ∈ st.centralDs.buckets, 0 ≤ b.count)
    (hc2 : ∀ b ∈ other.centralDs.buckets, 0 ≤ b.count) :
    ∃ new, st.mergeByCenter other = .ok new ∧ new.Stored ∧ new.centralDs = ∅ ∧
      new.card = (spread (products (alignRuns st.centralDs other.centralDs))).sum := by
  obtain ⟨new, hok, hs, hcentral, hcard, -⟩ := mergeByCenter_full h1 h2
  exact ⟨new, hok, hs, hcentral, hcard.trans (sum_products (alignRuns_count_nonneg hc1 hc2))⟩

end Products

end DSStatistic

end StarCE
