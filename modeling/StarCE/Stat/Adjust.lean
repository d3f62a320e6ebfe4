import StarCE.Stat.Center

/-!
# Adjusting a statistic

`adjustToAverage`, `normalizeSubOneDegrees` and `applyFilterCoefficient` rewrite
the sequences of a statistic in place: its tables stay the same and none loses
its sequence (`Keeps`). The first one also asks for the number of distinct rows
of every table (`adjustToAverage_eq_ok`).
-/

namespace StarCE

variable {K : Type} [Field K] [LinearOrder K] [FloorRing K]

namespace DSStatistic

variable {st other new new' : DSStatistic K} {t : Table} {ndv : OrdMap String ℤ} {k : K}

/-- The same tables, none of which has lost its sequence. -/
structure Keeps (st new : DSStatistic K) : Prop where
  tables : new.tables = st.tables
  full : st.Full → new.Full

section

omit [Field K] [LinearOrder K] [FloorRing K]

theorem Keeps.refl (st : DSStatistic K) : Keeps st st := ⟨rfl, id⟩

theorem Keeps.trans (h : Keeps st new) (h' : Keeps new new') : Keeps st new' :=
  ⟨h'.tables.trans h.tables, fun hf => h'.full (h.full hf)⟩

theorem Kept.keeps (h : Kept st new) : Keeps st new := ⟨h.tables, h.full⟩

theorem keeps_forTables (st : DSStatistic K) (f : Table → DegreeSequence K → DegreeSequence K) :
    Keeps st (st.forTables f) := (kept_forTables st f).keeps

end

theorem keeps_limitAllDsToCard (st : DSStatistic K) : Keeps st st.limitAllDsToCard :=
  keeps_forTables st _

theorem keeps_normalizeSubOneDegrees (st : DSStatistic K) : Keeps st st.normalizeSubOneDegrees := by
  obtain ⟨ht, hf⟩ := keeps_forTables st fun _ ds => normalizeDs ds
  exact ⟨ht, hf⟩

theorem keeps_applyFilterCoefficient (st : DSStatistic K) (c : K) :
    Keeps st (st.applyFilterCoefficient c) := by
  obtain ⟨ht, hf⟩ := keeps_forTables st fun _ ds => filterDs c ds
  exact ⟨ht, hf⟩

theorem applyFilterCoefficient_card (st : DSStatistic K) (c : K) :
    (st.applyFilterCoefficient c).card = max 1 (st.card * c) := by
  show (if (st.forTables _).card * c < 1 then 1 else (st.forTables _).card * c) = _
  rw [forTables_card]
  split
  · next h => exact (max_eq_left h.le).symm
  · next h => exact (max_eq_right (not_lt.mp h)).symm

omit [Field K] [LinearOrder K] [FloorRing K] in
theorem keeps_setDs (st : DSStatistic K) (t : Table) (d : DegreeSequence K) :
    Keeps st (st.setDs t d) := (kept_setDs st t d).keeps

/-- Merging with one of the tables alone. -/
theorem merge_keeps (h1 : st.Full) (h2 : other.Full) (ht : t ∈ st.tables)
    (hother : other.tables = [t]) : ∃ new, merge st other t = .ok new ∧ Keeps st new := by
  obtain ⟨new, hok, hfull, -, htables, -⟩ := merge_full h1 h2 ht (by rw [hother]; exact .head _)
  refine ⟨new, hok, ?_, fun _ => hfull⟩
  rw [htables, hother]
  exact if_pos ht

/-! ## `adjustToAverage` -/

/-- Every sequence pulled toward its average, before it is cut. -/
def averaged (st : DSStatistic K) (ndv : OrdMap String ℤ) (k : K) : DSStatistic K :=
  st.forTables fun t ds => averageDs st.card ((ndv.find? t).getD 0) k ds

/-- The adjustment fails only where a table's number of rows is not known. -/
theorem adjustToAverage_eq_ok : st.adjustToAverage ndv k = .ok new ↔
    (∀ t ∈ st.tables, (ndv.find? t).isSome) ∧ new = (st.averaged ndv k).limitAllDsToCard := by
  have hok : (∀ t ∈ st.tables, (ndv.find? t).isSome) →
      st.adjustToAverage ndv k = .ok (st.averaged ndv k).limitAllDsToCard := by
    intro h
    set f : Table → DegreeSequence K → DegreeSequence K :=
      fun t ds => averageDs st.card ((ndv.find? t).getD 0) k ds with hf
    have hrun : ∃ s : DSStatistic K, st.tables.foldlM (fun (st' : DSStatistic K) table => do
        let n ← ndv.lookup table
        pure (st'.setDs table (averageDs st.card n k (st'.dsOf table)))) st = .ok s ∧
        s = onTables f st st.tables := by
      refine foldlM_inv (fun l (s : DSStatistic K) => s = onTables f st l) rfl ?_
      rintro l t _ ht rfl
      obtain ⟨n, hn⟩ := Option.isSome_iff_exists.mp (h t ht)
      refine ⟨_, by simp only [OrdMap.lookup, hn, bind, Except.bind]; rfl, ?_⟩
      rw [onTables, onTables, List.foldl_append]
      simp only [List.foldl_cons, List.foldl_nil, hf, hn, Option.getD_some]
    obtain ⟨_, hs, rfl⟩ := hrun
    rw [adjustToAverage, hs]
    rfl
  constructor
  · intro h
    obtain ⟨s, hs, -⟩ := bind_eq_ok.mp h
    have hsome : ∀ t ∈ st.tables, (ndv.find? t).isSome := fun t ht => by
      obtain ⟨c, c', hc⟩ := exists_ok_of_foldlM hs t ht
      obtain ⟨n, hn, -⟩ := bind_eq_ok.mp hc
      exact OrdMap.isSome_of_lookup hn
    exact ⟨hsome, (Except.ok.inj ((hok hsome).symm.trans h)).symm⟩
  · rintro ⟨h, rfl⟩
    exact hok h

section

omit [FloorRing K]

theorem averaged_card (st : DSStatistic K) (ndv : OrdMap String ℤ) (k : K) :
    (st.averaged ndv k).card = st.card := forTables_card _

theorem Keyed.averaged (h : st.Keyed) (ndv : OrdMap String ℤ) (k : K) :
    (st.averaged ndv k).Keyed := h.forTables _

theorem dsOf_averaged (h : st.Keyed) (ht : t ∈ st.tables) (ndv : OrdMap String ℤ) (k : K) :
    (st.averaged ndv k).dsOf t = averageDs st.card ((ndv.find? t).getD 0) k (st.dsOf t) :=
  dsOf_forTables _ h ht

theorem keeps_averaged (st : DSStatistic K) (ndv : OrdMap String ℤ) (k : K) :
    Keeps st (st.averaged ndv k) := keeps_forTables st _

end

theorem keeps_adjustToAverage (h : st.adjustToAverage ndv k = .ok new) : Keeps st new := by
  obtain ⟨-, rfl⟩ := adjustToAverage_eq_ok.mp h
  exact (keeps_averaged st ndv k).trans (keeps_limitAllDsToCard _)

end DSStatistic

end StarCE
