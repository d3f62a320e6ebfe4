import StarCE.Stat.Compress
import StarCE.Stat.DSStatistic

/-!
# The tables of a statistic

The operations of `DSStatistic` run over the vector `tables` and read and
write the map `ds`. With the tables distinct, every such loop acts on each
sequence once (`dsOf_forTables`), and a whole collection is, table by table,
the list of its `addDegree` calls (`dsOf_addCounts`).
-/

namespace StarCE

variable {K : Type} [Field K] [LinearOrder K] [FloorRing K]

namespace DSStatistic

variable {st : DSStatistic K} {t : Table}

/-- The tables are the keys of the map. -/
def Listed (st : DSStatistic K) : Prop := ∀ t, (st.ds.find? t).isSome ↔ t ∈ st.tables

/-- The tables are distinct and are the keys of the map. -/
structure Keyed (st : DSStatistic K) : Prop where
  nodup : st.tables.Nodup
  isSome_iff : ∀ t, (st.ds.find? t).isSome ↔ t ∈ st.tables

section

omit [Field K] [LinearOrder K] [FloorRing K]

theorem Keyed.lookup (h : st.Keyed) (ht : t ∈ st.tables) : st.ds.lookup t = .ok (st.dsOf t) := by
  obtain ⟨ds, hds⟩ := Option.isSome_iff_exists.mp ((h.isSome_iff t).mpr ht)
  simp [OrdMap.lookup, dsOf, hds]

/-- A statistic is known from its fields and the sequences of its tables. -/
theorem Listed.ext {st' : DSStatistic K} (h : st.Listed) (h' : st'.Listed)
    (hcard : st.card = st'.card) (hp : st.precision = st'.precision)
    (hcentral : st.centralDs = st'.centralDs) (htables : st.tables = st'.tables)
    (hds : ∀ t ∈ st.tables, st.dsOf t = st'.dsOf t) : st = st' := by
  have hmap : st.ds = st'.ds := by
    refine OrdMap.ext_find? fun t => ?_
    by_cases ht : t ∈ st.tables
    · obtain ⟨d, hd⟩ := Option.isSome_iff_exists.mp ((h t).mpr ht)
      obtain ⟨d', hd'⟩ := Option.isSome_iff_exists.mp ((h' t).mpr (htables ▸ ht))
      simpa [dsOf, hd, hd'] using hds t ht
    · have h1 : st.ds.find? t = none := by simpa using mt (h t).mp ht
      have h2 : st'.ds.find? t = none := by simpa using mt (h' t).mp (htables ▸ ht)
      rw [h1, h2]
  cases st; cases st'
  simp only [DSStatistic.mk.injEq]
  exact ⟨hcard, hp, hcentral, hmap, htables⟩

@[simp] theorem setDs_tables (d : DegreeSequence K) : (st.setDs t d).tables = st.tables := rfl

@[simp] theorem setDs_card (d : DegreeSequence K) : (st.setDs t d).card = st.card := rfl

@[simp] theorem setDs_precision (d : DegreeSequence K) :
    (st.setDs t d).precision = st.precision := rfl

@[simp] theorem setDs_centralDs (d : DegreeSequence K) :
    (st.setDs t d).centralDs = st.centralDs := rfl

theorem find?_setDs (d : DegreeSequence K) (u : Table) :
    (st.setDs t d).ds.find? u = if u = t then some d else st.ds.find? u :=
  OrdMap.find?_insert _ _ _ _

theorem dsOf_setDs (d : DegreeSequence K) (u : Table) :
    (st.setDs t d).dsOf u = if u = t then d else st.dsOf u := by
  rw [dsOf, find?_setDs]
  split <;> rfl

theorem Keyed.setDs (h : st.Keyed) (ht : t ∈ st.tables) (d : DegreeSequence K) :
    (st.setDs t d).Keyed := by
  refine ⟨h.nodup, fun u => ?_⟩
  rw [find?_setDs, setDs_tables]
  split
  · next hu => subst hu; simpa using ht
  · exact h.isSome_iff u

end

/-! ## `forTables` -/

section ForTables

variable (f : Table → DegreeSequence K → DegreeSequence K)

/-- A loop over some of the tables. -/
def onTables (st : DSStatistic K) (l : List Table) : DSStatistic K :=
  l.foldl (fun st t => st.setDs t (f t (st.dsOf t))) st

section

omit [Field K] [LinearOrder K] [FloorRing K]

theorem forTables_eq : st.forTables f = onTables f st st.tables := rfl

theorem onTables_fields (st : DSStatistic K) (l : List Table) : (onTables f st l).tables = st.tables ∧
    (onTables f st l).card = st.card ∧ (onTables f st l).precision = st.precision ∧
    (onTables f st l).centralDs = st.centralDs := by
  induction l generalizing st with
  | nil => exact ⟨rfl, rfl, rfl, rfl⟩
  | cons t l ih => exact ih _

/-- A table that is listed several times is acted on as often. -/
theorem dsOf_onTables_count (l : List Table) (u : Table) :
    (onTables f st l).dsOf u = (f u)^[l.count u] (st.dsOf u) := by
  induction l generalizing st with
  | nil => rfl
  | cons t l ih =>
    rw [onTables, List.foldl_cons, ← onTables, ih, dsOf_setDs]
    by_cases hu : u = t
    · rw [if_pos hu, hu, List.count_cons_self, Function.iterate_succ_apply]
    · rw [if_neg hu, List.count_cons_of_ne (Ne.symm hu)]

theorem dsOf_onTables {l : List Table} (hl : l.Nodup) (u : Table) :
    (onTables f st l).dsOf u = if u ∈ l then f u (st.dsOf u) else st.dsOf u := by
  induction l generalizing st with
  | nil => simp [onTables]
  | cons t l ih =>
    obtain ⟨ht, hl⟩ := List.nodup_cons.mp hl
    rw [onTables, List.foldl_cons, ← onTables, ih hl, dsOf_setDs]
    by_cases hu : u = t
    · subst hu; simp [ht]
    · simp [hu]

theorem Keyed.onTables (h : st.Keyed) {l : List Table} (hl : ∀ u ∈ l, u ∈ st.tables) :
    (DSStatistic.onTables f st l).Keyed := by
  induction l generalizing st with
  | nil => exact h
  | cons t l ih =>
    exact ih (h.setDs (hl t (.head _)) _) fun u hu => hl u (.tail _ hu)

@[simp] theorem forTables_tables : (st.forTables f).tables = st.tables :=
  (onTables_fields f st _).1

@[simp] theorem forTables_card : (st.forTables f).card = st.card := (onTables_fields f st _).2.1

@[simp] theorem forTables_precision : (st.forTables f).precision = st.precision :=
  (onTables_fields f st _).2.2.1

@[simp] theorem forTables_centralDs : (st.forTables f).centralDs = st.centralDs :=
  (onTables_fields f st _).2.2.2

theorem Keyed.forTables (h : st.Keyed) : (st.forTables f).Keyed := h.onTables f fun _ => id

theorem dsOf_forTables (h : st.Keyed) (ht : t ∈ st.tables) :
    (st.forTables f).dsOf t = f t (st.dsOf t) := by
  rw [forTables_eq, dsOf_onTables f h.nodup, if_pos ht]

end

end ForTables

/-! ## Collection -/

def countOf (count : OrdMap Table ℤ) (t : Table) : ℤ := (count.find? t).getD 0

/-- The number of star rows with one key value. -/
def starProduct (count : OrdMap Table ℤ) (tables : List Table) : ℤ :=
  (tables.map (countOf count)).prod

theorem productOf_eq (count : OrdMap Table ℤ) (tables : List Table) (product : ℤ) :
    productOf count tables product =
      if starProduct count tables = 0 then none else some (product * starProduct count tables) := by
  induction tables generalizing product with
  | nil => simp [productOf, starProduct]
  | cons t l ih =>
    rw [productOf, starProduct, List.map_cons, List.prod_cons, ← starProduct, countOf]
    cases count.find? t with
    | none => simp
    | some c =>
      simp only [ih, Option.getD_some]
      by_cases hc : c = 0
      · simp [hc]
      · by_cases hp : starProduct count l = 0 <;> simp [hc, hp, mul_assoc]

theorem addDegree_eq (count : OrdMap Table ℤ) (n : ℤ) :
    st.addDegree count n = if starProduct count st.tables = 0 then st else
      { (st.forTables fun t ds => ds.addDegree
          ((starProduct count st.tables : K) / (countOf count t : K)) (countOf count t * n)
          st.precision) with
        centralDs := st.centralDs.addDegree (starProduct count st.tables : K) n st.precision
        card := st.card + (starProduct count st.tables : K) * (n : K) } := by
  rw [addDegree, productOf_eq]
  by_cases h : starProduct count st.tables = 0
  · simp [h]
  · simp [h, countOf]

/-- The calls made on the sequence of `t`: the degree of its rows, as many as there are. -/
def starCalls (tables : List Table) (t : Table) (counts : List (OrdMap Table ℤ × ℤ)) :
    List (K × ℤ) :=
  counts.filterMap fun c =>
    if starProduct c.1 tables = 0 then none
    else some ((starProduct c.1 tables : K) / (countOf c.1 t : K), countOf c.1 t * c.2)

def centralCalls (tables : List Table) (counts : List (OrdMap Table ℤ × ℤ)) : List (K × ℤ) :=
  counts.filterMap fun c =>
    if starProduct c.1 tables = 0 then none else some ((starProduct c.1 tables : K), c.2)

/-- The number of star rows. -/
def starCard (tables : List Table) (counts : List (OrdMap Table ℤ × ℤ)) : ℤ :=
  (counts.map fun c => starProduct c.1 tables * c.2).sum

variable (counts : List (OrdMap Table ℤ × ℤ))

theorem addCounts_cons (c : OrdMap Table ℤ × ℤ) :
    st.addCounts (c :: counts) = (st.addDegree c.1 c.2).addCounts counts := rfl

@[simp] theorem addDegree_tables (count : OrdMap Table ℤ) (n : ℤ) :
    (st.addDegree count n).tables = st.tables := by
  rw [addDegree_eq]; split <;> simp

@[simp] theorem addDegree_precision (count : OrdMap Table ℤ) (n : ℤ) :
    (st.addDegree count n).precision = st.precision := by
  rw [addDegree_eq]; split <;> simp

@[simp] theorem addCounts_tables : (st.addCounts counts).tables = st.tables := by
  induction counts generalizing st with
  | nil => rfl
  | cons c l ih => rw [addCounts_cons, ih, addDegree_tables]

@[simp] theorem addCounts_precision : (st.addCounts counts).precision = st.precision := by
  induction counts generalizing st with
  | nil => rfl
  | cons c l ih => rw [addCounts_cons, ih, addDegree_precision]

/-- The cardinality counts the star rows, whether or not the tables are distinct. -/
theorem addCounts_card : (st.addCounts counts).card = st.card + (starCard st.tables counts : K) := by
  induction counts generalizing st with
  | nil => simp [addCounts, starCard]
  | cons c l ih =>
    rw [addCounts_cons, ih, addDegree_tables, addDegree_eq, starCard, starCard, List.map_cons,
      List.sum_cons]
    by_cases h : starProduct c.1 st.tables = 0
    · simp [h]
    · simp [h, add_assoc]

theorem addCounts_centralDs : (st.addCounts counts).centralDs =
    st.centralDs.addDegrees (centralCalls st.tables counts) st.precision := by
  induction counts generalizing st with
  | nil => rfl
  | cons c l ih =>
    rw [addCounts_cons, ih, addDegree_tables, addDegree_precision, addDegree_eq, centralCalls,
      centralCalls, List.filterMap_cons]
    by_cases h : starProduct c.1 st.tables = 0
    · simp [h]
    · simp [h, DegreeSequence.addDegrees_cons]

theorem Keyed.addDegree (h : st.Keyed) (count : OrdMap Table ℤ) (n : ℤ) :
    (st.addDegree count n).Keyed := by
  rw [addDegree_eq]
  split
  · exact h
  · have := h.forTables fun t ds => ds.addDegree
      ((starProduct count st.tables : K) / (countOf count t : K)) (countOf count t * n) st.precision
    exact ⟨this.nodup, this.isSome_iff⟩

theorem Keyed.addCounts (h : st.Keyed) : (st.addCounts counts).Keyed := by
  induction counts generalizing st with
  | nil => exact h
  | cons c l ih => exact ih (h.addDegree c.1 c.2)

theorem dsOf_addCounts (h : st.Keyed) (ht : t ∈ st.tables) : (st.addCounts counts).dsOf t =
    (st.dsOf t).addDegrees (starCalls st.tables t counts) st.precision := by
  induction counts generalizing st with
  | nil => rfl
  | cons c l ih =>
    rw [addCounts_cons, ih (h.addDegree _ _) (by simpa using ht), addDegree_tables,
      addDegree_precision, starCalls, starCalls, List.filterMap_cons, addDegree_eq]
    by_cases hp : starProduct c.1 st.tables = 0
    · simp [hp]
    · simp only [hp, if_false]
      have hstep := dsOf_forTables (fun t ds => ds.addDegree
        ((starProduct c.1 st.tables : K) / (countOf c.1 t : K)) (countOf c.1 t * c.2)
        st.precision) h ht
      rw [DegreeSequence.addDegrees_cons]
      exact congrArg (fun ds => DegreeSequence.addDegrees ds _ _) hstep

/-- A table that is listed several times gets each of its calls as often. -/
theorem dsOf_addCounts_count (t : Table) : (st.addCounts counts).dsOf t =
    (st.dsOf t).addDegrees ((starCalls st.tables t counts).flatMap
      (List.replicate (st.tables.count t))) st.precision := by
  induction counts generalizing st with
  | nil => rfl
  | cons c l ih =>
    rw [addCounts_cons, ih, addDegree_tables, addDegree_precision, starCalls, starCalls,
      List.filterMap_cons, addDegree_eq]
    by_cases hp : starProduct c.1 st.tables = 0
    · simp [hp]
    · simp only [hp, if_false]
      rw [List.flatMap_cons, DegreeSequence.addDegrees_append]
      refine congrArg (fun ds => DegreeSequence.addDegrees ds _ _) ?_
      rw [DegreeSequence.addDegrees_replicate]
      exact dsOf_onTables_count (fun t ds => ds.addDegree
        ((starProduct c.1 st.tables : K) / (countOf c.1 t : K)) (countOf c.1 t * c.2) st.precision)
        st.tables t

/-! ## Finishing -/

omit [Field K] [LinearOrder K] [FloorRing K] in
theorem Listed.onTables (f : Table → DegreeSequence K → DegreeSequence K) (h : st.Listed)
    {l : List Table} (hl : ∀ u ∈ l, u ∈ st.tables) : (DSStatistic.onTables f st l).Listed := by
  induction l generalizing st with
  | nil => exact h
  | cons t l ih =>
    refine ih (fun u => ?_) fun u hu => hl u (.tail _ hu)
    rw [find?_setDs, setDs_tables]
    by_cases hu : u = t
    · subst hu
      simpa using hl u (.head _)
    · rw [if_neg hu]
      exact h u

theorem Listed.addCounts (h : st.Listed) : (st.addCounts counts).Listed := by
  induction counts generalizing st with
  | nil => exact h
  | cons c l ih =>
    rw [addCounts_cons]
    apply ih
    rw [addDegree_eq]
    split
    · exact h
    · exact h.onTables (fun t ds => ds.addDegree ((starProduct c.1 st.tables : K) /
        (countOf c.1 t : K)) (countOf c.1 t * c.2) st.precision) fun _ => id

section

omit [LinearOrder K] [FloorRing K]

theorem listed_ofTables (tables : List Table) (p : K) : (ofTables tables p).Listed := fun t => by
  simp [ofTables, OrdMap.find?_ofKeys]


theorem keyed_ofTables {tables : List Table} (h : tables.Nodup) (p : K) :
    (ofTables tables p).Keyed :=
  ⟨h, fun t => by simp [ofTables, OrdMap.find?_ofKeys]⟩

theorem dsOf_ofTables (tables : List Table) (p : K) (t : Table) :
    (ofTables tables p).dsOf t = ∅ := by
  simp only [dsOf, ofTables, OrdMap.find?_ofKeys]
  split <;> rfl

end

theorem limitDsToCard_eq (ds : DegreeSequence K) (card : K) :
    limitDsToCard ds card = ⟨limitBuckets rowEps card 0 ds.buckets, ds.sum⟩ := rfl

theorem finishCollection_eq_mk (ds : DegreeSequence K) :
    ds.finishCollection = ⟨ds.finishCollection.buckets, []⟩ := rfl

@[simp] theorem limitAllDsToCard_tables : st.limitAllDsToCard.tables = st.tables :=
  forTables_tables _

@[simp] theorem limitAllDsToCard_card : st.limitAllDsToCard.card = st.card := forTables_card _

@[simp] theorem limitAllDsToCard_precision : st.limitAllDsToCard.precision = st.precision :=
  forTables_precision _

@[simp] theorem limitAllDsToCard_centralDs : st.limitAllDsToCard.centralDs = st.centralDs :=
  forTables_centralDs _

theorem dsOf_limitAllDsToCard (h : st.Keyed) (ht : t ∈ st.tables) :
    st.limitAllDsToCard.dsOf t = limitDsToCard (st.dsOf t) st.card := dsOf_forTables _ h ht

section FinishTables

variable (cleared : OrdMap Table (List K)) (l : List Table)

theorem finishTables_fields (st : DSStatistic K) : (finishTables l cleared st).tables = st.tables ∧
    (finishTables l cleared st).card = st.card ∧
    (finishTables l cleared st).precision = st.precision ∧
    (finishTables l cleared st).centralDs = st.centralDs := by
  induction l generalizing cleared st with
  | nil => exact ⟨rfl, rfl, rfl, rfl⟩
  | cons t l ih => exact ih _ _

/-- A table that is listed several times is finished as often. -/
theorem dsOf_finishTables (u : Table) : (finishTables l cleared st).dsOf u =
    (st.dsOf u).finishTimes (cleared.find? u) (l.count u) := by
  induction l generalizing cleared st with
  | nil => rfl
  | cons t l ih =>
    rw [finishTables, ih, dsOf_setDs, OrdMap.find?_insert]
    by_cases hu : u = t
    · subst hu
      rw [if_pos rfl, if_pos rfl, List.count_cons_self]
      rfl
    · rw [if_neg hu, if_neg hu, List.count_cons_of_ne (Ne.symm hu)]

theorem find?_finishTables (u : Table) : ((finishTables l cleared st).ds.find? u).isSome ↔
    (st.ds.find? u).isSome ∨ u ∈ l := by
  induction l generalizing cleared st with
  | nil => simp [finishTables]
  | cons t l ih =>
    rw [finishTables, ih, find?_setDs, List.mem_cons]
    by_cases hu : u = t <;> simp [hu]

end FinishTables

@[simp] theorem finishCollection_tables : st.finishCollection.tables = st.tables := by
  simp [finishCollection, (finishTables_fields _ _ _).1]

@[simp] theorem finishCollection_card : st.finishCollection.card = st.card := by
  simp [finishCollection, (finishTables_fields _ _ _).2.1]

@[simp] theorem finishCollection_precision : st.finishCollection.precision = st.precision := by
  simp [finishCollection, (finishTables_fields _ _ _).2.2.1]

theorem finishCollection_centralDs : st.finishCollection.centralDs =
    limitDsToCard st.centralDs.finishCollection st.card := by
  simp [finishCollection, (finishTables_fields _ _ _).2.1, (finishTables_fields _ _ _).2.2.2]

theorem Listed.limitAllDsToCard (h : st.Listed) : st.limitAllDsToCard.Listed :=
  h.onTables (fun _ ds => limitDsToCard ds st.card) fun _ => id

theorem Keyed.limitAllDsToCard (h : st.Keyed) : st.limitAllDsToCard.Keyed := h.forTables _

theorem Listed.finishCollection (h : st.Listed) : st.finishCollection.Listed := by
  have htables := (finishTables_fields (∅ : OrdMap Table (List K)) st.tables st).1
  have h1 : Listed { finishTables st.tables ∅ st with
      centralDs := (finishTables st.tables ∅ st).centralDs.finishCollection } := fun u => by
    show ((finishTables st.tables ∅ st).ds.find? u).isSome ↔
      u ∈ (finishTables st.tables ∅ st).tables
    rw [find?_finishTables, htables, h, or_self]
  exact h1.limitAllDsToCard

theorem Keyed.finishCollection (h : st.Keyed) : st.finishCollection.Keyed :=
  ⟨by rw [finishCollection_tables]; exact h.nodup, Listed.finishCollection h.isSome_iff⟩

/-- A table is finished, and limited to the cardinality, as often as it is listed. -/
theorem dsOf_finishCollection_count (st : DSStatistic K) (t : Table) :
    st.finishCollection.dsOf t = (limitDsToCard · st.card)^[st.tables.count t]
      ((st.dsOf t).finishTimes none (st.tables.count t)) := by
  obtain ⟨htables, hcard, -, -⟩ :=
    finishTables_fields (∅ : OrdMap Table (List K)) st.tables st
  show (onTables (fun _ ds => limitDsToCard ds (finishTables st.tables ∅ st).card)
    { finishTables st.tables ∅ st with
      centralDs := (finishTables st.tables ∅ st).centralDs.finishCollection }
    (finishTables st.tables ∅ st).tables).dsOf t = _
  rw [dsOf_onTables_count, htables, hcard]
  exact congrArg _ (dsOf_finishTables _ _ t)

theorem dsOf_finishCollection (h : st.Keyed) (ht : t ∈ st.tables) :
    st.finishCollection.dsOf t = limitDsToCard (st.dsOf t).finishCollection st.card := by
  rw [dsOf_finishCollection_count, List.count_eq_one_of_mem h.nodup ht]
  rfl

end DSStatistic

end StarCE
