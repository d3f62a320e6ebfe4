import StarCE.Manager.Collected

/-!
# Collection in machine integers

`DSStatistic::AddDegree` multiplies counts in `int64_t` and
`AddDegreeForSingleDS` takes the frequency as an `int`. `addDegree64` and
`addDegreeForSingleDS32` pass on what these give; the counters that add the
multiplicities up are exact. The collection is the exact one if and only if, for
every subset that gets a statistic, every product and multiplicity fits in 63
bits, and every frequency in 31 (`collects_iff`).
-/

namespace StarCE

/-! ## Two's complement -/

def int64 (n : ℤ) : ℤ := n.bmod (2 ^ 64)

def int32 (n : ℤ) : ℤ := n.bmod (2 ^ 32)

theorem int64_eq_self_iff {n : ℤ} : int64 n = n ↔ -2 ^ 63 ≤ n ∧ n < 2 ^ 63 := by
  unfold int64
  constructor
  · intro h
    have h1 := Int.le_bmod (x := n) (m := 2 ^ 64) (by norm_num)
    have h2 := Int.bmod_lt (x := n) (m := 2 ^ 64) (by norm_num)
    rw [h] at h1 h2
    constructor <;> omega
  · rintro ⟨h1, h2⟩
    apply Int.bmod_eq_of_le <;> omega

theorem int32_eq_self_iff {n : ℤ} : int32 n = n ↔ -2 ^ 31 ≤ n ∧ n < 2 ^ 31 := by
  unfold int32
  constructor
  · intro h
    have h1 := Int.le_bmod (x := n) (m := 2 ^ 32) (by norm_num)
    have h2 := Int.bmod_lt (x := n) (m := 2 ^ 32) (by norm_num)
    rw [h] at h1 h2
    constructor <;> omega
  · rintro ⟨h1, h2⟩
    apply Int.bmod_eq_of_le <;> omega

theorem int64_int64_mul (m n : ℤ) : int64 (int64 m * n) = int64 (m * n) := Int.bmod_mul_bmod

variable {K : Type} [Field K] [LinearOrder K] [FloorRing K]

namespace DSStatistic

/-- `productOf`, with `product` an `int64_t`. -/
def productOf64 (count : OrdMap Table ℤ) : List Table → ℤ → Option ℤ
  | [], product => some product
  | table :: tables, product =>
    match count.find? table with
    | none => none
    | some c => if c = 0 then none else productOf64 count tables (int64 (product * c))

def addDegree64 (st : DSStatistic K) (count : OrdMap Table ℤ) (countCount : ℤ) : DSStatistic K :=
  match productOf64 count st.tables 1 with
  | none => st
  | some product =>
    if product = 0 then st
    else
      let st := st.forTables fun table ds =>
        let c := (count.find? table).getD 0
        ds.addDegree ((product : K) / (c : K)) (int64 (c * countCount)) st.precision
      { st with
        centralDs := st.centralDs.addDegree (product : K) countCount st.precision
        card := st.card + (product : K) * (countCount : K) }

def addCounts64 (st : DSStatistic K) (counts : List (OrdMap Table ℤ × ℤ)) : DSStatistic K :=
  counts.foldl (fun st c => st.addDegree64 c.1 c.2) st

theorem productOf64_eq (count : OrdMap Table ℤ) (tables : List Table) {product : ℤ}
    (hp : int64 product = product) : productOf64 count tables product =
      if starProduct count tables = 0 then none
      else some (int64 (product * starProduct count tables)) := by
  induction tables generalizing product with
  | nil => simp [productOf64, starProduct, hp]
  | cons t l ih =>
    rw [productOf64, starProduct, List.map_cons, List.prod_cons, ← starProduct, countOf]
    cases count.find? t with
    | none => simp
    | some c =>
      have hw : int64 (int64 (product * c)) = int64 (product * c) := Int.bmod_bmod
      simp only [ih hw, Option.getD_some, int64_int64_mul]
      by_cases hc : c = 0
      · simp [hc]
      · by_cases hz : starProduct count l = 0 <;> simp [hc, hz, mul_assoc]

/-! ## One row -/

/-- What is computed of one row for the statistic of some tables is what it stands for, and the
row is left out only if one of its counts is zero. -/
structure RowExact (tables : List Table) (c : OrdMap Table ℤ × ℤ) : Prop where
  product : ∀ p, productOf64 c.1 tables 1 = some p → p = starProduct c.1 tables
  multiplicity : ∀ p, productOf64 c.1 tables 1 = some p →
    ∀ t ∈ tables, int64 (countOf c.1 t * c.2) = countOf c.1 t * c.2
  kept : productOf64 c.1 tables 1 ≠ some 0

/-- The row's values are in range where they are computed. -/
structure RowFits (tables : List Table) (c : OrdMap Table ℤ × ℤ) : Prop where
  product : (∀ t ∈ tables, countOf c.1 t ≠ 0) → starProduct c.1 tables < 2 ^ 63
  multiplicity : (∀ t ∈ tables, countOf c.1 t ≠ 0) → ∀ t ∈ tables, countOf c.1 t * c.2 < 2 ^ 63

/-- The frequency arrives as it is where it is used. -/
def FrequencyExact (c : OrdMap Table ℤ × ℤ) : Prop := ∀ kv ∈ c.1.toList, kv.2 ≠ 0 → int32 c.2 = c.2

def FrequencyFits (c : OrdMap Table ℤ × ℤ) : Prop := (∃ kv ∈ c.1.toList, kv.2 ≠ 0) → c.2 < 2 ^ 31

/-- The counts and the frequency are values of `int64_t`, and no count is negative. -/
structure RowReads (c : OrdMap Table ℤ × ℤ) : Prop where
  counts : ∀ kv ∈ c.1.toList, 0 ≤ kv.2 ∧ kv.2 < 2 ^ 63
  frequency : 0 ≤ c.2 ∧ c.2 < 2 ^ 63

variable {tables : List Table} {c : OrdMap Table ℤ × ℤ} {t : Table}

theorem RowReads.countOf_nonneg (h : RowReads c) (t : Table) : 0 ≤ countOf c.1 t := by
  unfold countOf
  cases hf : c.1.find? t with
  | none => exact le_rfl
  | some n => exact (h.counts (t, n) (OrdMap.mem_toList.mpr hf)).1

theorem starProduct_ne_zero_iff (count : OrdMap Table ℤ) :
    starProduct count tables ≠ 0 ↔ ∀ t ∈ tables, countOf count t ≠ 0 := by
  unfold starProduct
  rw [Ne, List.prod_eq_zero_iff, List.mem_map]
  push Not
  exact Iff.rfl

theorem RowReads.starProduct_nonneg (h : RowReads c) : 0 ≤ starProduct c.1 tables := by
  unfold starProduct
  refine List.prod_nonneg fun x hx => ?_
  obtain ⟨t, -, rfl⟩ := List.mem_map.mp hx
  exact h.countOf_nonneg t

theorem rowExact_iff (h : RowReads c) : RowExact tables c ↔ RowFits tables c := by
  have hone : int64 1 = 1 := int64_eq_self_iff.mpr (by norm_num)
  have hprod := productOf64_eq c.1 tables hone
  rw [one_mul] at hprod
  constructor
  · intro hex
    have hsome : (∀ t ∈ tables, countOf c.1 t ≠ 0) →
        productOf64 c.1 tables 1 = some (int64 (starProduct c.1 tables)) := fun hne => by
      rw [hprod, if_neg ((starProduct_ne_zero_iff c.1).mpr hne)]
    refine ⟨fun hne => ?_, fun hne t ht => ?_⟩
    · exact (int64_eq_self_iff.mp (hex.product _ (hsome hne))).2
    · exact (int64_eq_self_iff.mp (hex.multiplicity _ (hsome hne) t ht)).2
  · intro hfits
    have hfit : starProduct c.1 tables ≠ 0 → int64 (starProduct c.1 tables) =
        starProduct c.1 tables := fun hne => by
      have hp := hfits.product ((starProduct_ne_zero_iff c.1).mp hne)
      have h0 : 0 ≤ starProduct c.1 tables := h.starProduct_nonneg
      exact int64_eq_self_iff.mpr ⟨by omega, hp⟩
    refine ⟨fun p hp => ?_, fun p hp t ht => ?_, fun h0 => ?_⟩
    · rw [hprod] at hp
      split at hp
      · cases hp
      · next hne => rw [← Option.some.inj hp, hfit hne]
    · rw [hprod] at hp
      split at hp
      · cases hp
      · next hne =>
        have hm := hfits.multiplicity ((starProduct_ne_zero_iff c.1).mp hne) t ht
        have h0 := mul_nonneg (h.countOf_nonneg t) h.frequency.1
        exact int64_eq_self_iff.mpr ⟨by omega, hm⟩
    · rw [hprod] at h0
      split at h0
      · cases h0
      · next hne => exact hne ((hfit hne).symm.trans (Option.some.inj h0))

theorem frequencyExact_iff (h : RowReads c) : FrequencyExact c ↔ FrequencyFits c := by
  have hfreq := h.frequency
  constructor
  · rintro hex ⟨kv, hkv, hne⟩
    exact (int32_eq_self_iff.mp (hex kv hkv hne)).2
  · intro hfits kv hkv hne
    exact int32_eq_self_iff.mpr ⟨by omega, hfits ⟨kv, hkv, hne⟩⟩

/-! ## A whole map of counts -/

variable {st : DSStatistic K} {counts : List (OrdMap Table ℤ × ℤ)}

theorem addDegree64_of_eq_some {count : OrdMap Table ℤ} {product n : ℤ}
    (h : productOf64 count st.tables 1 = some product) (h0 : product ≠ 0) :
    st.addDegree64 count n = { (st.forTables fun t ds => ds.addDegree ((product : K) / (countOf count t : K))
        (int64 (countOf count t * n)) st.precision) with
      centralDs := st.centralDs.addDegree (product : K) n st.precision
      card := st.card + (product : K) * (n : K) } := by
  unfold addDegree64
  rw [h]
  simp only [if_neg h0, forTables_card, forTables_centralDs, forTables_precision]
  rfl

theorem addDegree64_eq (h : RowExact st.tables c) : st.addDegree64 c.1 c.2 = st.addDegree c.1 c.2 := by
  have hone : int64 1 = 1 := int64_eq_self_iff.mpr (by norm_num)
  have hprod := productOf64_eq c.1 st.tables hone
  rw [one_mul] at hprod
  rw [addDegree_eq]
  split at hprod
  · next h0 =>
    unfold addDegree64
    rw [hprod, if_pos h0]
  · next h0 =>
    have hmult := h.multiplicity _ hprod
    rw [h.product _ hprod] at hprod
    have hloop : (st.forTables fun t ds => ds.addDegree ((starProduct c.1 st.tables : K) /
          (countOf c.1 t : K)) (int64 (countOf c.1 t * c.2)) st.precision) =
        st.forTables fun t ds => ds.addDegree ((starProduct c.1 st.tables : K) /
          (countOf c.1 t : K)) (countOf c.1 t * c.2) st.precision :=
      foldl_congr fun st' t ht => by
        beta_reduce
        rw [hmult t ht]
    rw [addDegree64_of_eq_some hprod h0, hloop, if_neg h0]

theorem addCounts64_cons (c : OrdMap Table ℤ × ℤ) (l : List (OrdMap Table ℤ × ℤ)) :
    st.addCounts64 (c :: l) = (st.addDegree64 c.1 c.2).addCounts64 l := rfl

theorem addCounts64_eq (h : ∀ c ∈ counts, RowExact st.tables c) :
    st.addCounts64 counts = st.addCounts counts := by
  induction counts generalizing st with
  -- both sides are `st`; a `rfl` would compare the two loops first
  | nil => exact Eq.refl st
  | cons c l ih =>
    obtain ⟨hc, hl⟩ := List.forall_mem_cons.mp h
    have hrest : ∀ d ∈ l, RowExact (st.addDegree c.1 c.2).tables d := by
      rwa [addDegree_tables]
    rw [addCounts64_cons, addCounts_cons, addDegree64_eq hc, ih hrest]

end DSStatistic

/-! ## Nonnegative sequences -/

def DegreeSequence.Nonneg (ds : DegreeSequence K) : Prop :=
  ∀ b ∈ ds.buckets, 0 ≤ b.maxDegree ∧ 0 ≤ b.count

theorem DegreeSequence.Nonneg.addDegree {ds : DegreeSequence K} (h : ds.Nonneg) (degree : K) {n : ℤ}
    (hn : 0 ≤ n) (p : K) : (ds.addDegree degree n p).Nonneg := by
  intro b hb
  obtain ⟨i, hi⟩ := List.mem_iff_getElem?.mp hb
  have hgrow : ∀ b ∈ grow (bucketPos degree p + 1) ⟨0, 0⟩ ds.buckets, 0 ≤ b.maxDegree ∧ 0 ≤ b.count := by
    intro b hb
    rcases List.mem_append.mp hb with hb | hb
    · exact h b hb
    · rw [(List.mem_replicate.mp hb).2]
      exact ⟨le_rfl, le_rfl⟩
  show 0 ≤ b.maxDegree ∧ 0 ≤ b.count
  unfold DegreeSequence.addDegree at hi
  rw [List.getElem?_modify] at hi
  obtain ⟨a, ha, rfl⟩ := Option.map_eq_some_iff.mp hi
  have hpos := hgrow a (List.mem_of_getElem? ha)
  split
  · exact ⟨le_max_of_le_left hpos.1, by show 0 ≤ a.count + n; omega⟩
  · exact hpos

namespace DSStatistic

variable {tables : List Table} {c : OrdMap Table ℤ × ℤ}

def Nonneg (st : DSStatistic K) : Prop :=
  0 ≤ st.card ∧ st.centralDs.Nonneg ∧ ∀ t, (st.dsOf t).Nonneg

theorem Nonneg.addDegree [IsStrictOrderedRing K] {st : DSStatistic K} (h : st.Nonneg)
    (hc : RowReads c) : (st.addDegree c.1 c.2).Nonneg := by
  rw [addDegree_eq]
  split
  · exact h
  · have hprod : (0 : K) ≤ (starProduct c.1 st.tables : K) := by
      exact_mod_cast hc.starProduct_nonneg
    have hfreq : (0 : K) ≤ (c.2 : K) := by exact_mod_cast hc.frequency.1
    refine ⟨add_nonneg h.1 (mul_nonneg hprod hfreq), h.2.1.addDegree _ hc.frequency.1 _, fun t => ?_⟩
    show (dsOf (st.forTables _) t).Nonneg
    have hloop : ∀ u, ((st.tables.foldl (fun s t =>
        s.setDs t ((s.dsOf t).addDegree ((starProduct c.1 st.tables : K) / (countOf c.1 t : K))
          (countOf c.1 t * c.2) st.precision)) st).dsOf u).Nonneg :=
      foldl_inv (fun _ (s : DSStatistic K) => ∀ t, (s.dsOf t).Nonneg) h.2.2
        fun _ u s _ hs v => by
          rw [dsOf_setDs]
          split
          · exact (hs u).addDegree _ (mul_nonneg (hc.countOf_nonneg u) hc.frequency.1) _
          · exact hs v
    exact hloop t

theorem nonneg_addCounts [IsStrictOrderedRing K] (tables : List Table) (p : K)
    {counts : List (OrdMap Table ℤ × ℤ)} (h : ∀ c ∈ counts, RowReads c) :
    ((ofTables tables p).addCounts counts).Nonneg := by
  refine foldl_inv (fun _ (s : DSStatistic K) => s.Nonneg) ⟨le_rfl, ?_, fun t => ?_⟩
    fun _ c s hc hs => hs.addDegree (h c hc)
  · exact fun b hb => absurd hb List.not_mem_nil
  · rw [dsOf_ofTables]
    exact fun b hb => absurd hb List.not_mem_nil

end DSStatistic

namespace StatisticManager

open DSStatistic

variable {sm : StatisticManager K} {e : EqualSet} {counts : OrdMap CountMap ℤ}

/-- The frequency comes as an `int`. -/
def addDegreeForSingleDS32 (sm : StatisticManager K) (count : CountMap) (countCount : ℤ) :
    Except Error (StatisticManager K) := sm.addDegreeForSingleDS count (int32 countCount)

theorem addDegreeForSingleDS32_eq {c : CountMap × ℤ} (h : FrequencyExact c) :
    sm.addDegreeForSingleDS32 c.1 c.2 = sm.addDegreeForSingleDS c.1 c.2 := by
  unfold addDegreeForSingleDS32 addDegreeForSingleDS
  rw [foldlM_congr fun s kv hkv => ?_]
  unfold addSingleCount
  split
  · rfl
  · next hne => rw [h kv hkv hne]

theorem nonneg_addDegreeForSingleDS {c : CountMap × ℤ} (hc : 0 ≤ c.2) {sm' : StatisticManager K}
    (h : ∀ t ds, sm.singleDS.find? t = some ds → ds.Nonneg)
    (hok : sm.addDegreeForSingleDS c.1 c.2 = .ok sm') :
    ∀ t ds, sm'.singleDS.find? t = some ds → ds.Nonneg := by
  obtain ⟨s, hs, hok⟩ := bind_eq_ok.mp hok
  obtain rfl := Except.ok.inj hok
  refine foldlM_keeps (I := fun s => ∀ t ds, OrdMap.find? s t = some ds → ds.Nonneg) hs h ?_
  intro kv _ s s' hI hstep
  unfold addSingleCount at hstep
  split at hstep
  · obtain rfl := Except.ok.inj hstep
    exact hI
  · obtain ⟨ds, hds, hstep⟩ := bind_eq_ok.mp hstep
    obtain rfl := Except.ok.inj hstep
    unfold singleDSOf at hds
    split at hds
    · next ds' hf =>
      obtain rfl := Except.ok.inj hds
      intro t d hd
      rw [OrdMap.find?_insert] at hd
      split at hd
      · obtain rfl := Option.some.inj hd
        exact (hI _ _ hf).addDegree _ hc _
      · exact hI t d hd
    · cases hds

/-- The subsets of an equal set that get a statistic: `skip` leaves out those that have one. -/
def IsFresh (sm : StatisticManager K) (e key : EqualSet) : Prop :=
  key ∈ sm.subsetsOf e ∧ sm.statistics.find? key = none

/-- A collection over one equal set computes what it stands for: for every subset that gets a
statistic every product and multiplicity, and every frequency; the cardinalities and the sequences
are not negative. -/
structure Collects (sm : StatisticManager K) (e : EqualSet) (counts : OrdMap CountMap ℤ) :
    Prop where
  rows : ∀ key, sm.IsFresh e key → ∀ c ∈ counts.toList, RowExact key.getTableList c
  frequency : ∀ c ∈ counts.toList, FrequencyExact c
  statistic : ∀ key, sm.IsFresh e key → ∀ st, ((sm.prepareCollection e).forSubsets fun st =>
    st.addCounts64 counts.toList).statistics.find? key = some st → st.Nonneg
  single : ∀ sm', counts.toList.foldlM (fun sm c => sm.addDegreeForSingleDS32 c.1 c.2)
    (sm.prepareCollection e) = .ok sm' → ∀ t ds, sm'.singleDS.find? t = some ds → ds.Nonneg

theorem find?_addCounts64 {key : EqualSet} (h : sm.IsFresh e key) :
    ((sm.prepareCollection e).forSubsets fun st => st.addCounts64 counts.toList).statistics.find? key =
      some ((ofTables key.getTableList sm.compressPrecision).addCounts64 counts.toList) := by
  have hready := (prepareCollection_ready sm e).forSubsets fun st => st.addCounts64 counts.toList
  rw [hready.statistics, h.2, if_pos h.1]
  rfl

section Example

/-- One key of two tables, with these counts in its rows. -/
def twoCounts (m n freq : ℤ) : OrdMap CountMap ℤ :=
  (∅ : OrdMap CountMap ℤ).insert (((∅ : CountMap).insert "t" m).insert "u" n) freq

def twoTables : EqualSet := ⟨.ofList [⟨"t", "x"⟩, ⟨"u", "x"⟩]⟩

theorem isFresh_twoTables : (initial : StatisticManager ℚ).IsFresh twoTables twoTables :=
  ⟨by decide, rfl⟩

end Example

end StatisticManager

end StarCE
