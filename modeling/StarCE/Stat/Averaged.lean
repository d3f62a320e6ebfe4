import StarCE.Stat.Average
import StarCE.Stat.Limit
import StarCE.Stat.Scale

/-!
# Averaged sequences

Before two classes are merged their sequences are pulled toward the average,
cut to the cardinality and freed of degrees below one. The first step keeps the
rows (`sum_averageDs`), the last one moves rows to the front
(`pre_le_normalize`). The rank-wise product of two such sequences is at least
what uniformity gives (`uniform_le_products`).
-/

namespace StarCE

open Finset

variable {K : Type} [Field K] [LinearOrder K] [FloorRing K] [IsStrictOrderedRing K]

namespace DSStatistic

/-! ## Pulling toward the average -/

section Average

variable {ds : DegreeSequence K} {c k : K} {n : ℤ}

/-- The degree a tuple gets from an even spread. -/
def average (c : K) (n : ℤ) (k : K) : K := c / (n : K) * (1 - k)

def pullBucket (c : K) (n : ℤ) (k : K) (b : Bucket K) : Bucket K :=
  ⟨b.maxDegree * k + average c n k, b.count⟩

/-- The tuples that had no degree. -/
def zeroBuckets (c : K) (n : ℤ) (k : K) (ds : DegreeSequence K) : List (Bucket K) :=
  if 0 < n - ds.getNDV ∧ 0 < average c n k then [⟨average c n k, n - ds.getNDV⟩] else []

section

omit [FloorRing K] [IsStrictOrderedRing K]

theorem averageDs_buckets (c : K) (n : ℤ) (k : K) (ds : DegreeSequence K) :
    (averageDs c n k ds).buckets =
      ds.buckets.map (pullBucket c n k) ++ zeroBuckets c n k ds := by
  unfold averageDs zeroBuckets
  by_cases h : 0 < n - ds.getNDV ∧ 0 < average c n k
  · rw [if_pos h]
    exact congrArg DegreeSequence.buckets (if_pos h)
  · rw [if_neg h, List.append_nil]
    exact congrArg DegreeSequence.buckets (if_neg h)

theorem mem_zeroBuckets {b : Bucket K} (h : b ∈ zeroBuckets c n k ds) :
    (0 < n - ds.getNDV ∧ 0 < average c n k) ∧ b = ⟨average c n k, n - ds.getNDV⟩ := by
  unfold zeroBuckets at h
  split at h
  · next hc => exact ⟨hc, List.mem_singleton.mp h⟩
  · cases h

theorem sum_zeroBuckets (hn : ds.getNDV ≤ n) (h0 : 0 ≤ average c n k) :
    ((zeroBuckets c n k ds).map fun b => (b.count : K) * b.maxDegree).sum =
      ((n - ds.getNDV : ℤ) : K) * average c n k := by
  unfold zeroBuckets
  split
  · simp
  · next h =>
    rw [not_and_or] at h
    rcases h with h | h
    · have hz : n - ds.getNDV = 0 := by omega
      simp [hz]
    · simp [le_antisymm (not_lt.mp h) h0]

end

variable (hds : Descending ds.buckets) (hc0 : 0 ≤ c) (hc : ∀ b ∈ ds.buckets, 0 < c) (h1 : 1 ≤ n)
  (hn : ds.getNDV ≤ n) (hk0 : 0 ≤ k) (hk : k ≤ 1)

include hc0 h1 hk in
theorem average_nonneg : 0 ≤ average c n k := by
  have hn0 : (0 : K) ≤ n := by exact_mod_cast zero_le_one.trans h1
  exact mul_nonneg (div_nonneg hc0 hn0) (sub_nonneg.mpr hk)

include hds hc0 hc h1 hk0 hk in
theorem averageDs_descending : Descending (averageDs c n k ds).buckets := by
  have hn0 : (0 : K) < n := by exact_mod_cast h1
  have havg := average_nonneg hc0 h1 hk
  have hpulled : ∀ b ∈ ds.buckets, 0 < b.maxDegree * k + average c n k := by
    intro b hb
    rcases hk0.lt_or_eq with hpos | hz
    · exact add_pos_of_pos_of_nonneg (mul_pos (hds.degree_pos b hb) hpos) havg
    · unfold average
      rw [← hz, mul_zero, sub_zero, mul_one, zero_add]
      exact div_pos (hc b hb) hn0
  rw [averageDs_buckets]
  refine ⟨List.pairwise_append.mpr ⟨?_, ?_, fun b hb d hd => ?_⟩, fun b hb => ?_, fun b hb => ?_⟩
  · refine List.pairwise_map.mpr (hds.sorted.imp fun hbd => ?_)
    exact add_le_add_left (mul_le_mul_of_nonneg_right hbd hk0) _
  · unfold zeroBuckets
    split
    · exact List.pairwise_singleton _ _
    · exact .nil
  · obtain ⟨b0, hb0, rfl⟩ := List.mem_map.mp hb
    obtain ⟨-, rfl⟩ := mem_zeroBuckets hd
    exact le_add_of_nonneg_left (mul_nonneg (hds.degree_pos b0 hb0).le hk0)
  · rcases List.mem_append.mp hb with hb | hb
    · obtain ⟨b0, hb0, rfl⟩ := List.mem_map.mp hb
      exact hpulled b0 hb0
    · obtain ⟨⟨-, hpos⟩, rfl⟩ := mem_zeroBuckets hb
      exact hpos
  · rcases List.mem_append.mp hb with hb | hb
    · obtain ⟨b0, hb0, rfl⟩ := List.mem_map.mp hb
      exact hds.count_nonneg b0 hb0
    · obtain ⟨⟨hpos, -⟩, rfl⟩ := mem_zeroBuckets hb
      exact hpos.le

include hds hc0 hc h1 hn hk0 hk in
/-- The rows, and the even share of the cardinality. -/
theorem sum_averageDs : (expand (averageDs c n k ds).buckets).sum =
    (expand ds.buckets).sum * k + c * (1 - k) := by
  have hn0 : (n : K) ≠ 0 := by exact_mod_cast (show n ≠ 0 by omega)
  have hdesc := averageDs_descending hds hc0 hc h1 hk0 hk
  have hpulled : ((ds.buckets.map (pullBucket c n k)).map fun b => (b.count : K) * b.maxDegree).sum =
      (expand ds.buckets).sum * k + (ds.getNDV : K) * average c n k := by
    have hrows := sum_map_expand (id : K → K) hds.count_nonneg
    rw [List.map_id] at hrows
    rw [hrows, DegreeSequence.getNDV, List.map_map]
    generalize ds.buckets = l
    induction l with
    | nil => simp
    | cons b l ih =>
      simp only [List.map_cons, List.sum_cons, Function.comp_apply, ih, pullBucket, id_eq]
      push_cast
      ring
  have hrows := sum_map_expand (id : K → K) hdesc.count_nonneg
  rw [List.map_id] at hrows
  rw [hrows, averageDs_buckets]
  simp only [id_eq, List.map_append, List.sum_append, hpulled,
    sum_zeroBuckets hn (average_nonneg hc0 h1 hk), average]
  push_cast
  field_simp
  ring

include hds hc0 hc h1 hn hk0 hk in
theorem length_averageDs : ((expand (averageDs c n k ds).buckets).length : ℤ) ≤ n := by
  have hzero : ((zeroBuckets c n k ds).map (·.count)).sum ≤ n - ds.getNDV := by
    unfold zeroBuckets
    split
    · simp
    · simpa using hn
  have hpulled : ((ds.buckets.map (pullBucket c n k)).map (·.count)).sum = ds.getNDV := by
    rw [List.map_map]
    rfl
  rw [← getNDV_eq_length _ (averageDs_descending hds hc0 hc h1 hk0 hk).count_nonneg,
    DegreeSequence.getNDV, averageDs_buckets, List.map_append, List.sum_append, hpulled]
  omega

end Average

/-! ## Degrees below one -/

section Normalize

variable {l : List (Bucket K)} {b : Bucket K}

section

omit [IsStrictOrderedRing K]

theorem one_le_normalizeBucket (b : Bucket K) : 1 ≤ (normalizeBucket b).maxDegree := by
  unfold normalizeBucket
  split
  · exact le_rfl
  · next h => exact not_lt.mp h

theorem normalize_descending (h : Descending l) : Descending (l.map normalizeBucket) := by
  refine ⟨List.pairwise_map.mpr (h.sorted.imp fun {b d} hbd => ?_), fun b hb => ?_, fun b hb => ?_⟩
  · by_cases hd : d.maxDegree < 1
    · have hone : (normalizeBucket d).maxDegree = 1 := by rw [normalizeBucket, if_pos hd]
      rw [hone]
      exact one_le_normalizeBucket b
    · rw [normalizeBucket, normalizeBucket, if_neg hd, if_neg fun hb => hd (hbd.trans_lt hb)]
      exact hbd
  · obtain ⟨b0, -, rfl⟩ := List.mem_map.mp hb
    exact zero_lt_one.trans_le (one_le_normalizeBucket b0)
  · obtain ⟨b0, hb0, rfl⟩ := List.mem_map.mp hb
    unfold normalizeBucket
    split
    · exact zero_le_one.trans (le_max_left _ _)
    · exact h.count_nonneg b0 hb0

end

/-- Below one every prefix is covered by as many ones. -/
theorem pre_le_normalize_of_lt (h : Descending l) (hlt : ∀ b ∈ l, b.maxDegree < 1) (n : ℕ) :
    pre (seq l) n ≤ pre (seq (l.map normalizeBucket)) n := by
  have hones : ∀ x ∈ expand (l.map normalizeBucket), x = 1 := by
    intro x hx
    obtain ⟨b, hb, -, rfl⟩ := mem_expand.mp hx
    obtain ⟨b0, hb0, rfl⟩ := List.mem_map.mp hb
    rw [normalizeBucket, if_pos (hlt b0 hb0)]
  have hpre : pre (seq (l.map normalizeBucket)) n =
      ((min n (expand (l.map normalizeBucket)).length : ℕ) : K) := by
    rw [seq, pre_entry, List.eq_replicate_of_mem fun x hx => hones x (List.mem_of_mem_take hx),
      List.length_take, List.sum_replicate, nsmul_one]
  have hlen : (expand l).sum ≤ ((expand (l.map normalizeBucket)).length : K) := by
    have hsum : (expand (l.map normalizeBucket)).sum =
        ((expand (l.map normalizeBucket)).length : K) := by
      rw [List.eq_replicate_of_mem hones, List.sum_replicate, List.length_replicate, nsmul_one]
    have hle := le_getCard_normalizeDs (⟨l, []⟩ : DegreeSequence K)
    rw [← hsum, ← getCard_eq_sum ⟨l, []⟩ h.count_nonneg]
    rwa [getCard_eq_sum (normalizeDs ⟨l, []⟩) (normalize_descending h).count_nonneg] at hle
  rw [hpre, Nat.cast_min]
  apply le_min _ ((pre_seq_le_sum h n).trans hlen)
  calc pre (seq l) n ≤ ∑ _i ∈ range n, (1 : K) := by
        refine sum_le_sum fun i _ => ?_
        rcases lt_or_ge i (expand l).length with hi | hi
        · obtain ⟨b, hb, -, heq⟩ := mem_expand.mp (List.getElem_mem hi)
          rw [seq, entry_of_lt hi, ← heq]
          exact (hlt b hb).le
        · rw [seq, entry_of_le hi]
          exact zero_le_one
    _ = (n : K) := by rw [sum_const, card_range, nsmul_one]

/-- Normalising moves rows to the front. -/
theorem pre_le_normalize (h : Descending l) (n : ℕ) :
    pre (seq l) n ≤ pre (seq (l.map normalizeBucket)) n := by
  induction l generalizing n with
  | nil => exact le_rfl
  | cons b l ih =>
    by_cases hb : b.maxDegree < 1
    · apply pre_le_normalize_of_lt h
      intro d hd
      rcases List.mem_cons.mp hd with rfl | hd
      · exact hb
      · exact (h.le_head d hd).trans_lt hb
    · have hsame : normalizeBucket b = b := if_neg hb
      rw [List.map_cons, hsame]
      rcases le_total n b.count.toNat with hn | hn
      · rw [pre_seq_cons_of_le b l hn, pre_seq_cons_of_le b _ hn]
      · have hc := h.count_nonneg b (.head _)
        rw [pre_seq_cons_of_ge b l hc hn, pre_seq_cons_of_ge b _ hc hn]
        exact add_le_add_right (ih h.tail _) _

end Normalize

/-! ## The product of two averaged sequences -/

/-- What makes a sequence ready to be averaged over `n` tuples of a table of `c` rows. -/
structure Spreadable (c : K) (n : ℤ) (ds : DegreeSequence K) : Prop where
  descending : Descending ds.buckets
  count_pos : ∀ b ∈ ds.buckets, 0 < b.count
  sum_le : (expand ds.buckets).sum ≤ c
  length_le : ds.getNDV ≤ n

namespace Spreadable

variable {ds : DegreeSequence K} {c : K} {n : ℤ}

section

omit [FloorRing K]

theorem card_nonneg (h : Spreadable c n ds) : 0 ≤ c :=
  (List.sum_nonneg fun x hx => (h.descending.expand_pos x hx).le).trans h.sum_le

theorem card_pos (h : Spreadable c n ds) : ∀ b ∈ ds.buckets, 0 < c := by
  intro b hb
  have hmem : b.maxDegree ∈ expand ds.buckets := mem_expand.mpr ⟨b, hb, h.count_pos b hb, rfl⟩
  have hle := List.single_le_sum (fun x hx => (h.descending.expand_pos x hx).le) _ hmem
  exact (h.descending.degree_pos b hb).trans_le (hle.trans h.sum_le)

end

end Spreadable

/-- The sequence a class is merged with. -/
def readyDs (c : K) (n : ℤ) (k : K) (ds : DegreeSequence K) : DegreeSequence K :=
  normalizeDs (averageDs c n k ds)

theorem readyDs_descending {ds : DegreeSequence K} {c k : K} {n : ℤ} (h : Spreadable c n ds)
    (h1 : 1 ≤ n) (hk0 : 0 ≤ k) (hk : k ≤ 1) : Descending (readyDs c n k ds).buckets :=
  normalize_descending (averageDs_descending h.descending h.card_nonneg h.card_pos h1 hk0 hk)

section Products

variable {ds1 ds2 : DegreeSequence K} {c1 c2 k : K} {n : ℤ}

/-- What is at least the product of the rows over the tuples. -/
theorem uniform_le_products (hs1 : Spreadable c1 n ds1) (hs2 : Spreadable c2 n ds2) (h1 : 1 ≤ n)
    (hk0 : 0 ≤ k) (hk : k ≤ 1) :
    (expand ds1.buckets).sum * (expand ds2.buckets).sum / (n : K) ≤
      (spread (products (alignRuns (readyDs c1 n k ds1) (readyDs c2 n k ds2)))).sum := by
  have facts : ∀ {c : K} {ds : DegreeSequence K}, Spreadable c n ds →
      Descending (averageDs c n k ds).buckets ∧
      (expand ds.buckets).sum ≤ pre (seq (averageDs c n k ds).buckets) n.toNat := by
    intro c ds h
    have hlen := length_averageDs h.descending h.card_nonneg h.card_pos h1 h.length_le hk0 hk
    refine ⟨averageDs_descending h.descending h.card_nonneg h.card_pos h1 hk0 hk, ?_⟩
    rw [pre_seq_of_le (by omega),
      sum_averageDs h.descending h.card_nonneg h.card_pos h1 h.length_le hk0 hk]
    have := mul_le_mul_of_nonneg_right h.sum_le (sub_nonneg.mpr hk)
    linarith
  obtain ⟨hd1, hle1⟩ := facts hs1
  obtain ⟨hd2, hle2⟩ := facts hs2
  set x1 := (averageDs c1 n k ds1).buckets with hx1
  set x2 := (averageDs c2 n k ds2).buckets with hx2
  have hy1 := normalize_descending hd1
  have hy2 := normalize_descending hd2
  set y1 := x1.map normalizeBucket with hy1'
  set y2 := x2.map normalizeBucket with hy2'
  set M := n.toNat + min (expand y1).length (expand y2).length with hM
  have hn0 : (0 : K) < n := by exact_mod_cast h1
  have hcast : ((n.toNat : ℕ) : K) = (n : K) := toNat_cast (by omega)
  -- Chebyshev's inequality for the averaged sequences
  have hcheb : pre (seq x1) n.toNat * pre (seq x2) n.toNat ≤
      (n : K) * ∑ i ∈ range n.toNat, seq x1 i * seq x2 i := by
    have hmono : Monovary (seq x1) (seq x2) := hd1.seq_antitone.monovary hd2.seq_antitone
    have := (hmono.monovaryOn (range n.toNat)).sum_mul_sum_le_card_mul_sum
    rwa [card_range, hcast] at this
  have hprod : (spread (products (alignRuns (readyDs c1 n k ds1) (readyDs c2 n k ds2)))).sum =
      ∑ i ∈ range M, seq y1 i * seq y2 i :=
    sum_spread_products hy1.count_nonneg hy2.count_nonneg (Nat.le_add_left _ _)
  have h0 : (0 : K) ≤ (expand ds2.buckets).sum :=
    List.sum_nonneg fun x hx => (hs2.descending.expand_pos x hx).le
  rw [hprod, div_le_iff₀ hn0, mul_comm _ (n : K)]
  calc (expand ds1.buckets).sum * (expand ds2.buckets).sum
      ≤ pre (seq x1) n.toNat * pre (seq x2) n.toNat :=
        mul_le_mul hle1 hle2 h0 (pre_nonneg hd1.seq_nonneg _)
    _ ≤ (n : K) * ∑ i ∈ range n.toNat, seq x1 i * seq x2 i := hcheb
    _ ≤ (n : K) * ∑ i ∈ range M, seq x1 i * seq x2 i := by
        apply mul_le_mul_of_nonneg_left _ hn0.le
        apply sum_le_sum_of_subset_of_nonneg (range_mono (Nat.le_add_right _ _))
        exact fun i _ _ => mul_nonneg (hd1.seq_nonneg i) (hd2.seq_nonneg i)
    _ ≤ (n : K) * ∑ i ∈ range M, seq x1 i * seq y2 i := by
        apply mul_le_mul_of_nonneg_left _ hn0.le
        exact sum_mul_le_of_pre_le hd1.seq_antitone hd1.seq_nonneg fun m _ => pre_le_normalize hd2 m
    _ ≤ (n : K) * ∑ i ∈ range M, seq y1 i * seq y2 i := by
        apply mul_le_mul_of_nonneg_left _ hn0.le
        have := sum_mul_le_of_pre_le (n := M) hy2.seq_antitone hy2.seq_nonneg
          fun m _ => pre_le_normalize hd1 m
        simpa only [mul_comm] using this

end Products

/-! ## The statistic a class is merged as -/

section Statistic

variable {st new : DSStatistic K} {ndv : OrdMap String ℤ} {k : K} {t : Table} {n : ℤ}

/-- `adjustToAverage` and `normalizeSubOneDegrees`. -/
def ready (st : DSStatistic K) (ndv : OrdMap String ℤ) (k : K) : DSStatistic K :=
  (st.averaged ndv k).limitAllDsToCard.normalizeSubOneDegrees

section

omit [IsStrictOrderedRing K]

theorem Keyed.normalizeSubOneDegrees (h : st.Keyed) : st.normalizeSubOneDegrees.Keyed :=
  ⟨(h.forTables _).nodup, (h.forTables _).isSome_iff⟩

theorem Keyed.ready (h : st.Keyed) (ndv : OrdMap String ℤ) (k : K) : (st.ready ndv k).Keyed :=
  ((h.averaged ndv k).limitAllDsToCard).normalizeSubOneDegrees

theorem ready_tables (st : DSStatistic K) (ndv : OrdMap String ℤ) (k : K) :
    (st.ready ndv k).tables = st.tables := by
  have h1 := (keeps_averaged st ndv k).tables
  have h2 := (keeps_limitAllDsToCard (st.averaged ndv k)).tables
  have h3 := (keeps_normalizeSubOneDegrees (st.averaged ndv k).limitAllDsToCard).tables
  exact h3.trans (h2.trans h1)

end

/-- The rows are not cut. -/
theorem dsOf_ready (hk : st.Keyed) (ht : t ∈ st.tables) (hn : ndv.find? t = some n) (h1 : 1 ≤ n)
    (hs : Spreadable st.card n (st.dsOf t)) (hk0 : 0 ≤ k) (hk1 : k ≤ 1) :
    (st.ready ndv k).dsOf t = readyDs st.card n k (st.dsOf t) := by
  have hlim : limitDsToCard (averageDs st.card n k (st.dsOf t)) st.card =
      averageDs st.card n k (st.dsOf t) := by
    have hd := averageDs_descending hs.descending hs.card_nonneg hs.card_pos h1 hk0 hk1
    have hsum := sum_averageDs hs.descending hs.card_nonneg hs.card_pos h1 hs.length_le hk0 hk1
    have hrows := sum_map_expand (id : K → K) hd.count_nonneg
    rw [List.map_id] at hrows
    have hle := mul_le_mul_of_nonneg_right hs.sum_le hk0
    unfold limitDsToCard
    rw [limitBuckets_of_le]
    · intro b hb
      exact mul_nonneg (by exact_mod_cast hd.count_nonneg b hb) (hd.degree_pos b hb).le
    · rw [zero_add]
      refine hrows.symm.le.trans ?_
      rw [hsum]
      linarith
  have hka := hk.averaged ndv k
  have hmem : t ∈ (st.averaged ndv k).tables := by rwa [(keeps_averaged st ndv k).tables]
  have hmem' : t ∈ (st.averaged ndv k).limitAllDsToCard.tables := by
    rwa [(keeps_limitAllDsToCard _).tables]
  have hnorm : (st.ready ndv k).dsOf t =
      normalizeDs ((st.averaged ndv k).limitAllDsToCard.dsOf t) :=
    dsOf_forTables (fun _ ds => normalizeDs ds) hka.limitAllDsToCard hmem'
  rw [hnorm, dsOf_limitAllDsToCard hka hmem, dsOf_averaged hk ht, hn, averaged_card,
    Option.getD_some, hlim]
  rfl

end Statistic

end DSStatistic

end StarCE
