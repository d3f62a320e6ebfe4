import StarCE.Stat.Adjust
import StarCE.Stat.Align
import StarCE.Stat.Merge

/-!
# Filtered rows as a statistic

`PredMethod` 0 turns `f` filtered rows out of `n` into a statistic of one
table: `f` tuples of degree one, pulled toward their average over `n` tuples by
a rate `k`. Rank-wise products with it weigh the first `f` ranks with `k` and
every rank with the uniform share (`sum_products_filtered`).
-/

namespace StarCE

variable {K : Type} [Field K] [LinearOrder K] [FloorRing K]

/-- What a tuple gets of `f` rows spread evenly over `n` tuples, at the rate `k`. -/
def evenShare (f n : ℤ) (k : K) : K := (f : K) / (n : K) * (1 - k)

/-- The sequence of the filtered rows. -/
def filteredBuckets (f n : ℤ) (k : K) : List (Bucket K) :=
  ⟨k + evenShare f n k, f⟩ ::
    if 0 < n - f ∧ 0 < evenShare f n k then [⟨evenShare f n k, n - f⟩] else []

/-- The sum of the `k` largest members. -/
def sumLargest (k : ℕ) (l : List K) : K := ((l.mergeSort fun x y => decide (y ≤ x)).take k).sum

namespace DSStatistic

theorem truncate_intCast [IsStrictOrderedRing K] (n : ℤ) : truncate (n : K) = n := by
  unfold truncate
  split
  · exact Int.floor_intCast n
  · exact Int.ceil_intCast n

theorem addDegree_one (f : ℤ) (p : K) [IsStrictOrderedRing K] :
    ((∅ : DegreeSequence K).addDegree 1 f p).buckets = [⟨1, f⟩] := by
  have hpos : bucketPos (1 : K) p = 0 := by rw [bucketPos, if_neg (lt_irrefl _)]
  simp [DegreeSequence.addDegree, hpos, grow, show (∅ : DegreeSequence K).buckets = [] from rfl]

variable [IsStrictOrderedRing K] {f n : ℤ} {k : K}

omit [FloorRing K] [IsStrictOrderedRing K] in
theorem averageDs_single {ds : DegreeSequence K} (hds : ds.buckets = [⟨1, f⟩]) :
    (averageDs (f : K) n k ds).buckets = filteredBuckets f n k := by
  unfold averageDs filteredBuckets evenShare
  simp only [hds, List.map_cons, List.map_nil, List.sum_cons, List.sum_nil, add_zero, one_mul]
  split <;> rfl

end DSStatistic

section Filtered

variable [IsStrictOrderedRing K] {f n : ℤ} {k : K}

theorem evenShare_nonneg (hf : 0 ≤ f) (hn : 1 ≤ n) (hk : k ≤ 1) : 0 ≤ evenShare f n k := by
  have hfK : (0 : K) ≤ f := by exact_mod_cast hf
  have hnK : (0 : K) ≤ n := by exact_mod_cast zero_le_one.trans hn
  exact mul_nonneg (div_nonneg hfK hnK) (by linarith)

/-- An absent second bucket has degree zero or no tuples. -/
theorem rest_filteredBuckets (hf : 0 ≤ f) (hn : 1 ≤ n) (hfn : f ≤ n) (hk : k ≤ 1) :
    (filteredBuckets f n k = [⟨k + evenShare f n k, f⟩, ⟨evenShare f n k, n - f⟩]) ∨
      (filteredBuckets f n k = [⟨k + evenShare f n k, f⟩] ∧ (f = n ∨ evenShare f n k = 0)) := by
  have h0 := evenShare_nonneg hf hn hk
  unfold filteredBuckets
  split
  · exact .inl rfl
  · next h =>
    refine .inr ⟨rfl, ?_⟩
    by_contra hc
    rw [not_or] at hc
    exact h ⟨by omega, lt_of_le_of_ne h0 (Ne.symm hc.2)⟩

theorem filteredBuckets_nonneg (hf : 0 ≤ f) (hn : 1 ≤ n) (hfn : f ≤ n) (hk0 : 0 ≤ k) (hk : k ≤ 1) :
    ∀ b ∈ filteredBuckets f n k, 0 ≤ b.count ∧ 0 ≤ b.maxDegree := by
  have h0 := evenShare_nonneg hf hn hk
  have h1 : 0 ≤ k + evenShare f n k := add_nonneg hk0 h0
  rcases rest_filteredBuckets hf hn hfn hk with h | ⟨h, -⟩
  · rw [h]
    simp only [List.forall_mem_cons, List.not_mem_nil, false_imp_iff, implies_true, and_true]
    exact ⟨⟨hf, h1⟩, by omega, h0⟩
  · rw [h]
    simp only [List.forall_mem_cons, List.not_mem_nil, false_imp_iff, implies_true, and_true]
    exact ⟨hf, h1⟩

/-- Averaging keeps the number of rows. -/
theorem sum_filteredBuckets (hf : 0 ≤ f) (hn : 1 ≤ n) (hfn : f ≤ n) (hk : k ≤ 1) :
    ((filteredBuckets f n k).map fun b => (b.count : K) * b.maxDegree).sum = f := by
  have hnK : (n : K) ≠ 0 := by exact_mod_cast (show n ≠ 0 by omega)
  have htotal : (f : K) * (k + evenShare f n k) + ((n - f : ℤ) : K) * evenShare f n k = f := by
    rw [evenShare]
    push_cast
    field_simp
    ring
  rcases rest_filteredBuckets hf hn hfn hk with h | ⟨h, h'⟩
  · rw [h]
    simpa using htotal
  · rw [h]
    have hz : ((n - f : ℤ) : K) * evenShare f n k = 0 := by
      rcases h' with rfl | h'
      · simp
      · rw [h', mul_zero]
    rw [hz, add_zero] at htotal
    simpa using htotal

theorem entry_filteredBuckets (hf : 0 ≤ f) (hn : 1 ≤ n) (hfn : f ≤ n) (hk : k ≤ 1) {i : ℕ}
    (hi : i < n.toNat) :
    entry (expand (filteredBuckets f n k)) i =
      (if i < f.toNat then k else 0) + evenShare f n k := by
  rcases rest_filteredBuckets hf hn hfn hk with h | ⟨h, h'⟩
  · rw [h]
    by_cases hif : i < f.toNat
    · simp [entry, hif, List.getElem?_append_left]
    · have hlt : i - f.toNat < (n - f).toNat := by omega
      simp [entry, hif, List.getD_eq_getElem?_getD, List.getElem?_append_right, not_lt.mp hif, hlt]
  · rw [h]
    by_cases hif : i < f.toNat
    · simp [entry, hif]
    · have hz : evenShare f n k = 0 := by
        rcases h' with rfl | h'
        · exact absurd hi hif
        · exact h'
      rw [if_neg hif, hz, entry_of_le (by simpa using hif)]
      simp

/-- Rank by rank, the first `f` degrees are weighed with the rate and all with the even share. -/
theorem sum_products_filtered {ds1 ds2 : DegreeSequence K} (hd : Descending ds1.buckets)
    (h2 : ds2.buckets = filteredBuckets f n k) (hlen : ds1.getNDV ≤ n) (hf : 0 ≤ f) (hn : 1 ≤ n)
    (hfn : f ≤ n) (hk0 : 0 ≤ k) (hk : k ≤ 1) :
    (spread (products (alignRuns ds1 ds2))).sum =
      k * sumLargest f.toNat (expand ds1.buckets) +
        (1 - k) * ((f : K) / (n : K)) * (expand ds1.buckets).sum := by
  have hc2 : ∀ b ∈ ds2.buckets, 0 ≤ b.count := fun b hb =>
    (filteredBuckets_nonneg hf hn hfn hk0 hk b (h2 ▸ hb)).1
  rw [getNDV_eq_length _ hd.count_nonneg] at hlen
  have hle : (expand ds1.buckets).length ≤ n.toNat := by omega
  have hlargest : sumLargest f.toNat (expand ds1.buckets) = pre (seq ds1.buckets) f.toNat := by
    rw [sumLargest, List.mergeSort_of_pairwise (by simpa using hd.expand_sorted), seq, pre_entry]
  have hall : pre (seq ds1.buckets) n.toNat = (expand ds1.buckets).sum := pre_seq_of_le hle
  have hsplit : pre (seq ds1.buckets) f.toNat =
      ∑ i ∈ Finset.range n.toNat, if i < f.toNat then seq ds1.buckets i else 0 := by
    rw [← Finset.sum_filter, pre]
    refine Finset.sum_congr (Finset.ext fun i => ?_) fun _ _ => rfl
    simp only [Finset.mem_range, Finset.mem_filter]
    omega
  rw [sum_spread_products hd.count_nonneg hc2 (le_trans (min_le_left _ _) hle), hlargest, hsplit,
    ← hall, pre, pre, Finset.mul_sum, Finset.mul_sum, ← Finset.sum_add_distrib]
  refine Finset.sum_congr rfl fun i hi => ?_
  rw [rankProduct, h2, entry_filteredBuckets hf hn hfn hk (Finset.mem_range.mp hi), evenShare, seq]
  split <;> ring

end Filtered

end StarCE
