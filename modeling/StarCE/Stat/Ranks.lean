import StarCE.Stat.Averaged
import StarCE.Stat.Compressed

/-!
# The largest degrees

What the operations on a degree sequence do to the sums of its `k` largest
degrees. A collection dominates the added degrees (`collected_ranks`), the
truncation caps the sums at the cardinality (`limitDsToCard_ranks`), and
`adjustToAverage` interpolates between them and an even spread
(`adjustToAverage_ranks`).
-/

namespace StarCE

open Finset DSStatistic

variable {K : Type} [Field K] [LinearOrder K] [FloorRing K] [IsStrictOrderedRing K]

omit [FloorRing K] [IsStrictOrderedRing K] in
/-- The largest entries of a non-increasing sequence are its first ones. -/
theorem sumLargest_expand {l : List (Bucket K)} (h : Descending l) (k : ℕ) :
    sumLargest k (expand l) = pre (seq l) k := by
  rw [sumLargest, List.mergeSort_of_pairwise (by simpa using h.expand_sorted), seq, pre_entry]

omit [FloorRing K] in
theorem sumLargest_le_pre {g : ℕ → K} {bag : List K} (hg : ∀ i, 0 ≤ g i) (h : BagDominates g bag)
    (k : ℕ) : sumLargest k bag ≤ pre g k := by
  set s := bag.mergeSort fun x y => decide (y ≤ x) with hs
  have hle : ((s.take k : List K) : Multiset K) ≤ bag :=
    (coe_take_le s k).trans (Multiset.coe_eq_coe.mpr (List.mergeSort_perm bag _)).le
  have hsum := h _ hle
  rw [Multiset.sum_coe, Multiset.coe_card] at hsum
  refine hsum.trans (pre_mono hg ?_)
  rw [List.length_take]
  exact min_le_left _ _

/-! ## Collections -/

section Collection

variable {p : K} {calls : List (K × ℤ)}

/-- The number of positive degrees. -/
def positiveCount (calls : List (K × ℤ)) : K :=
  (calls.map fun c => if 0 < c.1 then (c.2 : K) else 0).sum

theorem positiveCount_eq (hc : ∀ c ∈ calls, 0 ≤ c.2) :
    positiveCount calls = (((spread calls).filter (0 < ·)).length : K) := by
  induction calls with
  | nil => simp [positiveCount]
  | cons c l ih =>
    have hl := ih fun d hd => hc d (.tail _ hd)
    rw [positiveCount, List.map_cons, List.sum_cons, ← positiveCount, hl, spread_cons,
      List.filter_append, List.length_append, Nat.cast_add, List.filter_replicate]
    by_cases h0 : 0 < c.1
    · simp [h0, toNat_cast (hc c (.head _))]
    · simp [h0]

/-- A bucket keeps no more rows than it was given positive degrees. -/
theorem cell_count_le {b : Bucket K} (h : Calls calls) (hb : cellOf calls = some b) :
    (b.count : K) ≤ positiveCount calls := by
  obtain ⟨-, hpos, -, hcount⟩ := cellOf_eq_some hb
  have htotal : totalDegree calls ≤ positiveCount calls * topDegree calls := by
    rw [totalDegree, positiveCount, ← List.sum_map_mul_right]
    refine List.sum_le_sum fun c hc => ?_
    have hn : (0 : K) ≤ c.2 := by exact_mod_cast h.count_nonneg c hc
    split
    · rw [mul_comm]
      exact mul_le_mul_of_nonneg_left (le_topDegree hc) hn
    · next h0 =>
      rw [zero_mul]
      exact mul_nonpos_of_nonpos_of_nonneg (not_lt.mp h0) hn
  obtain ⟨n, hn⟩ : ∃ n : ℤ, positiveCount calls = n :=
    ⟨_, by rw [positiveCount_eq h.count_nonneg]; exact (Int.cast_natCast _).symm⟩
  rw [hn] at htotal ⊢
  have hceil : ⌈totalDegree calls / topDegree calls⌉ ≤ n := by
    rw [Int.ceil_le]
    exact (div_le_iff₀ hpos).mpr htotal
  rw [hcount]
  exact_mod_cast (min_le_left _ _).trans hceil

/-- Rounding up adds less than one row of the bucket's degree. -/
theorem cell_card_le {b : Bucket K} (hb : cellOf calls = some b) :
    (b.count : K) * b.maxDegree ≤ totalDegree calls + b.maxDegree := by
  obtain ⟨-, hpos, hM, hcount⟩ := cellOf_eq_some hb
  have hle : (b.count : K) ≤ totalDegree calls / topDegree calls + 1 := by
    rw [hcount]
    refine le_trans ?_ (Int.ceil_lt_add_one _).le
    exact_mod_cast min_le_left _ _
  rw [hM]
  calc (b.count : K) * topDegree calls
      ≤ (totalDegree calls / topDegree calls + 1) * topDegree calls :=
        mul_le_mul_of_nonneg_right hle hpos.le
    _ = totalDegree calls + topDegree calls := by field_simp

theorem totalDegree_nonneg (h : Calls calls) : 0 ≤ totalDegree calls :=
  List.sum_nonneg fun x hx => by
    obtain ⟨c, hc, rfl⟩ := List.mem_map.mp hx
    exact mul_nonneg (h.degree_nonneg c hc) (by exact_mod_cast h.count_nonneg c hc)

theorem positiveCount_nonneg (h : Calls calls) : 0 ≤ positiveCount calls := by
  rw [positiveCount_eq h.count_nonneg]
  exact Nat.cast_nonneg _

/-- What a collection keeps of some degrees: a strictly decreasing sequence that only depends on
their bag, has no more entries than there were positive degrees, dominates them rank by rank and
exceeds their total by at most its own distinct degrees. -/
theorem collected_ranks (p : K) (hcalls : ∀ c ∈ calls, 0 ≤ c.1 ∧ 1 ≤ c.2) :
    ∃ ds, ((∅ : DegreeSequence K).addDegrees calls p).finishCollection = ds ∧
      ds.buckets.Pairwise (fun b c => c.maxDegree < b.maxDegree) ∧
      (∀ b ∈ ds.buckets, 0 < b.maxDegree ∧ 0 < b.count) ∧
      (∀ calls' : List (K × ℤ), (∀ c ∈ calls', 0 ≤ c.1 ∧ 1 ≤ c.2) →
        (spread calls').Perm (spread calls) →
        ((∅ : DegreeSequence K).addDegrees calls' p).finishCollection = ds) ∧
      ds.getNDV ≤ ((spread calls).filter (0 < ·)).length ∧
      (∀ k, sumLargest k (spread calls) ≤ sumLargest k (expand ds.buckets)) ∧
      ds.getCard ≤ (spread calls).sum + (ds.buckets.map (·.maxDegree)).sum := by
  have hpos : ∀ {l : List (K × ℤ)}, (∀ c ∈ l, 0 ≤ c.1 ∧ 1 ≤ c.2) → PosCounts l := fun h c hc =>
    zero_lt_one.trans_le (h c hc).2
  have hc : Calls calls :=
    ⟨fun c hm => (hcalls c hm).1, fun c hm => zero_le_one.trans (hcalls c hm).2⟩
  have hd := compress_descending p hc
  obtain ⟨n, hn⟩ := exists_bucketPos_lt p calls
  refine ⟨⟨compress p calls, []⟩, finishCollection_eq_mk _, compress_strict p calls,
    fun b hb => ⟨compress_pos hb, compress_count_pos (hpos hcalls) hc.degree_nonneg hb⟩,
    fun calls' h' hperm => ?_, ?_, fun k => ?_, ?_⟩
  · rw [finishCollection_eq_mk]
    show (⟨compress p calls', []⟩ : DegreeSequence K) = _
    rw [compress_congr (hpos h') (hpos hcalls) hperm]
  · have hle : ((compress p calls).map fun b => (b.count : K)).sum ≤ positiveCount calls := by
      rw [sum_compress _ hn, positiveCount, sum_inBucket _ hn]
      refine sum_le_sum fun i _ => ?_
      cases hb : cellOf (inBucket p i calls) with
      | none => exact positiveCount_nonneg (hc.inBucket i)
      | some b =>
        rw [Option.toList_some, List.map_singleton, List.sum_singleton]
        exact cell_count_le (hc.inBucket i) hb
    rw [positiveCount_eq hc.count_nonneg] at hle
    have hcast : ((compress p calls).map fun b => (b.count : K)).sum =
        ((((compress p calls).map (·.count)).sum : ℤ) : K) := by
      rw [Int.cast_list_sum, List.map_map]
      rfl
    rw [hcast] at hle
    exact_mod_cast hle
  · rw [sumLargest_expand hd]
    exact sumLargest_le_pre hd.seq_nonneg (compress_dominates p hc) k
  · have hle : ((compress p calls).map fun b => (b.count : K) * b.maxDegree - b.maxDegree).sum ≤
        (calls.map fun c => c.1 * (c.2 : K)).sum := by
      rw [sum_compress _ hn, sum_inBucket _ hn]
      refine sum_le_sum fun i _ => ?_
      cases hb : cellOf (inBucket p i calls) with
      | none => exact totalDegree_nonneg (hc.inBucket i)
      | some b =>
        rw [Option.toList_some, List.map_singleton, List.sum_singleton]
        exact sub_le_iff_le_add.mpr (cell_card_le hb)
    have hsplit : ((compress p calls).map fun b => (b.count : K) * b.maxDegree).sum =
        ((compress p calls).map fun b => (b.count : K) * b.maxDegree - b.maxDegree).sum +
          ((compress p calls).map (·.maxDegree)).sum := by
      rw [← List.sum_map_add]
      simp only [sub_add_cancel]
    rw [← totalDegree, totalDegree_eq (hpos hcalls)] at hle
    exact hsplit.trans_le (add_le_add_left hle _)

/-- Degrees above, below and at zero. -/
def threeCalls : List (ℚ × ℤ) := [(3, 2), (1 / 2, 4), (0, 3)]

theorem collected_ranks_threeCalls : ∃ ds : DegreeSequence ℚ,
    ((∅ : DegreeSequence ℚ).addDegrees threeCalls 2).finishCollection = ds ∧
      ds.buckets = [⟨3, 2⟩, ⟨1 / 2, 4⟩] ∧
      ds.getNDV ≤ ((spread (threeCalls : List (ℚ × ℤ))).filter (0 < ·)).length ∧
      ∀ k, sumLargest k (spread threeCalls) ≤ sumLargest k (expand ds.buckets) := by
  have hcalls : ∀ c ∈ (threeCalls : List (ℚ × ℤ)), 0 ≤ c.1 ∧ 1 ≤ c.2 := by decide +kernel
  obtain ⟨ds, hds, -, -, -, hcount, hdom, -⟩ := collected_ranks 2 hcalls
  refine ⟨ds, hds, ?_, hcount, hdom⟩
  rw [← hds]
  decide +kernel

end Collection

/-! ## Truncation -/

section Truncation

variable {ds : DegreeSequence K} {card : K}

theorem limitDs_of_le (h : Descending ds.buckets) (hle : ds.getCard ≤ card) :
    limitDsToCard ds card = ds := by
  rw [limitDsToCard_eq, limitBuckets_of_le]
  · intro b hb
    exact mul_nonneg (by exact_mod_cast h.count_nonneg b hb) (h.degree_pos b hb).le
  · rw [zero_add]
    exact hle

/-- The truncation caps the prefix sums at the cardinality, up to the tolerance; it leaves alone
what fits, itself included. -/
theorem limitDsToCard_ranks (h : Descending ds.buckets) (hcount : ∀ b ∈ ds.buckets, 1 ≤ b.count)
    (hcard : 0 ≤ card) :
    (∀ k, min (pre (entry (expand ds.buckets)) k) card - rowEps ≤
        pre (entry (expand (limitDsToCard ds card).buckets)) k ∧
      pre (entry (expand (limitDsToCard ds card).buckets)) k ≤
        min (pre (entry (expand ds.buckets)) k) card) ∧
      (limitDsToCard ds card).buckets.Pairwise (fun b c => c.maxDegree ≤ b.maxDegree) ∧
      (∀ b ∈ (limitDsToCard ds card).buckets, 0 < b.maxDegree ∧ 0 < b.count) ∧
      (ds.getCard ≤ card → limitDsToCard ds card = ds) ∧
      limitDsToCard (limitDsToCard ds card) card = limitDsToCard ds card := by
  have hd : Descending (limitDsToCard ds card).buckets := limitDs_descending h
  have hpre : ∀ k, min (pre (seq ds.buckets) k) card - rowEps ≤
      pre (seq (limitDsToCard ds card).buckets) k ∧
      pre (seq (limitDsToCard ds card).buckets) k ≤ min (pre (seq ds.buckets) k) card := fun k => by
    have := pre_limit rowEps_pos.le h hcard k
    rwa [sub_zero] at this
  refine ⟨hpre, hd.sorted, fun b hb => ⟨hd.degree_pos b hb, ?_⟩, limitDs_of_le h, ?_⟩
  · exact limit_count_pos rowEps_pos.le h (fun c hc => zero_lt_one.trans_le (hcount c hc)) b hb
  · apply limitDs_of_le hd
    rw [getCard_eq_sum _ hd.count_nonneg, ← pre_seq_of_le le_rfl]
    exact (hpre _).2.trans (min_le_right _ _)

/-- Ten rows, cut inside the second bucket. -/
theorem limitDsToCard_ranks_eight :
    limitDsToCard (⟨[⟨3, 2⟩, ⟨1, 4⟩], []⟩ : DegreeSequence ℚ) 8 = ⟨[⟨3, 2⟩, ⟨1, 2⟩], []⟩ ∧
      limitDsToCard (limitDsToCard (⟨[⟨3, 2⟩, ⟨1, 4⟩], []⟩ : DegreeSequence ℚ) 8) 8 =
        limitDsToCard ⟨[⟨3, 2⟩, ⟨1, 4⟩], []⟩ 8 := by
  refine ⟨by decide +kernel, ?_⟩
  have h : Descending (⟨[⟨3, 2⟩, ⟨1, 4⟩], []⟩ : DegreeSequence ℚ).buckets :=
    ⟨by decide +kernel, by decide +kernel, by decide +kernel⟩
  have h8 : (0 : ℚ) ≤ 8 := by norm_num
  exact (limitDsToCard_ranks h (by decide +kernel) h8).2.2.2.2

end Truncation

/-! ## The pull toward the average -/

namespace DSStatistic

section Average

variable {ds : DegreeSequence K} {c k : K} {n : ℤ}

omit [LinearOrder K] [FloorRing K] [IsStrictOrderedRing K] in
theorem expand_map_pullBucket (c : K) (n : ℤ) (k : K) (l : List (Bucket K)) :
    expand (l.map (pullBucket c n k)) = (expand l).map fun d => d * k + average c n k := by
  induction l with
  | nil => rfl
  | cons b l ih =>
    rw [List.map_cons, expand_cons, expand_cons, ih, List.map_append, List.map_replicate]
    rfl

/-- What the pull asks of a sequence, and keeps. -/
structure Evenable (c : K) (n : ℤ) (ds : DegreeSequence K) : Prop where
  descending : Descending ds.buckets
  card : ds.getCard = c
  length_le : ds.getNDV ≤ n

theorem Evenable.averageDs (h : Evenable c n ds) (hc : 0 < c) (h1 : 1 ≤ n) (hk0 : 0 ≤ k)
    (hk : k ≤ 1) : Evenable c n (averageDs c n k ds) := by
  have hd := averageDs_descending h.descending hc.le (fun _ _ => hc) h1 hk0 hk
  refine ⟨hd, ?_, ?_⟩
  · rw [getCard_eq_sum _ hd.count_nonneg,
      sum_averageDs h.descending hc.le (fun _ _ => hc) h1 h.length_le hk0 hk,
      ← getCard_eq_sum _ h.descending.count_nonneg, h.card]
    ring
  · rw [getNDV_eq_length _ hd.count_nonneg]
    exact length_averageDs h.descending hc.le (fun _ _ => hc) h1 h.length_le hk0 hk

/-- Rank by rank, the old degree and the even spread. -/
theorem seq_averageDs (h : Evenable c n ds) (hc : 0 < c) (h1 : 1 ≤ n) (hk : k ≤ 1) {i : ℕ}
    (hi : i < n.toNat) :
    seq (averageDs c n k ds).buckets i = seq ds.buckets i * k + average c n k := by
  have hlen := getNDV_eq_length ds h.descending.count_nonneg
  have hsplit : expand (averageDs c n k ds).buckets =
      (expand ds.buckets).map (fun d => d * k + average c n k) ++ expand (zeroBuckets c n k ds) := by
    rw [averageDs_buckets, ← expand_map_pullBucket, expand, List.map_append, spread_append]
    rfl
  unfold seq
  rw [hsplit]
  rcases Nat.lt_or_ge i (expand ds.buckets).length with hlt | hge
  · rw [entry_of_lt hlt, entry_of_lt (by simp; omega), List.getElem_append_left (by simpa using hlt),
      List.getElem_map]
  · rw [entry_of_le hge, zero_mul, zero_add, entry, List.getD_append_right _ _ _ _ (by simpa using hge)]
    have hzero : 0 < n - ds.getNDV := by omega
    rcases (average_nonneg hc.le h1 hk).lt_or_eq with hpos | hz
    · have hb : zeroBuckets c n k ds = [⟨average c n k, n - ds.getNDV⟩] := if_pos ⟨hzero, hpos⟩
      have hexp : expand (zeroBuckets c n k ds) =
          List.replicate (n - ds.getNDV).toNat (average c n k) := by simp [hb]
      rw [hexp, List.getD_replicate]
      rw [List.length_map]
      omega
    · have hb : zeroBuckets c n k ds = [] := if_neg fun hcond => hcond.2.ne hz
      rw [hb, ← hz]
      simp

/-- The sums of the first degrees after `m` pulls. -/
theorem pre_averageDs_iterate (h : Evenable c n ds) (hc : 0 < c) (h1 : 1 ≤ n) (hk0 : 0 ≤ k)
    (hk : k ≤ 1) (m : ℕ) : Evenable c n ((averageDs c n k)^[m] ds) ∧
      ∀ j ≤ n.toNat, pre (seq ((averageDs c n k)^[m] ds).buckets) j =
        k ^ m * pre (seq ds.buckets) j + (1 - k ^ m) * c * j / n := by
  have hn0 : (n : K) ≠ 0 := by exact_mod_cast (show n ≠ 0 by omega)
  induction m with
  | zero => exact ⟨h, fun j _ => by simp⟩
  | succ m ih =>
    obtain ⟨hm, hpre⟩ := ih
    rw [Function.iterate_succ_apply']
    refine ⟨hm.averageDs hc h1 hk0 hk, fun j hj => ?_⟩
    have hsum : pre (seq (averageDs c n k ((averageDs c n k)^[m] ds)).buckets) j =
        pre (seq ((averageDs c n k)^[m] ds).buckets) j * k + j * average c n k := by
      rw [pre, pre, sum_congr rfl fun i hi => seq_averageDs hm hc h1 hk
        ((mem_range.mp hi).trans_le hj), sum_add_distrib, ← sum_mul, sum_const, card_range, nsmul_eq_mul]
    rw [hsum, hpre j hj, average, pow_succ]
    field_simp
    ring

/-- An even spread has no more in its first ranks than a descending sequence of the same rows. -/
theorem even_le_pre (h : Evenable c n ds) (h1 : 1 ≤ n) {j : ℕ} (hj : j ≤ n.toNat) :
    c * j / n ≤ pre (seq ds.buckets) j := by
  have hn0 : (0 : K) < n := by exact_mod_cast h1
  have hlen := getNDV_eq_length ds h.descending.count_nonneg
  have hle := h.length_le
  have hcard : pre (seq ds.buckets) n.toNat = c := by
    rw [pre_seq_of_le (by omega), ← getCard_eq_sum _ h.descending.count_nonneg, h.card]
  have hmul := pre_mul_le_pre_mul h.descending.seq_antitone hj
  rw [hcard, toNat_cast (zero_le_one.trans h1)] at hmul
  exact (div_le_iff₀ hn0).mpr hmul

end Average

variable {st : DSStatistic K} {ndv : OrdMap String ℤ} {k : K}

/-- A table that `tables` lists `m` times is pulled `m` times: its sequence stays non-increasing and
keeps its rows, and the sum of its first `j` degrees becomes the mean, weighted with `k ^ m`, of
what it was and of an even spread. No such sum grows. -/
theorem adjustToAverage_ranks (hcard : 0 < st.card) (hk0 : 0 ≤ k) (hk1 : k ≤ 1)
    (hds : ∀ t ∈ st.tables, ∃ n, ndv.find? t = some n ∧ 1 ≤ n ∧ Evenable st.card n (st.dsOf t)) :
    ∃ new, st.adjustToAverage ndv k = .ok new ∧ new.card = st.card ∧
      ∀ t ∈ st.tables, ∀ n, ndv.find? t = some n →
        (new.dsOf t).buckets.Pairwise (fun b c => c.maxDegree ≤ b.maxDegree) ∧
        (new.dsOf t).getCard = st.card ∧
        (∀ j ≤ n.toNat, sumLargest j (expand (new.dsOf t).buckets) =
          k ^ st.tables.count t * sumLargest j (expand (st.dsOf t).buckets) +
            (1 - k ^ st.tables.count t) * st.card * j / n) ∧
        ∀ j, sumLargest j (expand (new.dsOf t).buckets) ≤
          sumLargest j (expand (st.dsOf t).buckets) := by
  refine ⟨_, adjustToAverage_eq_ok.mpr ⟨fun t ht => ?_, rfl⟩, ?_, fun t ht n hn => ?_⟩
  · obtain ⟨n, hn, -⟩ := hds t ht
    rw [hn]
    rfl
  · rw [limitAllDsToCard_card, averaged_card]
  · obtain ⟨n', hn', h1, heven⟩ := hds t ht
    obtain rfl : n' = n := Option.some.inj (hn'.symm.trans hn)
    obtain ⟨hm, hpre⟩ := pre_averageDs_iterate heven hcard h1 hk0 hk1 (st.tables.count t)
    set new := (averageDs st.card n' k)^[st.tables.count t] (st.dsOf t) with hnew
    have havg : (st.averaged ndv k).dsOf t = new := by
      rw [averaged, forTables_eq, dsOf_onTables_count, hn]
      rfl
    -- the truncation has nothing to cut
    have hidle : ∀ i, (fun ds => limitDsToCard ds st.card)^[i] new = new := fun i =>
      Function.iterate_fixed (limitDs_of_le hm.descending hm.card.le) i
    have hfinal : (st.averaged ndv k).limitAllDsToCard.dsOf t = new := by
      rw [limitAllDsToCard, forTables_eq, dsOf_onTables_count, havg, averaged_card]
      exact hidle _
    rw [hfinal]
    have hle : ∀ j ≤ n'.toNat, pre (seq new.buckets) j ≤ pre (seq (st.dsOf t).buckets) j := by
      intro j hj
      have hpow : k ^ st.tables.count t ≤ 1 := pow_le_one₀ hk0 hk1
      have := mul_le_mul_of_nonneg_left (even_le_pre heven h1 hj) (sub_nonneg.mpr hpow)
      rw [hpre j hj]
      rw [mul_div_assoc, mul_assoc, ← mul_div_assoc]
      linarith
    refine ⟨hm.descending.sorted, hm.card, fun j hj => ?_, fun j => ?_⟩
    · rw [sumLargest_expand hm.descending, sumLargest_expand heven.descending]
      exact hpre j hj
    · rw [sumLargest_expand hm.descending, sumLargest_expand heven.descending]
      rcases le_total j n'.toNat with hj | hj
      · exact hle j hj
      · have hlen : ∀ {ds : DegreeSequence K}, Evenable st.card n' ds →
            pre (seq ds.buckets) j = st.card := fun {ds} hds => by
          have := getNDV_eq_length ds hds.descending.count_nonneg
          have := hds.length_le
          rw [pre_seq_of_le (by omega), ← getCard_eq_sum _ hds.descending.count_nonneg, hds.card]
        rw [hlen hm, hlen heven]

section Example

/-- Two columns of one table make a star that lists it twice; both have one key value, twice in
all. -/
def twiceListed : DSStatistic ℚ :=
  ((ofTables ["t", "t"] 2).addCounts [((∅ : OrdMap Table ℤ).insert "t" 2, 1)]).finishCollection

/-- The number of tuples the example is averaged over. -/
def threeTuples : OrdMap String ℤ := (∅ : OrdMap String ℤ).insert "t" 3

theorem twiceListed_eq : twiceListed.tables = ["t", "t"] ∧ twiceListed.card = 4 ∧
    (twiceListed.dsOf "t").buckets = [⟨2, 2⟩] ∧ threeTuples.find? "t" = some 3 := by
  decide +kernel

theorem evenable_twiceListed : Evenable twiceListed.card 3 (twiceListed.dsOf "t") := by
  obtain ⟨-, hcard, hb, -⟩ := twiceListed_eq
  refine ⟨?_, ?_, ?_⟩
  · rw [hb]
    exact ⟨List.pairwise_singleton _ _, by decide +kernel, by decide +kernel⟩
  · rw [hcard, DegreeSequence.getCard, hb]
    decide +kernel
  · rw [DegreeSequence.getNDV, hb]
    decide

/-- Listed twice, a table is pulled twice. -/
theorem adjustToAverage_listedTwice : ∃ new,
    twiceListed.adjustToAverage threeTuples (1 / 2) = .ok new ∧ 0 < twiceListed.card ∧
      (∀ t ∈ twiceListed.tables, threeTuples.find? t = some 3 ∧
        Evenable twiceListed.card 3 (twiceListed.dsOf t)) ∧
      ¬∀ t ∈ twiceListed.tables, ∀ j ≤ 3, sumLargest j (expand (new.dsOf t).buckets) =
        1 / 2 * sumLargest j (expand (twiceListed.dsOf t).buckets) +
          (1 - 1 / 2) * twiceListed.card * j / 3 := by
  obtain ⟨htables, hcard, hb, hn⟩ := twiceListed_eq
  have hok : (twiceListed.adjustToAverage threeTuples (1 / 2)).map (fun new =>
      (new.dsOf "t").buckets) = .ok [⟨3 / 2, 2⟩, ⟨1, 1⟩] := by decide +kernel
  cases hnew : twiceListed.adjustToAverage threeTuples (1 / 2) with
  | error e =>
    rw [hnew] at hok
    cases hok
  | ok new =>
    rw [hnew] at hok
    have hbuckets : (new.dsOf "t").buckets = [⟨3 / 2, 2⟩, ⟨1, 1⟩] := Except.ok.inj hok
    refine ⟨new, rfl, by rw [hcard]; norm_num, fun t ht => ?_, fun h => ?_⟩
    · obtain rfl : t = "t" := by simpa [htables] using ht
      exact ⟨hn, evenable_twiceListed⟩
    · have hone := h "t" (by rw [htables]; exact .head _) 1 (by decide)
      have hd : Descending [(⟨3 / 2, 2⟩ : Bucket ℚ), ⟨1, 1⟩] :=
        ⟨by decide +kernel, by decide +kernel, by decide +kernel⟩
      rw [hbuckets, sumLargest_expand hd, sumLargest_expand evenable_twiceListed.descending, hb,
        hcard, pre_seq_cons_of_le _ _ (by decide), pre_seq_cons_of_le _ _ (by decide)] at hone
      norm_num at hone

theorem adjustToAverage_ranks_twiceListed : ∃ new,
    twiceListed.adjustToAverage threeTuples (1 / 2) = .ok new ∧ new.card = 4 ∧
      (new.dsOf "t").getCard = 4 ∧ sumLargest 1 (expand (new.dsOf "t").buckets) =
        (1 / 2) ^ 2 * 2 + (1 - (1 / 2) ^ 2) * 4 * 1 / 3 := by
  obtain ⟨htables, hcard, hb, hn⟩ := twiceListed_eq
  have hhalf : (0 : ℚ) ≤ 1 / 2 ∧ (1 / 2 : ℚ) ≤ 1 := by norm_num
  have hall : ∀ t ∈ twiceListed.tables, ∃ n, threeTuples.find? t = some n ∧ 1 ≤ n ∧
      Evenable twiceListed.card n (twiceListed.dsOf t) := fun t ht => by
    obtain rfl : t = "t" := by simpa [htables] using ht
    exact ⟨3, hn, by decide, evenable_twiceListed⟩
  obtain ⟨new, hok, hnew, hds⟩ :=
    adjustToAverage_ranks (by rw [hcard]; norm_num) hhalf.1 hhalf.2 hall
  obtain ⟨-, hc, hsum, -⟩ := hds "t" (by rw [htables]; exact .head _) 3 hn
  have hone := hsum 1 (by decide)
  rw [sumLargest_expand evenable_twiceListed.descending, hb, htables, hcard,
    pre_seq_cons_of_le _ _ (by decide)] at hone
  refine ⟨new, hok, hnew.trans hcard, hc.trans hcard, hone.trans ?_⟩
  norm_num

end Example

end DSStatistic

end StarCE
