import StarCE.Seq.Counted
import StarCE.Stat.Averaged
import StarCE.Stat.Conserve

/-!
# Statistics as upper bounds

A statistic of whole degrees bounds some rows (`Bounds`) when its cardinality is
at least their number and the sequence of every table counts them by the tuple
they have in that table. A merge bounds the joined rows (`Bounds.merge`): the
compression keeps prefix sums from below, no cut goes below the number of rows,
and handing rows out to the other tables is pouring one layout into the other.
-/

namespace StarCE

open Finset

variable {K : Type} [Field K] [LinearOrder K] [FloorRing K] [IsStrictOrderedRing K]

/-! ## What a feed weighs -/

section Feed

variable {runs : List (Run K)} {ds1 ds2 : DegreeSequence K} {y : K}

section

omit [FloorRing K]

/-- The ranks of a run may be poured one by one. -/
theorem poured_leftFeed (h : ∀ r ∈ runs, 0 ≤ r.count ∧ 0 ≤ r.degree1) (hy : 0 ≤ y) :
    poured (leftFeed runs) y = poured (pairs runs) y := by
  induction runs generalizing y with
  | nil => rfl
  | cons r l ih =>
    obtain ⟨hc, hd⟩ := h r (.head _)
    rw [pairs_cons, poured_replicate hd hy, toNat_cast hc, mul_comm]
    exact poured_cons_congr _ _ fun z hz => ih (fun s hs => h s (.tail _ hs)) hz

/-- The rows of the left operand, rank by rank, with the degree of the right one as their weight. -/
theorem poured_alignRuns (h1 : Descending ds1.buckets) (h2 : Descending ds2.buckets) (hy : 0 ≤ y) :
    poured (leftFeed (alignRuns ds1 ds2)) y =
      layout (min (expand ds1.buckets).length (expand ds2.buckets).length) (seq ds1.buckets)
        (seq ds2.buckets) y := by
  have hcount := alignRuns_count_nonneg h1.count_nonneg h2.count_nonneg
  have hdeg : ∀ r ∈ alignRuns ds1 ds2, 0 ≤ r.degree1 ∧ 0 ≤ r.degree2 :=
    alignRuns_degrees (P := (0 ≤ ·)) (Q := (0 ≤ ·)) (fun b hb => (h1.degree_pos b hb).le)
      fun b hb => (h2.degree_pos b hb).le
  rw [poured_leftFeed (fun r hr => ⟨hcount r hr, (hdeg r hr).1⟩) hy,
    pairs_alignRuns h1.count_nonneg h2.count_nonneg, poured_eq_layout ?_ hy, List.length_zip]
  · apply layout_congr
    all_goals
      intro i hi
      rw [seq, entry_of_lt (by simpa using hi), entry_of_lt (by omega)]
      simp
  · intro c hc
    exact (h1.expand_pos _ (List.of_mem_zip hc).1).le

end

end Feed

/-! ## Whole sequences -/

/-- Whole degrees, in descending order. -/
structure Regular (ds : DegreeSequence K) : Prop where
  descending : Descending ds.buckets
  integral : Integral ds.buckets

section Regular

variable {ds ds1 ds2 : DegreeSequence K} {p card : K} {calls : List (K × ℤ)} {ρ ι : Type}
  [DecidableEq ι] {R : Finset ρ} {q : ρ → ι}

theorem Regular.one_le (h : Regular ds) : ∀ b ∈ ds.buckets, 1 ≤ b.maxDegree := by
  intro b hb
  obtain ⟨n, hn⟩ := h.integral b hb
  have hpos := h.descending.degree_pos b hb
  rw [hn] at hpos ⊢
  have hn1 : 0 < n := by exact_mod_cast hpos
  exact_mod_cast (show 1 ≤ n by omega)

theorem Regular.limit (h : Regular ds) (hc : IsInt card) :
    Regular (DSStatistic.limitDsToCard ds card) :=
  ⟨limitDs_descending h.descending, limitDs_integral h.integral hc⟩

/-- A cut at no less than the number of rows. -/
theorem Counted.limit (hq : Counted (seq ds.buckets) R q) (h : Regular ds) (hc : IsInt card)
    (hR : (R.card : K) ≤ card) :
    Counted (seq (DSStatistic.limitDsToCard ds card).buckets) R q :=
  hq.cap hR fun k => (pre_limitDs h.descending h.integral ((Nat.cast_nonneg _).trans hR) hc k).ge

theorem regular_compress (h : Calls calls) (hi : ∀ c ∈ calls, IsInt c.1) :
    Regular (⟨compress p calls, []⟩ : DegreeSequence K) :=
  ⟨compress_descending p h, compress_integral hi⟩

/-- The compressed sequence counts what the added degrees count. -/
theorem Counted.compress (hq : Counted (entry (spread calls)) R q) (h : Calls calls) :
    Counted (seq (compress p calls)) R q := by
  refine hq.mono fun k => ?_
  have hle := compress_dominates p h ((spread calls).take k) (coe_take_le _ k)
  rw [Multiset.sum_coe, ← pre_entry, Multiset.coe_card, List.length_take] at hle
  exact hle.trans (pre_mono (compress_descending p h).seq_nonneg (min_le_left _ _))

theorem regular_cutTwice (h : Calls calls) (hi : ∀ c ∈ calls, IsInt c.1) (hc : IsInt card) :
    Regular (DSStatistic.cutTwice p card calls) :=
  ((regular_compress h hi).limit hc).limit hc

theorem Counted.cutTwice (hq : Counted (entry (spread calls)) R q) (h : Calls calls)
    (hi : ∀ c ∈ calls, IsInt c.1) (hc : IsInt card) (hR : (R.card : K) ≤ card) :
    Counted (seq (DSStatistic.cutTwice p card calls).buckets) R q := by
  have hcut : Counted (seq (DSStatistic.limitDsToCard ⟨StarCE.compress p calls, []⟩ card).buckets) R q :=
    Counted.limit (hq.compress h) (regular_compress h hi) hc hR
  exact hcut.limit ((regular_compress h hi).limit hc) hc hR

omit [FloorRing K] [IsStrictOrderedRing K] in
/-- The degrees of the runs. -/
theorem regular_runs (h1 : Regular ds1) (h2 : Regular ds2) : ∀ r ∈ alignRuns ds1 ds2,
    (IsInt r.degree1 ∧ 0 ≤ r.degree1) ∧ IsInt r.degree2 ∧ 0 ≤ r.degree2 :=
  alignRuns_degrees (P := fun x : K => IsInt x ∧ 0 ≤ x) (Q := fun x : K => IsInt x ∧ 0 ≤ x)
    (fun b hb => ⟨h1.integral b hb, (h1.descending.degree_pos b hb).le⟩)
    fun b hb => ⟨h2.integral b hb, (h2.descending.degree_pos b hb).le⟩

omit [FloorRing K] in
theorem regular_products (h1 : Regular ds1) (h2 : Regular ds2) :
    Calls (products (alignRuns ds1 ds2)) ∧ ∀ c ∈ products (alignRuns ds1 ds2), IsInt c.1 := by
  have hcount := alignRuns_count_nonneg h1.descending.count_nonneg h2.descending.count_nonneg
  refine ⟨⟨fun c hc => ?_, fun c hc => ?_⟩, fun c hc => ?_⟩
  all_goals obtain ⟨r, hr, rfl⟩ := List.mem_map.mp hc
  all_goals obtain ⟨⟨hi1, h01⟩, hi2, h02⟩ := regular_runs h1 h2 r hr
  · exact mul_nonneg h01 h02
  · exact hcount r hr
  · exact hi1.mul hi2

theorem regular_leftFeed (h1 : Regular ds1) (h2 : Regular ds2) :
    ∀ c ∈ leftFeed (alignRuns ds1 ds2), (0 ≤ c.1 ∧ 0 ≤ c.2) ∧ IsInt c.1 ∧ IsInt c.2 := by
  have hcount := alignRuns_count_nonneg h1.descending.count_nonneg h2.descending.count_nonneg
  intro c hc
  obtain ⟨r, hr, rfl⟩ := List.mem_map.mp hc
  obtain ⟨⟨hi1, h01⟩, hi2, h02⟩ := regular_runs h1 h2 r hr
  have hr0 : (0 : K) ≤ r.count := by exact_mod_cast hcount r hr
  exact ⟨⟨mul_nonneg h01 hr0, h02⟩, hi1.mul (.intCast _), hi2⟩

end Regular

/-! ## Bounds -/

namespace DSStatistic

/-- The statistic bounds the rows `R`, which have the tuple `key u` in the table `u`. -/
structure Bounds {ρ : Type} (st : DSStatistic K) (R : Finset ρ) (key : Table → ρ → ℕ) : Prop where
  keyed : st.Keyed
  regular : ∀ u ∈ st.tables, Regular (st.dsOf u)
  card_isInt : IsInt st.card
  card_le : (R.card : K) ≤ st.card
  counted : ∀ u ∈ st.tables, Counted (seq (st.dsOf u).buckets) R (key u)

variable {ρ ρ' σ : Type} {st other : DSStatistic K} {R : Finset ρ} {R' : Finset ρ'} {S : Finset σ}
  {key : Table → ρ → ℕ} {key' : Table → ρ' → ℕ} {keyS : Table → σ → ℕ} {t : Table}

/-- Some of the rows. -/
theorem Bounds.of_injOn (h : Bounds st R key) {f : ρ' → ρ} (hmaps : ∀ x ∈ R', f x ∈ R)
    (hinj : ∀ x ∈ R', ∀ y ∈ R', f x = f y → x = y)
    (hkey : ∀ u ∈ st.tables, ∀ x ∈ R', key u (f x) = key' u x) : Bounds st R' key' := by
  have hcard : R'.card ≤ R.card :=
    card_le_card_of_injOn f hmaps fun x hx y hy hxy => hinj x hx y hy hxy
  refine ⟨h.keyed, h.regular, h.card_isInt, ?_, fun u hu => ?_⟩
  · exact le_trans (by exact_mod_cast hcard) h.card_le
  · exact (h.counted u hu).of_injOn hmaps hinj (hkey u hu)

/-! ## Before a merge -/

omit [FloorRing K] [IsStrictOrderedRing K] in
/-- At the rate one nothing is pulled toward the average. -/
theorem averageDs_one (c : K) (n : ℤ) (ds : DegreeSequence K) :
    (averageDs c n 1 ds).buckets = ds.buckets := by
  have havg : average c n (1 : K) = 0 := by rw [average, sub_self, mul_zero]
  rw [averageDs_buckets, zeroBuckets, havg, if_neg fun h => absurd h.2 (lt_irrefl _), List.append_nil]
  have hpull : pullBucket c n (1 : K) = id := funext fun b => by
    rw [pullBucket, havg, mul_one, add_zero]
    rfl
  rw [hpull, List.map_id]

theorem Regular.normalizeDs {ds : DegreeSequence K} (h : Regular ds) :
    (normalizeDs ds).buckets = ds.buckets := by
  refine (List.map_congr_left fun b hb => ?_).trans (List.map_id _)
  exact if_neg (not_lt.mpr (h.one_le b hb))

omit [IsStrictOrderedRing K] in
theorem dsOf_adjusted (hk : st.Keyed) (ht : t ∈ st.tables) (ndv : OrdMap String ℤ) :
    ((st.averaged ndv 1).limitAllDsToCard.dsOf t).buckets =
      (limitDsToCard (st.dsOf t) st.card).buckets := by
  have hmem : t ∈ (st.averaged ndv 1).tables := by rwa [(keeps_averaged st ndv 1).tables]
  rw [dsOf_limitAllDsToCard (hk.averaged ndv 1) hmem, averaged_card, dsOf_averaged hk ht,
    limitDsToCard, limitDsToCard, averageDs_one]

theorem Bounds.adjusted (h : Bounds st R key) (ndv : OrdMap String ℤ) :
    Bounds (st.averaged ndv 1).limitAllDsToCard R key := by
  have htables : (st.averaged ndv 1).limitAllDsToCard.tables = st.tables :=
    (keeps_limitAllDsToCard _).tables.trans (keeps_averaged st ndv 1).tables
  have hcard : (st.averaged ndv 1).limitAllDsToCard.card = st.card :=
    (limitAllDsToCard_card).trans (averaged_card st ndv 1)
  refine ⟨(h.keyed.averaged ndv 1).limitAllDsToCard, fun u hu => ?_, hcard ▸ h.card_isInt,
    hcard ▸ h.card_le, fun u hu => ?_⟩
  · have hlim := (h.regular u (htables ▸ hu)).limit h.card_isInt
    have hbuckets := dsOf_adjusted h.keyed (htables ▸ hu) ndv
    exact ⟨hbuckets ▸ hlim.descending, hbuckets ▸ hlim.integral⟩
  · rw [dsOf_adjusted h.keyed (htables ▸ hu) ndv]
    exact (h.counted u (htables ▸ hu)).limit (h.regular u (htables ▸ hu)) h.card_isInt h.card_le

theorem Bounds.normalized (h : Bounds st R key) : Bounds st.normalizeSubOneDegrees R key := by
  have htables := (keeps_normalizeSubOneDegrees st).tables
  have hds : ∀ u ∈ st.tables, (st.normalizeSubOneDegrees.dsOf u).buckets = (st.dsOf u).buckets := by
    intro u hu
    have hnorm : st.normalizeSubOneDegrees.dsOf u = normalizeDs (st.dsOf u) :=
      dsOf_forTables (fun _ ds => normalizeDs ds) h.keyed hu
    rw [hnorm, Regular.normalizeDs (h.regular u hu)]
  have hcard : st.normalizeSubOneDegrees.card = st.card := forTables_card _
  refine ⟨h.keyed.normalizeSubOneDegrees, fun u hu => ?_, hcard ▸ h.card_isInt, hcard ▸ h.card_le,
    fun u hu => ?_⟩
  · rw [htables] at hu
    exact ⟨hds u hu ▸ (h.regular u hu).descending, hds u hu ▸ (h.regular u hu).integral⟩
  · rw [htables] at hu
    rw [hds u hu]
    exact h.counted u hu

theorem Bounds.ready (h : Bounds st R key) (ndv : OrdMap String ℤ) :
    Bounds (st.ready ndv 1) R key := (h.adjusted ndv).normalized

/-! ## The merge -/

/-- The tuple of a joined row. -/
def joinKey (st : DSStatistic K) (key : Table → ρ → ℕ) (keyS : Table → σ → ℕ) (u : Table)
    (x : ρ × σ) : ℕ := if u ∈ st.tables then key u x.1 else keyS u x.2

section Merge

variable {ds1 ds2 : DegreeSequence K} {q1 : ρ → ℕ} {q2 : σ → ℕ}

omit [LinearOrder K] [FloorRing K] [IsStrictOrderedRing K] in
theorem rank_zero (ds1 ds2 : DegreeSequence K) {r : ℕ}
    (hr : min (expand ds1.buckets).length (expand ds2.buckets).length ≤ r) :
    seq ds1.buckets r * seq ds2.buckets r = 0 := by
  rcases min_le_iff.mp hr with h | h
  · rw [show seq ds1.buckets r = 0 from entry_of_le h, zero_mul]
  · rw [show seq ds2.buckets r = 0 from entry_of_le h, mul_zero]

omit [FloorRing K] in
/-- The merge table. -/
theorem counted_products (h1 : Regular ds1) (h2 : Regular ds2) (hq1 : Counted (seq ds1.buckets) R q1)
    (hq2 : Counted (seq ds2.buckets) S q2) :
    Counted (entry (spread (products (alignRuns ds1 ds2)))) (joinOn R S q1 q2) (fun x => q1 x.1) ∧
      ((joinOn R S q1 q2).card : K) ≤ (spread (products (alignRuns ds1 ds2))).sum := by
  have hn1 := h1.descending.count_nonneg
  have hn2 := h2.descending.count_nonneg
  have hjoin := hq1.join hq2 h1.descending.seq_antitone h1.descending.seq_nonneg h2.descending.seq_nonneg
  have hcounted : Counted (entry (spread (products (alignRuns ds1 ds2)))) (joinOn R S q1 q2)
      (fun x => q1 x.1) := hjoin.mono fun k => (pre_spread_products hn1 hn2 k).ge
  refine ⟨hcounted, ?_⟩
  obtain ⟨k, hk⟩ := hcounted.card_le
  refine hk.trans ?_
  rw [pre_entry]
  refine List.Sublist.sum_le_sum (List.take_sublist _ _) fun x hx => ?_
  obtain ⟨c, hc, -, rfl⟩ := mem_spread.mp hx
  exact (regular_products h1 h2).1.1 c hc

/-- Another table of the left operand, or of the right one. -/
theorem pre_edgeCalls_layout {ds : DegreeSequence K} (h1 : Regular ds1) (h2 : Regular ds2)
    (hds : Regular ds) (k : ℕ) :
    pre (entry (spread (edgeCalls rowEps ds (leftFeed (alignRuns ds1 ds2))))) k =
      layout (min (expand ds1.buckets).length (expand ds2.buckets).length) (seq ds1.buckets)
        (seq ds2.buckets) (pre (seq ds.buckets) k) := by
  have hfeed := regular_leftFeed h1 h2
  have hb : ∀ b ∈ ds.buckets, 0 < b.maxDegree ∧ 0 ≤ b.count := fun b hb =>
    ⟨hds.descending.degree_pos b hb, hds.descending.count_nonneg b hb⟩
  rw [pre_edgeCalls_integral hb hds.integral (fun c hc => (hfeed c hc).1)
    (fun c hc => (hfeed c hc).2.1) rowEps_pos.le rowEps_lt_one,
    poured_alignRuns h1.descending h2.descending (pre_nonneg hds.descending.seq_nonneg k)]

theorem regular_edgeCalls {ds : DegreeSequence K} (h1 : Regular ds1) (h2 : Regular ds2)
    (hds : Regular ds) : Calls (edgeCalls rowEps ds (leftFeed (alignRuns ds1 ds2))) ∧
      ∀ c ∈ edgeCalls rowEps ds (leftFeed (alignRuns ds1 ds2)), IsInt c.1 := by
  have hfeed := regular_leftFeed h1 h2
  have hb : ∀ b ∈ ds.buckets, 0 < b.maxDegree ∧ 0 ≤ b.count := fun b hb =>
    ⟨hds.descending.degree_pos b hb, hds.descending.count_nonneg b hb⟩
  obtain ⟨-, -, hcalls, -⟩ := edgeCalls_dealt rowEps_pos.le hb fun c hc => (hfeed c hc).1
  exact ⟨hcalls, edgeCalls_whole hds.integral fun c hc => (hfeed c hc).2⟩

end Merge

/-- A merge bounds the rows joined on the tuple of the merge table. -/
theorem Bounds.merge (h1 : Bounds st R key) (h2 : Bounds other S keyS) (ht1 : t ∈ st.tables)
    (ht2 : t ∈ other.tables) (hcommon : ∀ u ∈ st.tables, u ∈ other.tables → u = t) :
    ∃ new, merge st other t = .ok new ∧
      (∀ u, u ∈ new.tables ↔ u ∈ st.tables ∨ u ∈ other.tables) ∧
      Bounds new (joinOn R S (key t) (keyS t)) (joinKey st key keyS) := by
  have hm : Mergeable st other t := ⟨h1.keyed, h2.keyed, ht1, ht2, hcommon⟩
  have hr1 := h1.regular t ht1
  have hr2 := h2.regular t ht2
  obtain ⟨new, hok, hnew⟩ := merge_ok hm hr1.descending.count_nonneg hr2.descending.count_nonneg
  have htables : ∀ u, u ∈ new.tables ↔ u ∈ st.tables ∨ u ∈ other.tables := fun u => by
    rw [hnew.tables, List.mem_append, mem_edgeTables]
    constructor
    · exact Or.imp_right And.left
    · rintro (hu | hu)
      · exact .inl hu
      · by_cases hut : u = t
        · exact .inl (hut ▸ ht1)
        · exact .inr ⟨hu, hut⟩
  obtain ⟨hcalls, hint⟩ := regular_products hr1 hr2
  obtain ⟨hprod, hsum⟩ := counted_products hr1 hr2 (h1.counted t ht1) (h2.counted t ht2)
  have hcard : IsInt new.card := by
    rw [hnew.card]
    refine IsInt.sum fun x hx => ?_
    obtain ⟨c, hc, -, rfl⟩ := mem_spread.mp hx
    exact hint c hc
  have hle : ((joinOn R S (key t) (keyS t)).card : K) ≤ new.card := hnew.card ▸ hsum
  have hkey1 : ∀ u ∈ st.tables, joinKey st key keyS u = fun x => key u x.1 := fun u hu =>
    funext fun x => if_pos hu
  have hkey2 : ∀ u ∈ other.edgeTables t, joinKey st key keyS u = fun x => keyS u x.2 := fun u hu =>
    funext fun x => if_neg fun hmem =>
      (mem_edgeTables.mp hu).2 (hcommon u hmem (mem_edgeTables.mp hu).1)
  -- the merge table, the other tables of the left operand, those of the right one
  have hall : ∀ u ∈ new.tables, Regular (new.dsOf u) ∧
      Counted (seq (new.dsOf u).buckets) (joinOn R S (key t) (keyS t)) (joinKey st key keyS u) := by
    intro u hu
    rw [hnew.tables, List.mem_append] at hu
    rcases hu with hu | hu
    · rw [hkey1 u hu]
      by_cases hut : u = t
      · rw [hut, hnew.mergeDs]
        exact ⟨regular_cutTwice hcalls hint hcard, hprod.cutTwice hcalls hint hcard hle⟩
      · rw [hnew.leftDs u (mem_edgeTables.mpr ⟨hu, hut⟩)]
        obtain ⟨hc, hi⟩ := regular_edgeCalls hr1 hr2 (h1.regular u hu)
        refine ⟨regular_cutTwice hc hi hcard, Counted.cutTwice ?_ hc hi hcard hle⟩
        exact (h1.counted t ht1).join_other (h2.counted t ht2) (h1.counted u hu)
          hr1.descending.seq_antitone hr1.descending.seq_nonneg hr2.descending.seq_nonneg
          (fun r hr => rank_zero _ _ hr) fun k => (pre_edgeCalls_layout hr1 hr2 (h1.regular u hu) k).ge
    · rw [hkey2 u hu, hnew.rightDs u hu, rightFeed_eq]
      have hu' := (mem_edgeTables.mp hu).1
      obtain ⟨hc, hi⟩ := regular_edgeCalls hr2 hr1 (h2.regular u hu')
      refine ⟨regular_cutTwice hc hi hcard, Counted.cutTwice ?_ hc hi hcard hle⟩
      exact (h1.counted t ht1).join_right (h2.counted t ht2) (h2.counted u hu')
        hr2.descending.seq_antitone hr1.descending.seq_nonneg hr2.descending.seq_nonneg
        (fun r hr => rank_zero _ _ hr) fun k => (pre_edgeCalls_layout hr2 hr1 (h2.regular u hu') k).ge
  exact ⟨new, hok, htables, hnew.keyed, fun u hu => (hall u hu).1, hcard, hle, fun u hu => (hall u hu).2⟩

/-! ## Filtered rows -/

theorem dsOf_single (t : Table) (f : ℤ) (p : K) :
    ((single t (f : K) p).dsOf t).buckets = [⟨1, f⟩] := by
  rw [dsOf, single, OrdMap.find?_insert_self, Option.getD_some, truncate_intCast]
  exact addDegree_one f p

omit [LinearOrder K] [FloorRing K] [IsStrictOrderedRing K] in
theorem pre_seq_ones (f : ℤ) (k : ℕ) :
    pre (seq [(⟨1, f⟩ : Bucket K)]) k = ((min k f.toNat : ℕ) : K) := by
  have hexpand : expand [(⟨1, f⟩ : Bucket K)] = List.replicate f.toNat 1 := by
    rw [expand_cons, expand_nil, List.append_nil]
  rw [seq, hexpand, pre_entry, List.take_replicate, List.sum_replicate, nsmul_one]

/-- As many ones as tuples pass a filter, or more. -/
theorem bounds_single (t : Table) {f : ℤ} (p : K) {T : Finset ℕ} (hf : (T.card : ℤ) ≤ f) :
    Bounds (single t (f : K) p) T fun _ i => i := by
  have h0 : 0 ≤ f := (Int.natCast_nonneg _).trans hf
  have htables : ∀ u ∈ (single t (f : K) p).tables, u = t := fun u hu => List.mem_singleton.mp hu
  have hkeyed : (single t (f : K) p).Keyed := by
    refine ⟨List.nodup_singleton t, fun u => ?_⟩
    rw [single, OrdMap.find?_insert]
    by_cases hu : u = t <;> simp [hu]
  refine ⟨hkeyed, fun u hu => ?_, .intCast f, ?_, fun u hu => ?_⟩
  · rw [htables u hu]
    refine ⟨?_, ?_⟩
    · rw [dsOf_single]
      exact ⟨List.pairwise_singleton _ _, by simp, by simpa using h0⟩
    · rw [Integral, dsOf_single]
      intro b hb
      rw [List.mem_singleton.mp hb]
      exact ⟨1, by simp⟩
  · show (T.card : K) ≤ (f : K)
    exact_mod_cast hf
  · rw [htables u hu, dsOf_single]
    refine counted_ones (fun x _ y _ hxy => hxy) fun k => ?_
    rw [pre_seq_ones]
    exact_mod_cast min_le_min_left k (show T.card ≤ f.toNat by omega)

end DSStatistic

end StarCE
