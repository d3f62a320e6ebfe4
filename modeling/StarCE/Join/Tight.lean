import StarCE.Join.Pivot

/-!
# How good the summaries are

For equal sets with distinct tables, the sequence collected for a table bounds
the true degrees from above at every prefix and is at most the precision above
them (`collectStatistics_tight`), whichever order and grouping the key values
are added in.
-/

namespace StarCE

open DSStatistic Finset

variable {K V : Type} [Field K] [LinearOrder K]

/-- The sum of the `k` largest members. -/
def topSum (k : ℕ) (l : List K) : K := ((l.insertionSort (· ≥ ·)).take k).sum

section TopSum

variable {l : List K} {k : ℕ}

theorem topSum_of_sorted (h : l.Pairwise (· ≥ ·)) (k : ℕ) : topSum k l = pre (entry l) k := by
  rw [topSum, h.insertionSort_eq, pre_entry]

variable [IsStrictOrderedRing K]

/-- No `k` members sum to more. -/
theorem sum_le_topSum (h0 : ∀ x ∈ l, 0 ≤ x) {s : Multiset K} (hs : s ≤ l) (hk : s.card ≤ k) :
    s.sum ≤ topSum k l := by
  have hperm := l.perm_insertionSort (· ≥ ·)
  have h0' : ∀ x ∈ l.insertionSort (· ≥ ·), 0 ≤ x := fun x hx => h0 x (hperm.mem_iff.mp hx)
  have hanti := entry_antitone h0' (l.pairwise_insertionSort (· ≥ ·))
  have hd : BagDominates (entry (l.insertionSort (· ≥ ·))) (l : Multiset K) := by
    refine bagDominates_of_hinge hanti (entry_nonneg h0') fun lam _ => ?_
    rw [Multiset.map_coe, Multiset.sum_coe, (hperm.map _).sum_eq]
  rw [topSum, ← pre_entry]
  exact (hd s hs).trans (pre_mono (entry_nonneg h0') hk)

omit [IsStrictOrderedRing K] in
theorem sum_filter_pos (h0 : ∀ x ∈ l, 0 ≤ x) : (l.filter fun x => 0 < x).sum = l.sum := by
  induction l with
  | nil => rfl
  | cons x l ih =>
    have ih := ih fun y hy => h0 y (.tail _ hy)
    rcases (h0 x (.head _)).eq_or_lt with hx | hx
    · rw [List.filter_cons_of_neg (by simp [← hx]), ih, List.sum_cons, ← hx, zero_add]
    · rw [List.filter_cons_of_pos (by simpa using hx), List.sum_cons, ih, List.sum_cons]

theorem topSum_le {g : ℕ → K} (hg : ∀ i, 0 ≤ g i) (h0 : ∀ x ∈ l, 0 ≤ x) {m : Multiset K}
    (h : BagDominates g m) (hm : ((l.filter fun x => 0 < x : List K) : Multiset K) ≤ m) (k : ℕ) :
    topSum k l ≤ pre g k := by
  have hperm := l.perm_insertionSort (· ≥ ·)
  set t := (l.insertionSort (· ≥ ·)).take k with ht
  have hpos : (t.filter fun x => 0 < x).sum = t.sum :=
    sum_filter_pos fun x hx => h0 x (hperm.mem_iff.mp (List.mem_of_mem_take hx))
  have hle : ((t.filter fun x => 0 < x : List K) : Multiset K) ≤ m := by
    refine le_trans ?_ hm
    exact Multiset.coe_le.mpr
      (((List.take_sublist k _).filter _).subperm.trans (hperm.filter _).subperm)
  have h1 := h _ hle
  rw [Multiset.sum_coe, Multiset.coe_card, hpos] at h1
  refine h1.trans (pre_mono hg ?_)
  exact (List.length_filter_le _ _).trans (by rw [ht, List.length_take]; exact min_le_left _ _)

end TopSum

variable [FloorRing K] [DecidableEq V] {db : Database V} {e s : EqualSet}

open scoped Classical in
/-- The numbers of star rows that contain each of the rows of an entry. -/
noncomputable def starDegrees (K : Type) [Field K] (db : Database V) (s : EqualSet)
    (c : s.finset) : List K :=
  (List.finRange _).map fun i => (({ρ ∈ starJoin db s | ρ c = i}.card : ℕ) : K)

/-- The sequence is strictly decreasing, has the star's cardinality, and its prefix sums lie
between the true ones and `p` times them. -/
structure TightFor (p card : K) (degrees : List K) (ds : DegreeSequence K) : Prop where
  strict : ds.buckets.Pairwise fun b c => c.maxDegree < b.maxDegree
  count_pos : ∀ b ∈ ds.buckets, 0 < b.count
  getCard : ds.getCard = card
  le : ∀ k, topSum k degrees ≤ topSum k (expand ds.buckets)
  tight : ∀ k, topSum k (expand ds.buckets) ≤ p * topSum k degrees


omit [LinearOrder K] [FloorRing K] in
theorem starDegrees_eq (c : s.finset) : starDegrees K db s c =
    (List.finRange _).map fun i => ((rowDegree db s c.1 i : ℕ) : K) :=
  List.map_congr_left fun i _ => by rw [card_starJoin_row]

variable [IsStrictOrderedRing K]

theorem Summary.tightFor {p : K} {st : DSStatistic K} (h : Summary p db s st) (hp : 1 < p)
    (c : s.finset) :
    TightFor p st.card (starDegrees K db s c) (st.dsOf c.1.tableName) := by
  have hc : c.1 ∈ s.entries := EqualSet.mem_finset.mp c.2
  have hne : s.entries.toList ≠ [] := List.ne_nil_of_mem hc
  have hw := rowBag_whole (K := K) db hne hc
  have hsk := h.sketch c.1 hc
  have hdesc := hsk.descending hw
  have hrows := rows_perm_rowBag (K := K) db hc
  have h0 : ∀ x ∈ starDegrees K db s c, 0 ≤ x := fun x hx => by
    obtain ⟨i, _, rfl⟩ := List.mem_map.mp hx
    exact Nat.cast_nonneg _
  refine ⟨hsk.strict hw, hsk.count_pos hw, ?_, fun k => ?_, fun k => ?_⟩
  · rw [getCard_eq_sum _ hdesc.count_nonneg, h.sum_eq hc]
  · rw [topSum_of_sorted hdesc.expand_sorted]
    refine topSum_le hdesc.seq_nonneg h0 (hsk.dominates hw) ?_ k
    rw [starDegrees_eq, Multiset.coe_eq_coe.mpr hrows]
  · obtain ⟨t, ht, hk, hle⟩ := hsk.tight hp hw k
    rw [topSum_of_sorted hdesc.expand_sorted]
    refine hle.trans (mul_le_mul_of_nonneg_left (sum_le_topSum h0 (ht.trans ?_) hk)
      (zero_le_one.trans hp.le))
    rw [starDegrees_eq, ← Multiset.coe_eq_coe.mpr hrows]
    exact Multiset.coe_le.mpr (List.filter_sublist).subperm

omit [IsStrictOrderedRing K] in
/-- Every collected statistic with two entries is the summary of its star join. -/
theorem collectStatistics_summary {pow : K → K → K} {sm sm' : StatisticManager K}
    {esets : List EqualSet} (h0 : sm.statistics = ∅) (hd : ∀ e ∈ esets, e.Distinct)
    (h : collectStatistics pow db sm esets = .ok sm') (he : e ∈ esets) (hs : s.Subset e)
    (h2 : 2 ≤ s.entries.size)
    (hsplit : sm.enableStarSplit = true → s.entries.size ≤ sm.sizeLimit e) :
    ∃ st, sm'.statistics.find? s = some st ∧ Summary sm.compressPrecision db s st := by
  obtain ⟨sm'', hok, -, hfind⟩ := StatisticManager.collectStatistics_ok pow db h0
    (StatisticManager.nonempty_of_collectStatistics h)
  obtain rfl : sm'' = sm' := Except.ok.inj (hok.symm.trans h)
  obtain ⟨e', he', hk, hcol⟩ := exists_collected sm.toOptions db he
    ((StatisticManager.mem_subsetsOf_iff h2).mpr ⟨hs, hsplit⟩)
  refine ⟨_, (hfind s).trans hcol, starStat_summary _ (hd e' he')
    ((StatisticManager.mem_subsetsOf_iff h2).mp hk).1 fun hnil => ?_⟩
  rw [OrdSet.size, hnil] at h2
  exact absurd h2 (by simp)

/-- Every collected sequence is within the precision of the true degrees, prefix by prefix,
and the statistic depends neither on the order nor on the grouping of the key values. -/
theorem collectStatistics_tight {pow : K → K → K} {sm sm' : StatisticManager K}
    {esets : List EqualSet} (h0 : sm.statistics = ∅) (hp : 1 < sm.compressPrecision)
    (hd : ∀ e ∈ esets, e.Distinct) (h : collectStatistics pow db sm esets = .ok sm') :
    ∀ e ∈ esets, ∀ s : EqualSet, s.Subset e → 2 ≤ s.entries.size →
      (sm.enableStarSplit = true → s.entries.size ≤ sm.sizeLimit e) →
      ∃ st, sm'.statistics.find? s = some st ∧ st.card = ((starJoin db s).card : K) ∧
        (∀ c : s.finset, ∃ ds, st.ds.find? c.1.tableName = some ds ∧
          TightFor sm.compressPrecision st.card (starDegrees K db s c) ds) ∧
        ∀ counts, Counts db e counts →
          ((ofTables s.getTableList sm.compressPrecision).addCounts counts).finishCollection =
            st := by
  intro e he s hs h2 hsplit
  obtain ⟨st, hst, hsum⟩ := collectStatistics_summary h0 hd h he hs h2 hsplit
  refine ⟨st, hst, hsum.card, fun c => ?_, fun counts hcounts => ?_⟩
  · have ht : c.1.tableName ∈ st.tables := by
      rw [hsum.tables]
      exact List.mem_map_of_mem (EqualSet.mem_finset.mp c.2)
    obtain ⟨ds, hds⟩ := Option.isSome_iff_exists.mp ((hsum.keyed.isSome_iff _).mpr ht)
    refine ⟨ds, hds, ?_⟩
    have := hsum.tightFor hp c
    rwa [dsOf, hds] at this
  · refine Summary.unique (summary_of_counts _ (hd e he) hs (fun hnil => ?_) hcounts) hsum
    rw [OrdSet.size, hnil] at h2
    exact absurd h2 (by simp)

/-! ## A star of two tables -/

section Example

/-- Keys one and two, with two and one rows of `a` and one and two rows of `b`. -/
def twoKeys : Database ℕ := fun t =>
  if t = "a" then [fun _ => some 1, fun _ => some 1, fun _ => some 2]
  else if t = "b" then [fun _ => some 1, fun _ => some 2, fun _ => some 2]
  else []

def starAB : EqualSet := pairSet ⟨"a", "x"⟩ ⟨"b", "y"⟩

theorem collectStatistics_tight_starAB : ∃ sm' : StatisticManager ℚ,
    collectStatistics (fun x _ => x) twoKeys .initial [starAB] = .ok sm' ∧
    ∃ st, sm'.statistics.find? starAB = some st ∧
      st.card = ((starJoin twoKeys starAB).card : ℚ) ∧
      ∀ c : starAB.finset, ∃ ds, st.ds.find? c.1.tableName = some ds ∧
        TightFor 2 st.card (starDegrees ℚ twoKeys starAB c) ds := by
  obtain ⟨sm', hok, -, -⟩ := StatisticManager.collectStatistics_ok (K := ℚ) (fun x _ => x)
    twoKeys StatisticManager.initial_statistics
    (show ∀ e ∈ [starAB], e.entries.toList ≠ [] by decide)
  obtain ⟨st, hst, hcard, htight, -⟩ := collectStatistics_tight rfl (by decide +kernel)
    (by simp only [List.mem_singleton, forall_eq]; unfold EqualSet.Distinct; decide) hok starAB
    (.head _) starAB (fun _ => id) (by decide) (by decide)
  exact ⟨sm', hok, st, hst, hcard, htight⟩

end Example

end StarCE
