import StarCE.Join.Tight
import StarCE.Manager.Query
import StarCE.Stat.Center

/-!
# Split stars

With `EnableStarSplit` the statistic of a large star is folded from those of
its chunks by `mergeByCenter`. The first merge bounds the star join, since the
rank-wise product of the center sequences dominates the product at every key
value; it also drops the center sequence, so from the third chunk on the
cardinality is zero (`getStatisticsFromEset_card_iff`).
-/

namespace StarCE

open DSStatistic Finset

variable {K V : Type} [Field K] [LinearOrder K] [FloorRing K] [IsStrictOrderedRing K]
  [DecidableEq V] {db : Database V} {e s : EqualSet} {p : K} {st : DSStatistic K}

namespace Summary

theorem central_descending (h : Summary p db s st) (hne : s.entries.toList ≠ []) :
    Descending st.centralDs.buckets := h.central.descending (keyBag_whole hne)

/-- The center sequence dominates the numbers of star rows of the key values. -/
theorem central_dominates (h : Summary p db s st) (hne : s.entries.toList ≠ []) :
    Dominates (seq st.centralDs.buckets) fun v => ((starCount db s v : ℕ) : K) := by
  refine (h.central.dominates (keyBag_whole hne)).dominates (h.central_descending hne).seq_nonneg
    (fun _ => Nat.cast_nonneg _) fun t ht => ?_
  rw [keyBag, ← Multiset.map_coe]
  refine Multiset.map_le_map ((Multiset.le_iff_subset t.nodup).mpr fun v hv => ?_)
  exact Multiset.mem_coe.mpr ((mem_live hne).mpr (by exact_mod_cast ht v hv))

omit [IsStrictOrderedRing K] in
theorem stored (h : Summary p db s st) : st.Stored := fun u hu _ => (h.keyed.isSome_iff u).mpr hu

end Summary

omit [FloorRing K] in
/-- Two sequences that dominate two families bound the sum of the products. -/
theorem sum_mul_le_products {ι : Type} {ds1 ds2 : DegreeSequence K} {a b : ι → K}
    (h1 : Descending ds1.buckets) (h2 : Descending ds2.buckets) (ha : Dominates (seq ds1.buckets) a)
    (hb : Dominates (seq ds2.buckets) b) (hb0 : ∀ i, 0 ≤ b i) (t : Finset ι) :
    ∑ i ∈ t, a i * b i ≤ (spread (products (alignRuns ds1 ds2))).sum := by
  rw [sum_spread_products h1.count_nonneg h2.count_nonneg (n := t.card + (expand ds1.buckets).length)
    (le_trans (min_le_left _ _) (Nat.le_add_left _ _))]
  refine (sum_mul_le_of_dominates h1.seq_antitone h2.seq_nonneg h1.seq_nonneg hb0 ha hb t).trans ?_
  exact pre_mono (fun i => mul_nonneg (h1.seq_nonneg i) (h2.seq_nonneg i)) (Nat.le_add_right _ _)

/-- The chunks are parts of the star, and their star counts multiply up to it. -/
theorem starCount_chunks (db : Database V) {maxSize : ℤ} {chunks : List EqualSet}
    (h : EqualSet.Chunks maxSize e.entries.toList chunks) (v : V) :
    starCount db e v = (chunks.map fun c => starCount db c v).prod := by
  rw [starCount, EqualSet.prod_finset, ← h.flatten, List.map_flatMap, List.flatMap, List.prod_flatten,
    List.map_map]
  refine congrArg List.prod (List.map_congr_left fun c _ => ?_)
  rw [Function.comp, starCount, EqualSet.prod_finset]

variable {sm sm' : StatisticManager K} {pow : K → K → K} {esets : List EqualSet}

/-- Once a center sequence is empty, further chunks leave the cardinality at zero. -/
theorem mergeChunks_zero (sm' : StatisticManager K) (e : EqualSet) {chunks : List EqualSet}
    (hstat : ∀ c ∈ chunks, ∃ st, sm'.statistics.find? c = some st ∧ st.Stored ∧
      ∀ b ∈ st.centralDs.buckets, 0 ≤ b.count)
    (hne : chunks ≠ []) (hs : st.Stored) (hc : st.centralDs = ∅) :
    ∃ st', chunks.foldlM (sm'.mergeChunk e) st = .ok st' ∧ st'.card = 0 := by
  have hrun : ∃ st', chunks.foldlM (sm'.mergeChunk e) st = .ok st' ∧
      st'.Stored ∧ st'.centralDs = ∅ ∧ (chunks ≠ [] → st'.card = 0) := by
    refine foldlM_inv (fun l (x : DSStatistic K) => x.Stored ∧ x.centralDs = ∅ ∧
      (l ≠ [] → x.card = 0)) ⟨hs, hc, fun h => absurd rfl h⟩ ?_
    rintro l c x hcm ⟨hx, hxc, -⟩
    obtain ⟨stc, hfind, hstored, hcount⟩ := hstat c hcm
    obtain ⟨new, hok, hnew, hcentral, hcard⟩ := mergeByCenter_ok hx hstored (by rw [hxc]; rintro _ ⟨⟩)
      hcount
    refine ⟨new, ?_, hnew, hcentral, fun _ => ?_⟩
    · simp only [StatisticManager.mergeChunk, StatisticManager.chunkStatistics, hfind]
      exact hok
    · have h0 : ∀ b ∈ (∅ : DegreeSequence K).buckets, 0 ≤ b.count := by rintro _ ⟨⟩
      rw [hcard, hxc, sum_spread_products h0 hcount (n := 0) (min_le_left _ _), pre_zero]
  obtain ⟨st', hok, -, -, hcard⟩ := hrun
  exact ⟨st', hok, hcard hne⟩

section

omit [IsStrictOrderedRing K]

/-- What a manager holds after collecting with star splitting. -/
theorem chunk_statistics (h0 : sm.statistics = ∅) (hM : 3 ≤ sm.maxStarSize)
    (hd : ∀ e ∈ esets, e.Distinct) (h : collectStatistics pow db sm esets = .ok sm') (he : e ∈ esets)
    {chunks : List EqualSet} (hc : EqualSet.Chunks sm.maxStarSize e.entries.toList chunks) :
    ∀ c ∈ chunks, c.entries.toList ≠ [] ∧
      ∃ st, sm'.statistics.find? c = some st ∧ Summary sm.compressPrecision db c st := by
  intro c hcm
  obtain ⟨h2, hle⟩ := hc.size c hcm
  refine ⟨fun hnil => ?_, collectStatistics_summary h0 hd h he (hc.subset hcm) h2 fun _ => ?_⟩
  · rw [OrdSet.size, hnil] at h2
    exact absurd h2 (by simp)
  · rw [Options.sizeLimit, if_neg (by omega)]
    omega

theorem toOptions_of_collectStatistics (h0 : sm.statistics = ∅)
    (h : collectStatistics pow db sm esets = .ok sm') : sm'.toOptions = sm.toOptions := by
  obtain ⟨sm'', hok, hf, -⟩ := StatisticManager.collectStatistics_ok pow db h0
    (StatisticManager.nonempty_of_collectStatistics h)
  obtain rfl : sm'' = sm' := Except.ok.inj (hok.symm.trans h)
  exact hf.options

end

/-- A star split into at most two chunks is bounded, and exact when it is one chunk; with more
chunks the cardinality is zero. -/
theorem getStatisticsFromEset_split (h0 : sm.statistics = ∅) (hsplit : sm.enableStarSplit = true)
    (hM : 3 ≤ sm.maxStarSize) (hd : ∀ e ∈ esets, e.Distinct)
    (h : collectStatistics pow db sm esets = .ok sm') (he : e ∈ esets) (h2 : 2 ≤ e.entries.size) :
    ∃ st, sm'.getStatisticsFromEset e = .ok st ∧
      ((e.entries.size : ℤ) ≤ sm.maxStarSize → st.card = ((starJoin db e).card : K)) ∧
      ((e.entries.size : ℤ) ≤ 2 * sm.maxStarSize → ((starJoin db e).card : K) ≤ st.card) ∧
      (2 * sm.maxStarSize < (e.entries.size : ℤ) → st.card = 0) := by
  have hopt := toOptions_of_collectStatistics h0 h
  have hsplit' : sm'.enableStarSplit = true := by rw [hopt]; exact hsplit
  obtain ⟨chunks, hok, hc⟩ := EqualSet.split_chunks hM (e := e) (by omega)
  have hstat := chunk_statistics h0 hM hd h he hc
  have hok' : e.split sm'.maxStarSize = .ok chunks := by rw [hopt]; exact hok
  have hne : e.entries.toList ≠ [] := fun hnil => by simp [OrdSet.size, hnil] at h2
  have hone : chunks.length ≤ 1 ↔ (e.entries.size : ℤ) ≤ sm.maxStarSize := hc.one_iff
  have htwo : chunks.length ≤ 2 ↔ (e.entries.size : ℤ) ≤ 2 * sm.maxStarSize := hc.two_iff
  have hprod := starCount_chunks db hc
  rw [StatisticManager.getStatisticsFromEset, if_pos hsplit', hok']
  rcases chunks with _ | ⟨c1, _ | ⟨c2, rest⟩⟩
  · exact absurd hc.flatten.symm hne
  · -- a single chunk is the star itself
    have hce : c1 = e := by
      refine EqualSet.ext_entries fun x => ?_
      rw [OrdSet.mem_def, OrdSet.mem_def, ← hc.flatten]
      simp
    obtain ⟨-, st, hfind, hsum⟩ := hstat c1 (.head _)
    rw [hce] at hfind hsum
    refine ⟨{ st with precision := sm'.compressPrecision }, ?_, fun _ => hsum.card,
      fun _ => hsum.card.ge, fun hlt => ?_⟩
    · simp only [StatisticManager.chunkStatistics, hce, hfind, bind, Except.bind]
      rfl
    · have := htwo.mp (by simp)
      omega
  · -- the first two chunks are merged; any more find an empty center sequence
    obtain ⟨hne1, st1, hfind1, hsum1⟩ := hstat c1 (.head _)
    obtain ⟨hne2, st2, hfind2, hsum2⟩ := hstat c2 (.tail _ (.head _))
    have hd1 := hsum1.central_descending hne1
    have hd2 := hsum2.central_descending hne2
    set st1' : DSStatistic K := { st1 with precision := sm'.compressPrecision } with hst1
    obtain ⟨new, hnew, hstored, hcentral, hcard⟩ := mergeByCenter_ok (show st1'.Stored from hsum1.stored)
      hsum2.stored hd1.count_nonneg hd2.count_nonneg
    have hstep : sm'.mergeChunk e st1' c2 = .ok new := by
      simp only [StatisticManager.mergeChunk, StatisticManager.chunkStatistics, hfind2]
      exact hnew
    have hone' : ¬(e.entries.size : ℤ) ≤ sm.maxStarSize := fun hle => by simpa using hone.mpr hle
    have hrest : ∀ st', rest.foldlM (sm'.mergeChunk e) new = .ok st' →
        (do
          let ds ← sm'.chunkStatistics e c1
          (c2 :: rest).foldlM (sm'.mergeChunk e) { ds with precision := sm'.compressPrecision }) =
        .ok st' := fun st' hst' => by
      simp only [StatisticManager.chunkStatistics, hfind1, bind, Except.bind]
      rw [List.foldlM_cons, hstep]
      exact hst'
    by_cases hnil : rest = []
    · subst hnil
      refine ⟨new, hrest new rfl, fun hle => absurd hle hone', fun _ => ?_, fun hlt => ?_⟩
      · rw [hcard, card_starJoin hne, ← List.sum_toFinset _ nodup_live, Nat.cast_sum]
        refine le_trans (le_of_eq (sum_congr rfl fun v _ => ?_))
          (sum_mul_le_products hd1 hd2 (hsum1.central_dominates hne1)
            (hsum2.central_dominates hne2) (fun _ => Nat.cast_nonneg _) (live db e).toFinset)
        rw [hprod v]
        simp
      · have := htwo.mp (by simp)
        omega
    · obtain ⟨st', hst', h0⟩ := mergeChunks_zero sm' e
        (fun c hcm => by
          obtain ⟨hnec, stc, hfind, hsum⟩ := hstat c (.tail _ (.tail _ hcm))
          exact ⟨stc, hfind, hsum.stored, (hsum.central_descending hnec).count_nonneg⟩)
        hnil hstored hcentral
      refine ⟨st', hrest st' hst', fun hle => absurd hle hone', fun hle => ?_, fun _ => h0⟩
      have := List.length_pos_of_ne_nil hnil
      have := htwo.mpr hle
      simp only [List.length_cons] at this
      omega

theorem card_starJoin_eq_zero (hne : e.entries.toList ≠ []) :
    (starJoin db e).card = 0 ↔ ∀ v, ∃ c ∈ e.entries, v ∉ columnValues db c := by
  rw [card_starJoin hne, List.sum_eq_zero_iff]
  simp only [List.mem_map, forall_exists_index, and_imp, forall_apply_eq_imp_iff₂, mem_live hne]
  have hiff : ∀ v, 0 < starCount db e v ↔ ∀ c ∈ e.entries, v ∈ columnValues db c := fun v => by
    simp only [starCount_pos, columnCount_pos]
  constructor
  · intro h v
    by_contra hv
    push Not at hv
    have := (hiff v).mpr hv
    have := h v this
    omega
  · intro h v hv
    obtain ⟨c, hc, hn⟩ := h v
    exact absurd ((hiff v).mp hv c hc) hn

/-- With star splitting the statistic of a star bounds its join, exactly for one chunk, as long as
there are no more than two chunks or no key value occurs in every table. -/
theorem getStatisticsFromEset_bound_iff (h0 : sm.statistics = ∅)
    (hsplit : sm.enableStarSplit = true) (hM : 3 ≤ sm.maxStarSize)
    (hd : ∀ e ∈ esets, e.Distinct) (h : collectStatistics pow db sm esets = .ok sm')
    (he : e ∈ esets) (h2 : 2 ≤ e.entries.size) :
    ∃ st, sm'.getStatisticsFromEset e = .ok st ∧
      ((((starJoin db e).card : K) ≤ st.card ∧
        ((e.entries.size : ℤ) ≤ sm.maxStarSize → st.card = ((starJoin db e).card : K))) ↔
      ((e.entries.size : ℤ) ≤ 2 * sm.maxStarSize ∨
        ∀ v, ∃ c ∈ e.entries, v ∉ columnValues db c)) := by
  have hne : e.entries.toList ≠ [] := fun hnil => by simp [OrdSet.size, hnil] at h2
  obtain ⟨st, hok, hone, htwo, hmany⟩ := getStatisticsFromEset_split h0 hsplit hM hd h he h2
  refine ⟨st, hok, ?_⟩
  rw [← card_starJoin_eq_zero hne]
  by_cases hle : (e.entries.size : ℤ) ≤ 2 * sm.maxStarSize
  · exact iff_of_true ⟨htwo hle, hone⟩ (.inl hle)
  · rw [hmany (not_le.mp hle)]
    constructor
    · rintro ⟨hz, -⟩
      exact .inr (by exact_mod_cast le_antisymm hz (Nat.cast_nonneg _))
    · rintro (h | hz)
      · exact absurd h hle
      · exact ⟨by rw [hz]; simp, fun h => absurd h (by omega)⟩

/-! ## Seven tables in three chunks -/

section Example

/-- One row with key one in every table. -/
def everyTable : Database ℕ := fun _ => [fun _ => some 1]

def sevenStar : EqualSet :=
  ⟨.ofList (["a", "b", "c", "d", "e", "f", "g"].map fun t => ⟨t, "x"⟩)⟩

def splitManager : StatisticManager ℚ :=
  { StatisticManager.initial with enableStarSplit := true }

theorem getStatisticsFromEset_bound_sevenStar : ∃ sm' : StatisticManager ℚ,
    collectStatistics (fun x _ => x) everyTable splitManager [sevenStar] = .ok sm' ∧
    ∃ st, sm'.getStatisticsFromEset sevenStar = .ok st ∧
      ((((starJoin everyTable sevenStar).card : ℚ) ≤ st.card ∧
        ((sevenStar.entries.size : ℤ) ≤ 3 →
          st.card = ((starJoin everyTable sevenStar).card : ℚ))) ↔
      ((sevenStar.entries.size : ℤ) ≤ 2 * 3 ∨
        ∀ v, ∃ c ∈ sevenStar.entries, v ∉ columnValues everyTable c)) := by
  obtain ⟨sm', hok, -, -⟩ := StatisticManager.collectStatistics_ok (K := ℚ) (fun x _ => x)
    everyTable (show splitManager.statistics = ∅ from rfl)
    (show ∀ e ∈ [sevenStar], e.entries.toList ≠ [] by decide)
  exact ⟨sm', hok, getStatisticsFromEset_bound_iff rfl rfl (by decide)
    (by simp only [List.mem_singleton, forall_eq]; unfold EqualSet.Distinct; decide) hok
    (.head _) (by decide)⟩

/-- One star row, and an estimate of none. -/
theorem sevenStar_card : ∃ (sm' : StatisticManager ℚ) (st : DSStatistic ℚ),
    collectStatistics (fun x _ => x) everyTable splitManager [sevenStar] = .ok sm' ∧
    sm'.getStatisticsFromEset sevenStar = .ok st ∧ st.card = 0 ∧
    (starJoin everyTable sevenStar).card = 1 := by
  obtain ⟨sm', hok, -, -⟩ := StatisticManager.collectStatistics_ok (K := ℚ) (fun x _ => x)
    everyTable (show splitManager.statistics = ∅ from rfl)
    (show ∀ e ∈ [sevenStar], e.entries.toList ≠ [] by decide)
  obtain ⟨st, hst, -, -, hmany⟩ := getStatisticsFromEset_split rfl rfl (by decide)
    (by simp only [List.mem_singleton, forall_eq]; unfold EqualSet.Distinct; decide) hok
    (.head _) (by decide)
  refine ⟨sm', st, hok, hst, hmany (by decide), ?_⟩
  rw [card_starJoin (by decide)]
  decide +kernel

end Example

end StarCE
