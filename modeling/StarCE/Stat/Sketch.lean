import StarCE.Stat.Compressed
import StarCE.Stat.Limit

/-!
# Sketches of a bag

A sketch of a bag of degrees is what a collection leaves of it: the bag
compressed and cut at its total. For a bag of positive integers it dominates
the bag, keeps its total and stays within the precision of it.
-/

namespace StarCE

open DSStatistic Finset

variable {K : Type} [Field K] [LinearOrder K] [FloorRing K]

/-- `ds` is the bag, added in some order and grouping, compressed and cut at `card`. -/
def Sketch (p card : K) (bag : List K) (ds : DegreeSequence K) : Prop :=
  ∃ calls, PosCounts calls ∧ (spread calls).Perm bag ∧
    ds = limitDsToCard ⟨compress p calls, []⟩ card

/-- A bag of positive integers. -/
def Whole (bag : List K) : Prop := ∀ x ∈ bag, 1 ≤ x ∧ IsInt x

variable [IsStrictOrderedRing K] {p card : K} {bag : List K} {ds ds' : DegreeSequence K}

/-- A sketch is determined by the bag. -/
theorem Sketch.unique (h : Sketch p card bag ds) (h' : Sketch p card bag ds') : ds = ds' := by
  obtain ⟨calls, hc, hperm, rfl⟩ := h
  obtain ⟨calls', hc', hperm', rfl⟩ := h'
  rw [compress_congr hc hc' (hperm.trans hperm'.symm)]

omit [FloorRing K] [IsStrictOrderedRing K] in
theorem Whole.sum_isInt (h : Whole bag) : IsInt bag.sum := by
  induction bag with
  | nil => exact .zero
  | cons x l ih =>
    rw [List.sum_cons]
    exact (h x (.head _)).2.add (ih fun y hy => h y (.tail _ hy))

theorem Whole.sum_nonneg (h : Whole bag) : 0 ≤ bag.sum :=
  List.sum_nonneg fun x hx => zero_le_one.trans (h x hx).1

section Calls

variable {calls : List (K × ℤ)}

omit [FloorRing K] [IsStrictOrderedRing K] in
/-- The degrees of the calls are those of the bag. -/
theorem Whole.of_call (h : Whole bag) (hc : PosCounts calls) (hperm : (spread calls).Perm bag) :
    ∀ c ∈ calls, 1 ≤ c.1 ∧ IsInt c.1 := fun c hm =>
  h c.1 (hperm.mem_iff.mp ((mem_spread_iff hc c.1).mpr (List.mem_map_of_mem hm)))

section

omit [IsStrictOrderedRing K]

theorem Whole.toCalls (h : Whole bag) (hc : PosCounts calls) (hperm : (spread calls).Perm bag) :
    Calls calls :=
  ⟨fun c hm => zero_le_one.trans (h.of_call hc hperm c hm).1, fun c hm => (hc c hm).le⟩

theorem compress_integral (h : ∀ c ∈ calls, IsInt c.1) : Integral (compress p calls) := by
  intro b hb
  obtain ⟨c, hc, he⟩ := exists_call_of_mem hb
  exact he ▸ h c hc

end

end Calls

namespace Sketch

theorem descending (h : Sketch p card bag ds) (hb : Whole bag) :
    Descending ds.buckets := by
  obtain ⟨calls, hc, hperm, rfl⟩ := h
  exact limitDs_descending (compress_descending p (hb.toCalls hc hperm))

theorem strict (h : Sketch p card bag ds) (hb : Whole bag) :
    ds.buckets.Pairwise fun b c => c.maxDegree < b.maxDegree := by
  obtain ⟨calls, hc, hperm, rfl⟩ := h
  exact limit_strict rowEps_pos.le (compress_descending p (hb.toCalls hc hperm))
    (compress_strict _ _)

theorem count_pos (h : Sketch p card bag ds) (hb : Whole bag) :
    ∀ b ∈ ds.buckets, 0 < b.count := by
  obtain ⟨calls, hc, hperm, rfl⟩ := h
  have hcalls := hb.toCalls hc hperm
  exact limit_count_pos rowEps_pos.le (compress_descending p hcalls) fun b =>
    compress_count_pos hc hcalls.degree_nonneg

omit [IsStrictOrderedRing K] in
theorem integral (h : Sketch p bag.sum bag ds) (hb : Whole bag) : Integral ds.buckets := by
  obtain ⟨calls, hc, hperm, rfl⟩ := h
  exact limitDs_integral (compress_integral fun c hm => (hb.of_call hc hperm c hm).2) hb.sum_isInt

/-- The prefix sums of a sketch are those of the compressed bag, up to the bag's total. -/
theorem pre_eq (h : Sketch p bag.sum bag ds) (hb : Whole bag) :
    ∃ calls, PosCounts calls ∧ (spread calls).Perm bag ∧
      ∀ k, pre (seq ds.buckets) k = min (pre (seq (compress p calls)) k) bag.sum := by
  obtain ⟨calls, hc, hperm, rfl⟩ := h
  refine ⟨calls, hc, hperm, fun k => ?_⟩
  exact pre_limitDs (compress_descending p (hb.toCalls hc hperm))
    (compress_integral fun c hm => (hb.of_call hc hperm c hm).2) hb.sum_nonneg hb.sum_isInt k

theorem dominates (h : Sketch p bag.sum bag ds) (hb : Whole bag) :
    BagDominates (seq ds.buckets) bag := by
  obtain ⟨calls, hc, hperm, hpre⟩ := h.pre_eq hb
  intro s hs
  rw [hpre]
  refine le_min ?_ ?_
  · exact compress_dominates p (hb.toCalls hc hperm) s (by rwa [Multiset.coe_eq_coe.mpr hperm])
  · obtain ⟨t, ht⟩ := Multiset.le_iff_exists_add.mp hs
    have h0 : 0 ≤ t.sum := Multiset.sum_nonneg fun x hx => by
      have hm : x ∈ (bag : Multiset K) := ht ▸ Multiset.mem_add.mpr (.inr hx)
      exact zero_le_one.trans (hb x (Multiset.mem_coe.mp hm)).1
    have := congrArg Multiset.sum ht
    rw [Multiset.sum_coe, Multiset.sum_add] at this
    linarith

theorem sum_eq (h : Sketch p bag.sum bag ds) (hb : Whole bag) :
    (expand ds.buckets).sum = bag.sum := by
  obtain ⟨calls, hc, hperm, rfl⟩ := h
  have hcalls := hb.toCalls hc hperm
  refine sum_limitDs (compress_descending p hcalls)
    (compress_integral fun c hm => (hb.of_call hc hperm c hm).2) hb.sum_nonneg hb.sum_isInt ?_
  rw [← hperm.sum_eq]
  exact sum_spread_le_compress p hcalls

/-- Every `k` ranks are matched, up to the precision, by `k` members of the bag. -/
theorem tight (h : Sketch p bag.sum bag ds) (hp : 1 < p) (hb : Whole bag) (k : ℕ) :
    ∃ s ≤ (bag : Multiset K), s.card ≤ k ∧ pre (seq ds.buckets) k ≤ p * s.sum := by
  obtain ⟨calls, hc, hperm, hpre⟩ := h.pre_eq hb
  obtain ⟨s, hs, hk, hle⟩ := compress_tight hp hc (fun c hm => (hb.of_call hc hperm c hm).1) k
  refine ⟨s, by rwa [← Multiset.coe_eq_coe.mpr hperm], hk, ?_⟩
  rw [hpre]
  exact (min_le_left _ _).trans hle

end Sketch

end StarCE
