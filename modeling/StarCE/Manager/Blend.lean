import StarCE.Manager.Weighted

/-!
# A sequence of two weights

`PredMethod` 2 collects a filter's sequence like the degrees of a table: the
first `f` ranks with a weight `o`, the rest with a smaller weight `t`. No weight
is above one, so that both go into one bucket: `o` for a number of ranks that
keeps the sum (`expand_blend`). The products with it are those of the two
weights only in the cases of `TailKept` (`sum_products_blend_iff`).
-/

namespace StarCE

open Finset

variable {K V : Type} [Field K] [LinearOrder K] [FloorRing K] [DecidableEq V]

/-- The ranks of `l` among the first `f`, where `l` starts at the rank `pos`. -/
def headCount (f pos : ℤ) (l : List (Bucket K)) : ℤ :=
  min (max (f - pos) 0) (l.map (·.count)).sum

section Calls

variable {o t : K} {f pos : ℤ} {l : List (Bucket K)}

open StatisticManager (blendCalls)

section

omit [Field K] [LinearOrder K] [FloorRing K]

theorem sum_count_nonneg (hc : ∀ b ∈ l, 0 ≤ b.count) : 0 ≤ (l.map (·.count)).sum :=
  List.sum_nonneg fun x hx => by
    obtain ⟨b, hb, rfl⟩ := List.mem_map.mp hx
    exact hc b hb


theorem headCount_nonneg (hc : ∀ b ∈ l, 0 ≤ b.count) : 0 ≤ headCount f pos l :=
  le_min (le_max_right _ _) (sum_count_nonneg hc)

theorem headCount_cons (b : Bucket K) (hb : 0 ≤ b.count) (hc : ∀ b ∈ l, 0 ≤ b.count) :
    headCount f pos (b :: l) =
      (if pos < f then min b.count (f - pos) else 0) + headCount f (pos + b.count) l := by
  have hsum := sum_count_nonneg hc
  unfold headCount
  rw [List.map_cons, List.sum_cons]
  split <;> omega

end

variable [IsStrictOrderedRing K]

theorem mem_ite_singleton {α : Type} {P : Prop} [Decidable P] {x y : α} :
    y ∈ (if P then [x] else []) ↔ P ∧ y = x := by
  split
  · next h => simp [h]
  · next h => simp [h]

section

omit [FloorRing K] [IsStrictOrderedRing K]

theorem mem_blendCalls (hc : ∀ b ∈ l, 0 ≤ b.count) {c : K × ℤ} (h : c ∈ blendCalls o t f pos l) :
    (c.1 = o ∨ c.1 = t ∧ 0 < t) ∧ 0 ≤ c.2 := by
  induction l generalizing pos with
  | nil => cases h
  | cons b l ih =>
    have hb := hc b (.head _)
    rw [blendCalls, List.mem_append, List.mem_append] at h
    rcases h with (h | h) | h
    · obtain ⟨hlt, rfl⟩ := mem_ite_singleton.mp h
      refine ⟨.inl rfl, ?_⟩
      show 0 ≤ if pos < f then min b.count (f - pos) else 0
      rw [if_pos hlt]
      omega
    · obtain ⟨⟨hlt, ht⟩, rfl⟩ := mem_ite_singleton.mp h
      exact ⟨.inr ⟨rfl, ht⟩, hlt.le⟩
    · exact ih (fun d hd => hc d (.tail _ hd)) h

/-- What the calls add up to. -/
theorem totals_blendCalls (hc : ∀ b ∈ l, 0 ≤ b.count) (ht : 0 ≤ t) :
    totalDegree (blendCalls o t f pos l) = o * (headCount f pos l : K) +
        t * (((l.map (·.count)).sum - headCount f pos l : ℤ) : K) ∧
      totalCount (blendCalls o t f pos l) = headCount f pos l +
        if 0 < t then (l.map (·.count)).sum - headCount f pos l else 0 := by
  induction l generalizing pos with
  | nil => simp [blendCalls, totalDegree, totalCount, headCount]
  | cons b l ih =>
    have hb := hc b (.head _)
    have hl : ∀ d ∈ l, 0 ≤ d.count := fun d hd => hc d (.tail _ hd)
    obtain ⟨hd, hn⟩ := @ih (pos + b.count) hl
    have hcons : headCount f pos (b :: l) = _ := headCount_cons b hb hl
    set h := headCount f (pos + b.count) l with hh
    set lap : ℤ := if pos < f then min b.count (f - pos) else 0 with hlap
    have hlap0 : 0 ≤ b.count - lap := by rw [hlap]; split <;> omega
    have hlap1 : ¬pos < f → lap = 0 := fun hlt => if_neg hlt
    have hcalls : blendCalls o t f pos (b :: l) = (if pos < f then [(o, lap)] else []) ++
        (if 0 < b.count - lap ∧ 0 < t then [(t, b.count - lap)] else []) ++
        blendCalls o t f (pos + b.count) l := rfl
    rw [hcons, List.map_cons, List.sum_cons]
    constructor
    · have h1 : totalDegree (if pos < f then [(o, lap)] else []) = o * (lap : K) := by
        split
        · simp [totalDegree]
        · next hlt => simp [totalDegree, hlap1 hlt]
      have h2 : totalDegree (if 0 < b.count - lap ∧ 0 < t then [(t, b.count - lap)] else []) =
          t * ((b.count - lap : ℤ) : K) := by
        split
        · simp [totalDegree]
        · next hlt =>
          rw [not_and_or] at hlt
          rcases hlt with hlt | hlt
          · have hz : b.count - lap = 0 := by omega
            simp [totalDegree, hz]
          · have hz : t = 0 := le_antisymm (not_lt.mp hlt) ht
            simp [totalDegree, hz]
      have happ : ∀ x y : List (K × ℤ), totalDegree (x ++ y) = totalDegree x + totalDegree y :=
        fun x y => by simp [totalDegree]
      rw [hcalls, happ, happ, h1, h2, hd]
      push_cast
      ring
    · have h1 : totalCount (if pos < f then [(o, lap)] else []) = lap := by
        split
        · simp [totalCount]
        · next hlt => simp [totalCount, hlap1 hlt]
      have h2 : totalCount (if 0 < b.count - lap ∧ 0 < t then [(t, b.count - lap)] else []) =
          if 0 < t then b.count - lap else 0 := by
        by_cases ht0 : 0 < t
        · by_cases hlt : 0 < b.count - lap
          · rw [if_pos ⟨hlt, ht0⟩, if_pos ht0]
            simp [totalCount]
          · have hz : b.count - lap = 0 := by omega
            simp [totalCount, hz]
        · simp [totalCount, ht0]
      have happ : ∀ x y : List (K × ℤ), totalCount (x ++ y) = totalCount x + totalCount y :=
        fun x y => by simp [totalCount]
      rw [hcalls, happ, happ, h1, h2, hn]
      split <;> omega

end

/-- The ranks that the larger weight takes, so that the sum is that of both. -/
def blendCount (o t : K) (f : ℤ) (l : List (Bucket K)) : ℤ :=
  headCount f 0 l + ⌈t * (((l.map (·.count)).sum - headCount f 0 l : ℤ) : K) / o⌉

omit [Field K] [LinearOrder K] [FloorRing K] [IsStrictOrderedRing K] in
theorem headCount_le (f pos : ℤ) (l : List (Bucket K)) :
    headCount f pos l ≤ (l.map (·.count)).sum := min_le_right _ _

theorem blendCount_bounds (ho : 0 < o) (ht : 0 ≤ t) (hto : t ≤ o) :
    headCount f 0 l ≤ blendCount o t f l ∧ blendCount o t f l ≤ (l.map (·.count)).sum := by
  have hrest : (0 : K) ≤ (((l.map (·.count)).sum - headCount f 0 l : ℤ) : K) := by
    exact_mod_cast sub_nonneg.mpr (headCount_le f 0 l)
  unfold blendCount
  constructor
  · have := Int.ceil_nonneg (div_nonneg (mul_nonneg ht hrest) ho.le)
    omega
  · have hle : ⌈t * (((l.map (·.count)).sum - headCount f 0 l : ℤ) : K) / o⌉ ≤
        (l.map (·.count)).sum - headCount f 0 l := by
      rw [Int.ceil_le, div_le_iff₀ ho, mul_comm]
      exact mul_le_mul_of_nonneg_left hto hrest
    omega

/-- One bucket of the larger weight is left. -/
theorem expand_blend (p : K) (hc : ∀ b ∈ l, 0 ≤ b.count) (ho : 0 < o) (ho1 : o ≤ 1) (ht : 0 ≤ t)
    (hto : t ≤ o) (hf : 0 < f) :
    (∀ b ∈ compress p (blendCalls o t f 0 l), 0 ≤ b.count) ∧
      expand (compress p (blendCalls o t f 0 l)) =
        List.replicate (blendCount o t f l).toNat o := by
  have hcalls : Calls (blendCalls o t f 0 l) := by
    constructor
    · intro c hcm
      rcases (mem_blendCalls hc hcm).1 with h | ⟨h, -⟩
      · exact h ▸ ho.le
      · exact h ▸ ht
    · exact fun c hcm => (mem_blendCalls hc hcm).2
  have hpos : ∀ c ∈ blendCalls o t f 0 l, bucketPos c.1 p = 0 := by
    intro c hcm
    rw [bucketPos, if_neg]
    rcases (mem_blendCalls hc hcm).1 with h | ⟨h, -⟩
    · exact h ▸ not_lt.mpr ho1
    · exact h ▸ not_lt.mpr (hto.trans ho1)
  have hcell : compress p (blendCalls o t f 0 l) = (cellOf (blendCalls o t f 0 l)).toList := by
    rw [compress_eq (n := 1) fun c hcm => by rw [hpos c hcm]; exact Nat.one_pos]
    have hin : inBucket p 0 (blendCalls o t f 0 l) = blendCalls o t f 0 l :=
      List.filter_eq_self.mpr fun c hcm => by simpa using hpos c hcm
    rw [List.range_one, List.reverse_singleton, List.filterMap_cons, hin]
    cases cellOf (blendCalls o t f 0 l) <;> rfl
  obtain ⟨hd, hn⟩ : totalDegree (blendCalls o t f 0 l) = _ ∧ totalCount (blendCalls o t f 0 l) = _ :=
    totals_blendCalls hc ht
  obtain ⟨hge, hle⟩ := blendCount_bounds (f := f) (l := l) ho ht hto
  have h0 : 0 ≤ headCount f 0 l := headCount_nonneg hc
  have hhead := headCount_le f 0 l
  have htop : l ≠ [] → topDegree (blendCalls o t f 0 l) = o := by
    intro hl
    obtain ⟨b, l, rfl⟩ := List.exists_cons_of_ne_nil hl
    have hfirst : (o, min b.count (f - 0)) ∈ blendCalls o t f 0 (b :: l) := by
      rw [blendCalls, if_pos hf, if_pos hf]
      exact .head _
    have hge := le_topDegree hfirst
    obtain ⟨c, hcm, hce⟩ := exists_topDegree (ho.trans_le hge).ne'
    rcases (mem_blendCalls hc hcm).1 with h | ⟨h, -⟩
    · rw [← hce, h]
    · exact le_antisymm (by rw [← hce, h]; exact hto) hge
  have hzero : totalCount (blendCalls o t f 0 l) = 0 → blendCount o t f l = 0 := by
    intro h
    rw [hn] at h
    unfold blendCount
    split at h
    · have h1 : headCount f 0 l = 0 := by omega
      have h2 : (l.map (·.count)).sum = 0 := by omega
      simp [h1, h2]
    · next hlt => simp [le_antisymm (not_lt.mp hlt) ht, show headCount f 0 l = 0 by omega]
  rw [hcell]
  cases hcase : cellOf (blendCalls o t f 0 l) with
  | none =>
    have hzero : blendCount o t f l = 0 := by
      apply hzero
      by_cases hl : l = []
      · rw [hl]
        rfl
      · unfold cellOf at hcase
        split at hcase
        · next h => exact h.resolve_right (by rw [htop hl]; exact ho.ne')
        · cases hcase
    rw [hzero]
    exact ⟨fun b hb => absurd hb List.not_mem_nil, rfl⟩
  | some b =>
    have hmem : b ∈ compress p (blendCalls o t f 0 l) := by rw [hcell, hcase]; exact .head _
    obtain ⟨htotal, -, hdeg, hcount⟩ := cellOf_eq_some hcase
    have hl : l ≠ [] := by
      rintro rfl
      exact htotal rfl
    have hb : b.count = blendCount o t f l := by
      have hdiv : totalDegree (blendCalls o t f 0 l) / o = (headCount f 0 l : K) +
          t * (((l.map (·.count)).sum - headCount f 0 l : ℤ) : K) / o := by
        rw [hd, add_div, mul_div_cancel_left₀ _ ho.ne']
      rw [hcount, htop hl, hdiv, Int.ceil_intCast_add, ← blendCount, hn]
      apply min_eq_left
      split
      · omega
      · next hlt =>
        have hrest : blendCount o t f l = headCount f 0 l := by
          simp [blendCount, le_antisymm (not_lt.mp hlt) ht]
        omega
    refine ⟨fun d hd => (compress_descending p hcalls).count_nonneg d (by rw [hcell, hcase]; exact hd), ?_⟩
    rw [Option.toList_some, expand_cons, expand_nil, List.append_nil, hb, hdeg, htop hl]

end Calls

/-! ## When the tail keeps its weight -/

section Tail

variable [IsStrictOrderedRing K] {o t : K} {e : ℕ → K} {j T : ℕ}

section

omit [FloorRing K]

/-- The first members of a non-increasing sequence weigh more than the others. -/
theorem mul_pre_sub (he : Antitone e) (j T : ℕ) :
    (j : K) * e j ≤ pre e j ∧ pre (fun i => e (j + i)) (T - j) ≤ ((T - j : ℕ) : K) * e j := by
  constructor
  · calc (j : K) * e j = ∑ _i ∈ range j, e j := by rw [sum_const, card_range, nsmul_eq_mul]
      _ ≤ pre e j := sum_le_sum fun i hi => he (mem_range.mp hi).le
  · calc pre (fun i => e (j + i)) (T - j) ≤ ∑ _i ∈ range (T - j), e j :=
          sum_le_sum fun i _ => he (Nat.le_add_right j i)
      _ = ((T - j : ℕ) : K) * e j := by rw [sum_const, card_range, nsmul_eq_mul]

/-- Without loss on either side of `j` the sequence is constant. -/
theorem eq_of_pre_eq (he : Antitone e) (hj : j ≤ T) (h1 : pre e j = (j : K) * e j)
    (h2 : pre (fun i => e (j + i)) (T - j) = ((T - j : ℕ) : K) * e j) : ∀ i < T, e i = e j := by
  have hhead : ∑ _i ∈ range j, e j = pre e j := by
    rw [h1, sum_const, card_range, nsmul_eq_mul]
  have htail : pre (fun i => e (j + i)) (T - j) = ∑ _i ∈ range (T - j), e j := by
    rw [h2, sum_const, card_range, nsmul_eq_mul]
  intro i hi
  by_cases hij : i < j
  · have := (sum_eq_sum_iff_of_le fun i hi => he (mem_range.mp hi).le).mp hhead i
      (mem_range.mpr hij)
    exact this.symm
  · have := (sum_eq_sum_iff_of_le fun i _ => he (Nat.le_add_right j i)).mp htail (i - j)
      (mem_range.mpr (by omega))
    rwa [Nat.add_sub_cancel' (not_lt.mp hij)] at this

end

/-- A weight `o` on the first ranks, so many that the sum would be that of `t` on all. -/
theorem mul_pre_ceil_iff (he : Antitone e) (hpos : ∀ i < T, 0 < e i) (ho : 0 < o) (ht : 0 ≤ t)
    (hto : t ≤ o) : o * pre e ⌈t * (T : K) / o⌉.toNat = t * pre e T ↔
      T = 0 ∨ t = 0 ∨ t = o ∨ (∀ i < T, e i = e 0) ∧ ∃ j : ℤ, t * (T : K) = o * (j : K) := by
  have hT0 : (0 : K) ≤ (T : K) := Nat.cast_nonneg T
  have hceil0 : 0 ≤ ⌈t * (T : K) / o⌉ := Int.ceil_nonneg (div_nonneg (mul_nonneg ht hT0) ho.le)
  obtain ⟨j, hj⟩ : ∃ j : ℕ, ⌈t * (T : K) / o⌉ = (j : ℤ) := ⟨_, (Int.toNat_of_nonneg hceil0).symm⟩
  have hjT : j ≤ T := by
    have : ⌈t * (T : K) / o⌉ ≤ (T : ℤ) := by
      rw [Int.ceil_le, div_le_iff₀ ho, mul_comm]
      exact_mod_cast mul_le_mul_of_nonneg_left hto hT0
    omega
  have hjo : t * (T : K) ≤ o * (j : K) := by
    have := Int.le_ceil (t * (T : K) / o)
    rw [hj, div_le_iff₀ ho] at this
    rw [mul_comm o]
    exact_mod_cast this
  rw [hj, Int.toNat_natCast]
  have hsplit : pre e T = pre e j + pre (fun i => e (j + i)) (T - j) := by
    rw [← pre_add, Nat.add_sub_cancel' hjT]
  obtain ⟨hhead, htail⟩ := mul_pre_sub he j T
  constructor
  · intro h
    by_cases hT : T = 0
    · exact .inl hT
    by_cases ht0 : t = 0
    · exact .inr (.inl ht0)
    by_cases hoo : t = o
    · exact .inr (.inr (.inl hoo))
    have hTpos : (0 : K) < (T : K) := by exact_mod_cast Nat.pos_of_ne_zero hT
    have htpos : 0 < t := lt_of_le_of_ne ht (Ne.symm ht0)
    have hS : 0 < pre e T := by
      apply sum_pos (fun i hi => hpos i (mem_range.mp hi))
      exact ⟨0, mem_range.mpr (Nat.pos_of_ne_zero hT)⟩
    set P := pre e j with hP
    set Q := pre (fun i => e (j + i)) (T - j) with hQ
    have hcast : (((T - j : ℕ) : K)) = (T : K) - (j : K) := Nat.cast_sub hjT
    rw [hcast] at htail
    have hgap : 0 ≤ (T : K) - (j : K) := by rw [← hcast]; exact Nat.cast_nonneg _
    -- the average of the first `j` is both at least and at most that of all
    have hge : (j : K) * pre e T ≤ (T : K) * P := by
      have h1 := mul_nonneg hgap (sub_nonneg.mpr hhead)
      have h2 := mul_nonneg (Nat.cast_nonneg (α := K) j) (sub_nonneg.mpr htail)
      rw [hsplit]
      linarith
    have hle : o * ((T : K) * P) ≤ o * ((j : K) * pre e T) := by
      calc o * ((T : K) * P) = t * (T : K) * pre e T := by linear_combination (T : K) * h
        _ ≤ o * (j : K) * pre e T := mul_le_mul_of_nonneg_right hjo hS.le
        _ = o * ((j : K) * pre e T) := by ring
    have heq : (T : K) * P = (j : K) * pre e T := le_antisymm (le_of_mul_le_mul_left hle ho) hge
    have hwhole : t * (T : K) = o * (j : K) := by
      apply mul_right_cancel₀ hS.ne'
      linear_combination o * heq - (T : K) * h
    have hlt : (j : K) < (T : K) := by
      have hlt : o * (j : K) < o * (T : K) := by
        rw [← hwhole]
        exact mul_lt_mul_of_pos_right (lt_of_le_of_ne hto hoo) hTpos
      exact lt_of_mul_lt_mul_left hlt ho.le
    have hjpos : 0 < (j : K) := by
      have hlt : o * 0 < o * (j : K) := by
        rw [← hwhole, mul_zero]
        exact mul_pos htpos hTpos
      exact lt_of_mul_lt_mul_left hlt ho.le
    rw [hsplit] at heq
    have h1 : 0 ≤ ((T : K) - (j : K)) * (P - (j : K) * e j) := mul_nonneg hgap (sub_nonneg.mpr hhead)
    have h2 : 0 ≤ (j : K) * (((T : K) - (j : K)) * e j - Q) :=
      mul_nonneg hjpos.le (sub_nonneg.mpr htail)
    have h3 : ((T : K) - (j : K)) * (P - (j : K) * e j) = 0 := by linarith
    have h4 : (j : K) * (((T : K) - (j : K)) * e j - Q) = 0 := by linarith
    have hconst := eq_of_pre_eq he hjT
      (sub_eq_zero.mp ((mul_eq_zero.mp h3).resolve_left (sub_pos.mpr hlt).ne'))
      (by rw [hcast]; exact (sub_eq_zero.mp ((mul_eq_zero.mp h4).resolve_left hjpos.ne')).symm)
    refine .inr (.inr (.inr ⟨fun i hi => ?_, j, by exact_mod_cast hwhole⟩))
    rw [hconst i hi, hconst 0 (Nat.pos_of_ne_zero hT)]
  · rintro (h | h | h | ⟨hconst, j', hj'⟩)
    · have hj0 : j = 0 := by omega
      rw [hj0, h]
      simp [pre]
    · have hj0 : j = 0 := by
        rw [h, zero_mul, zero_div, Int.ceil_zero] at hj
        omega
      rw [hj0, h]
      simp [pre]
    · have hjeq : j = T := by
        rw [h, mul_div_cancel_left₀ _ ho.ne', Int.ceil_natCast] at hj
        omega
      rw [hjeq, h]
    · have hwhole : t * (T : K) = o * (j : K) := by
        rw [hj', mul_div_cancel_left₀ _ ho.ne', Int.ceil_intCast] at hj
        rw [hj', hj]
        norm_cast
      have hpre : ∀ k ≤ T, pre e k = (k : K) * e 0 := fun k hk => by
        rw [pre, sum_congr rfl fun i hi => hconst i ((mem_range.mp hi).trans_le hk), sum_const,
          card_range, nsmul_eq_mul]
      rw [hpre j hjT, hpre T le_rfl, ← mul_assoc, ← mul_assoc, hwhole]

/-- The weight of the ranks of the filtered rows. -/
def overlapFactor (c k : K) : K := c * (1 - k) + 1 * k

/-- The weight of the other ranks. -/
def tailFactor (c k : K) : K := c * (1 - k)

/-- When the ranks past `f` get the smaller weight: there are none, the weights are equal or the
smaller is zero, or these degrees are equal and the sum of the weights is a multiple of the
larger. -/
def TailKept (c k : K) (f : ℕ) (degrees : List K) : Prop :=
  degrees.length ≤ f ∨ k = 0 ∨ k = 1 ∨
    (∀ x ∈ degrees.drop f, ∀ y ∈ degrees.drop f, x = y) ∧
      ∃ j : ℤ, tailFactor c k * ((degrees.length - f : ℕ) : K) = overlapFactor c k * (j : K)

omit [FloorRing K] in
theorem factor_bounds {c k : K} (hc : 0 < c) (hc1 : c ≤ 1) (hk0 : 0 ≤ k) (hk : k ≤ 1) :
    0 < overlapFactor c k ∧ overlapFactor c k ≤ 1 ∧ 0 ≤ tailFactor c k ∧
      tailFactor c k ≤ overlapFactor c k := by
  have h1 : 0 ≤ 1 - k := sub_nonneg.mpr hk
  have h2 : 0 ≤ c * (1 - k) := mul_nonneg hc.le h1
  have h3 : c * (1 - k) ≤ 1 * (1 - k) := mul_le_mul_of_nonneg_right hc1 h1
  refine ⟨?_, ?_, h2, ?_⟩
  · unfold overlapFactor
    rcases hk0.lt_or_eq with h | h
    · linarith
    · rw [← h]
      linarith
  · unfold overlapFactor
    linarith
  · unfold overlapFactor tailFactor
    linarith

section

omit [LinearOrder K] [FloorRing K] [IsStrictOrderedRing K]

/-- The product with ranks of one weight. -/
theorem sum_products_replicate {ds1 ds2 : DegreeSequence K} {m : ℕ}
    (h1 : ∀ b ∈ ds1.buckets, 0 ≤ b.count) (h2 : ∀ b ∈ ds2.buckets, 0 ≤ b.count)
    (he : expand ds2.buckets = List.replicate m o) :
    (spread (products (alignRuns ds1 ds2))).sum = o * pre (seq ds1.buckets) m := by
  rw [sum_spread_products h1 h2 (n := m) (by rw [he, List.length_replicate]; exact min_le_right _ _),
    pre, pre, mul_sum]
  refine sum_congr rfl fun i hi => ?_
  have hone : entry (List.replicate m o) i = o := by
    rw [entry_of_lt (by simpa using mem_range.mp hi), List.getElem_replicate]
  rw [rankProduct, he, hone, seq, mul_comm]

/-- A rank past the first `f`. -/
theorem seq_add {l : List (Bucket K)} (f i : ℕ) : seq l (f + i) = entry ((expand l).drop f) i := by
  simp [seq, entry, List.getD_eq_getElem?_getD, List.getElem?_drop]

theorem forall_entry_iff {D : List K} (hD : D ≠ []) :
    (∀ i < D.length, entry D i = entry D 0) ↔ ∀ x ∈ D, ∀ y ∈ D, x = y := by
  have h0 : 0 < D.length := List.length_pos_of_ne_nil hD
  constructor
  · intro h x hx y hy
    obtain ⟨i, hi, rfl⟩ := List.mem_iff_getElem.mp hx
    obtain ⟨i', hi', rfl⟩ := List.mem_iff_getElem.mp hy
    rw [← entry_of_lt hi, ← entry_of_lt hi', h i hi, h i' hi']
  · intro h i hi
    rw [entry_of_lt hi, entry_of_lt h0]
    exact h _ (List.getElem_mem hi) _ (List.getElem_mem h0)

end

/-- The products are those of both weights exactly in the cases of `TailKept`. -/
theorem mul_pre_blend_iff {l : List (Bucket K)} {c k : K} {f : ℤ} (hl : Descending l) (hf : 0 < f)
    (hc : 0 < c) (hc1 : c ≤ 1) (hk0 : 0 ≤ k) (hk : k ≤ 1) :
    overlapFactor c k * pre (seq l) (blendCount (overlapFactor c k) (tailFactor c k) f l).toNat =
        overlapFactor c k * sumLargest f.toNat (expand l) +
          tailFactor c k * ((expand l).sum - sumLargest f.toNat (expand l)) ↔
      TailKept c k f.toNat (expand l) := by
  obtain ⟨ho, -, ht, hto⟩ := factor_bounds hc hc1 hk0 hk
  have hlargest : sumLargest f.toNat (expand l) = pre (seq l) f.toNat := by
    rw [sumLargest, List.mergeSort_of_pairwise (by simpa using hl.expand_sorted), seq, pre_entry]
  have hlen : (l.map (·.count)).sum = ((expand l).length : ℤ) :=
    getNDV_eq_length ⟨l, []⟩ hl.count_nonneg
  by_cases hle : (expand l).length ≤ f.toNat
  · have hhead : headCount f 0 l = ((expand l).length : ℤ) := by
      rw [headCount, hlen]
      omega
    have hcount : (blendCount (overlapFactor c k) (tailFactor c k) f l).toNat =
        (expand l).length := by
      simp [blendCount, hhead, hlen]
    have hall : sumLargest f.toNat (expand l) = (expand l).sum := by
      rw [hlargest, seq, pre_entry_of_le hle]
    rw [hcount, hall, sub_self, mul_zero, add_zero, seq, pre_entry_length]
    exact iff_of_true rfl (.inl hle)
  · have hhead : headCount f 0 l = f := by
      rw [headCount, hlen]
      omega
    set T := (expand l).length - f.toNat with hT
    have hrest : (l.map (·.count)).sum - headCount f 0 l = (T : ℤ) := by
      rw [hlen, hhead]
      omega
    set o := overlapFactor c k with ho'
    set t := tailFactor c k with ht'
    have hceil : 0 ≤ ⌈t * (T : K) / o⌉ :=
      Int.ceil_nonneg (div_nonneg (mul_nonneg ht (Nat.cast_nonneg T)) ho.le)
    have hcount : (blendCount o t f l).toNat = f.toNat + ⌈t * (T : K) / o⌉.toNat := by
      rw [blendCount, hrest, hhead, Int.cast_natCast]
      omega
    have hsum : (expand l).sum = pre (seq l) f.toNat + pre (fun i => seq l (f.toNat + i)) T := by
      rw [← pre_add, hT, Nat.add_sub_cancel' (Nat.le_of_not_le hle), seq, pre_entry_length]
    have hD : ((expand l).drop f.toNat).length = T := by rw [List.length_drop]
    have hne : (expand l).drop f.toNat ≠ [] := by
      intro h
      rw [h] at hD
      exact hle (Nat.le_of_sub_eq_zero (hT.symm.trans hD.symm))
    have hpos : ∀ i < T, 0 < seq l (f.toNat + i) := by
      intro i hi
      rw [seq, entry_of_lt (by omega)]
      exact hl.expand_pos _ (List.getElem_mem _)
    have hanti : Antitone fun i => seq l (f.toNat + i) := fun i i' h =>
      hl.seq_antitone (Nat.add_le_add_left h _)
    rw [hcount, pre_add, hlargest, hsum, add_sub_cancel_left, mul_add, add_right_inj,
      mul_pre_ceil_iff hanti hpos ho ht hto]
    have hT0 : T ≠ 0 := fun h => hle (by omega)
    have ht0 : t = 0 ↔ k = 1 := by
      rw [ht', tailFactor, mul_eq_zero, or_iff_right hc.ne', sub_eq_zero, eq_comm]
    have hto0 : t = o ↔ k = 0 := by
      rw [ht', ho', tailFactor, overlapFactor, one_mul, left_eq_add]
    have hconst : (∀ i < T, seq l (f.toNat + i) = seq l (f.toNat + 0)) ↔
        ∀ x ∈ (expand l).drop f.toNat, ∀ y ∈ (expand l).drop f.toNat, x = y := by
      rw [← forall_entry_iff hne, hD]
      simp only [seq_add]
    unfold TailKept
    rw [ht0, hto0, hconst]
    tauto

end Tail

/-! ## The estimate -/

namespace StatisticManager

open DSStatistic

variable [IsStrictOrderedRing K] {sm sm0 sm1 : StatisticManager K} {st star : DSStatistic K}
  {A : AttrEset} {pow : K → K → K} {sort : Sorting K} {db : Database V} {esets : List EqualSet} {F N : ℤ}

theorem coeff_bounds (hN : 1 ≤ N) (hF : 0 < F) (hFN : F ≤ N) :
    0 < (F : K) / (N : K) ∧ (F : K) / (N : K) ≤ 1 := by
  have hN0 : (0 : K) < N := by exact_mod_cast hN
  constructor
  · exact div_pos (by exact_mod_cast hF) hN0
  · rw [div_le_one hN0]
    exact_mod_cast hFN

/-- Merging a statistic with the blended sequence of one of its tables. -/
theorem filterBlend_card {a : Attribute} {filter : String} {table : Table} (hfull : st.Full)
    (hmem : toString (ofLex a).1 ∈ st.tables)
    (hds : Descending (st.dsOf (toString (ofLex a).1)).buckets)
    (hfilter : sm.filterString.find? (ofLex a).1 = some filter) (hne : filter ≠ "")
    (htable : sm.tableName.find? (ofLex a).1 = some table)
    (hF : sm.getTableCard (ofLex a).1 = .ok F) (hN : sm.getNDV table = .ok N) (h1 : 1 ≤ N)
    (hF0 : 0 < F) (hFN : F ≤ N) (hp0 : 0 ≤ sm.predicateAdjustRate)
    (hp1 : sm.predicateAdjustRate ≤ 1) :
    ∃ new, sm.filterBlend st a = .ok new ∧ new.card =
      overlapFactor ((F : K) / (N : K)) sm.predicateAdjustRate *
        pre (seq (st.dsOf (toString (ofLex a).1)).buckets)
          (blendCount (overlapFactor ((F : K) / (N : K)) sm.predicateAdjustRate)
            (tailFactor ((F : K) / (N : K)) sm.predicateAdjustRate) F
            (st.dsOf (toString (ofLex a).1)).buckets).toNat := by
  obtain ⟨hc, hc1⟩ := coeff_bounds (K := K) h1 hF0 hFN
  obtain ⟨ho, ho1, ht, hto⟩ := factor_bounds hc hc1 hp0 hp1
  set rel := toString (ofLex a).1 with hrel
  set calls := blendCalls (overlapFactor ((F : K) / (N : K)) sm.predicateAdjustRate)
    (tailFactor ((F : K) / (N : K)) sm.predicateAdjustRate) F 0 (st.dsOf rel).buckets with hcalls
  set filterDs := ((∅ : DegreeSequence K).addDegrees calls sm.compressPrecision).finishCollection
    with hfds
  set single := (DSStatistic.single rel (F : K) sm.compressPrecision).setDs rel filterDs with hsingle
  obtain ⟨hcount, hexpand⟩ := expand_blend sm.compressPrecision hds.count_nonneg ho ho1 ht hto hF0
  have hds1 : (st.setDs rel (st.dsOf rel)).dsOf rel = st.dsOf rel := by rw [dsOf_setDs, if_pos rfl]
  have hds2 : single.dsOf rel = filterDs := by rw [hsingle, dsOf_setDs, if_pos rfl]
  obtain ⟨new, hok, -, -, -, hnew⟩ := merge_full (t := rel) ((kept_setDs st rel _).full hfull)
    ((kept_setDs _ rel filterDs).full (full_single rel (F : K) sm.compressPrecision)) hmem (.head _)
  refine ⟨new, ?_, ?_⟩
  · rw [filterBlend, OrdMap.lookup, hfilter]
    simp only [bind, Except.bind, if_neg hne, hF, OrdMap.lookup, htable, hN]
    exact hok
  · rw [hnew, hds1, hds2, ← sum_products_replicate hds.count_nonneg hcount hexpand, sum_products]
    exact alignRuns_count_nonneg hds.count_nonneg hcount

omit [IsStrictOrderedRing K] in
theorem filterBlend_unfiltered {a : Attribute}
    (h : sm.filterString.find? (ofLex a).1 = some "") : sm.filterBlend st a = .ok st := by
  rw [filterBlend, OrdMap.lookup, h]
  rfl

/-- The rows of a star whose ranks of `table` up to `f` weigh `overlap_factor` and the others
`tail_factor`. -/
def weightedCard (c k : K) (f : ℕ) (star : DSStatistic K) (table : Table) : K :=
  overlapFactor c k * sumLargest f (expand (star.dsOf table).buckets) +
    tailFactor c k * (star.card - sumLargest f (expand (star.dsOf table).buckets))

/-! ## Two rows of four pass -/

section Example

/-- The filtered pair with `PredMethod` 2 and the rate `k`. -/
def blendedPair (k : ℚ) : Except Error (StatisticManager ℚ × StatisticManager ℚ) := do
  let (sm1, sm) ← filteredPair
  pure (sm1, { sm with
    toOptions := { sm.toOptions with predMethod := 2 }
    predicateAdjustRate := k })

theorem session_blendedPair {k : ℚ} {s : StatisticManager ℚ × StatisticManager ℚ}
    (h : blendedPair k = .ok s) :
    collectStatistics (fun x _ => x) keyedRows initial [twoColumns] = .ok s.1 ∧ Session s.1 s.2 := by
  obtain ⟨s0, hpair, hset⟩ := bind_eq_ok.mp h
  obtain ⟨sm1, hcol, hpair⟩ := bind_eq_ok.mp hpair
  obtain ⟨sm, henter, hpair⟩ := bind_eq_ok.mp hpair
  obtain rfl := Except.ok.inj hpair
  obtain rfl := Except.ok.inj hset
  refine ⟨hcol, ?_⟩
  have hset := (session_enterQuery henter).setOptions { sm.toOptions with predMethod := 2 }
  exact hset.setRates sm.adjustRate k

end Example

end StatisticManager

end StarCE
