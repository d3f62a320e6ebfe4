import StarCE.Stat.Buckets
import StarCE.Stat.DSStatistic

/-!
# Truncation to the cardinality

`limitBuckets` cuts a sequence where its prefix sums reach `card`. Up to the
tolerance, the prefix sums of the result are those of the input capped at
`card` (`pre_limit_le`, `le_pre_limit`); with a tolerance of zero they are
exactly those, and integer degrees never see the tolerance
(`limitBuckets_integral`).
-/

namespace StarCE

open DSStatistic

variable {K : Type} [Field K]

/-! ## Integers -/

def IsInt (x : K) : Prop := ∃ n : ℤ, x = n

/-- Every degree is an integer. -/
def Integral (l : List (Bucket K)) : Prop := ∀ b ∈ l, IsInt b.maxDegree

namespace IsInt

variable {x y : K}

theorem intCast (n : ℤ) : IsInt (n : K) := ⟨n, rfl⟩

theorem zero : IsInt (0 : K) := ⟨0, by simp⟩

theorem add (hx : IsInt x) (hy : IsInt y) : IsInt (x + y) := by
  obtain ⟨m, rfl⟩ := hx
  obtain ⟨n, rfl⟩ := hy
  exact ⟨m + n, by push_cast; rfl⟩

theorem sub (hx : IsInt x) (hy : IsInt y) : IsInt (x - y) := by
  obtain ⟨m, rfl⟩ := hx
  obtain ⟨n, rfl⟩ := hy
  exact ⟨m - n, by push_cast; rfl⟩

theorem mul (hx : IsInt x) (hy : IsInt y) : IsInt (x * y) := by
  obtain ⟨m, rfl⟩ := hx
  obtain ⟨n, rfl⟩ := hy
  exact ⟨m * n, by push_cast; rfl⟩

theorem sum {l : List K} (h : ∀ x ∈ l, IsInt x) : IsInt l.sum := by
  induction l with
  | nil => exact .zero
  | cons x l ih =>
    rw [List.sum_cons]
    exact (h x (.head _)).add (ih fun y hy => h y (.tail _ hy))

variable [LinearOrder K] [IsStrictOrderedRing K] {eps : K}

/-- An integer within a tolerance below one is not positive. -/
theorem le_eps_iff (hx : IsInt x) (h0 : 0 ≤ eps) (h1 : eps < 1) : x ≤ eps ↔ x ≤ 0 := by
  obtain ⟨n, rfl⟩ := hx
  refine ⟨fun h => ?_, fun h => h.trans h0⟩
  have : n < 1 := by exact_mod_cast h.trans_lt h1
  exact_mod_cast Int.lt_add_one_iff.mp this

end IsInt

theorem Integral.tail {b : Bucket K} {l : List (Bucket K)} (h : Integral (b :: l)) :
    Integral l := fun c hc => h c (.tail _ hc)

variable [LinearOrder K] [IsStrictOrderedRing K]
  {eps card sum room M : K} {l : List (Bucket K)}

theorem rowEps_pos : (0 : K) < rowEps := by unfold rowEps; positivity

variable [FloorRing K]

theorem rowEps_lt_one : (rowEps : K) < 1 := by unfold rowEps; norm_num

/-! ## One bucket -/

section Cut

omit [LinearOrder K] [FloorRing K] [IsStrictOrderedRing K] in
theorem pre_seq_nil (k : ℕ) : pre (seq ([] : List (Bucket K))) k = 0 := by simp [seq, pre]

omit [FloorRing K] in
theorem pre_seq_singleton_of_le (d : K) {c : ℤ} (hc : 0 ≤ c) {k : ℕ} (h : c.toNat ≤ k) :
    pre (seq [⟨d, c⟩]) k = c * d := by
  rw [pre_seq_cons_of_ge _ _ hc h, pre_seq_nil, add_zero]

theorem floor_div_bounds (hM : 0 < M) (hroom : M ≤ room) :
    0 < ⌊room / M⌋ ∧ (⌊room / M⌋ : K) * M ≤ room ∧ room < (⌊room / M⌋ + 1 : K) * M := by
  refine ⟨Int.floor_pos.mpr ((one_le_div hM).mpr hroom), ?_, ?_⟩
  · exact (le_div_iff₀ hM).mp (Int.floor_le _)
  · exact (div_lt_iff₀ hM).mp (Int.lt_floor_add_one _)

/-- The cut keeps the rows in order of rank, up to the tolerance. -/
theorem pre_cut (hM : 0 < M) (heps : 0 ≤ eps) (hroom : 0 ≤ room) (k : ℕ) :
    min (k * M) room - eps ≤ pre (seq (cutBucket eps room M)) k ∧
      pre (seq (cutBucket eps room M)) k ≤ min (k * M) room := by
  have hk0 : (0 : K) ≤ k := Nat.cast_nonneg k
  unfold cutBucket
  split
  · next h =>
    rw [pre_seq_nil]
    exact ⟨by linarith [min_le_right (k * M) room], le_min (by positivity) hroom⟩
  · split
    · next _ h =>
      rcases Nat.eq_zero_or_pos k with rfl | hk
      · simp [hroom, heps]
      · have hk1 : (1 : K) ≤ k := by exact_mod_cast hk
        rw [pre_seq_singleton_of_le _ zero_le_one (by simp; omega),
          min_eq_right (by nlinarith : room ≤ k * M)]
        simp [heps]
    · next _ h =>
      obtain ⟨hq, hle, hlt⟩ := floor_div_bounds hM (not_lt.mp h)
      rcases Nat.le_total k ⌊room / M⌋.toNat with hkq | hkq
      · have hkK : (k : K) ≤ ⌊room / M⌋ := by
          rw [← toNat_cast hq.le]; exact_mod_cast hkq
        have hmin : min (k * M) room = k * M := min_eq_left (by nlinarith)
        simp only
        split <;> rw [pre_seq_cons_of_le _ _ hkq, hmin] <;> exact ⟨by linarith, le_rfl⟩
      · rcases hkq.eq_or_lt with heq | hkq'
        · have hkK : (k : K) = ⌊room / M⌋ := by rw [← toNat_cast hq.le, heq]
          have hmin : min (k * M) room = k * M := min_eq_left (by rw [hkK]; exact hle)
          simp only
          split <;> rw [pre_seq_cons_of_le _ _ heq.ge, hmin] <;> exact ⟨by linarith, le_rfl⟩
        · have hkK : (⌊room / M⌋ + 1 : K) ≤ k := by
            rw [← toNat_cast hq.le]; exact_mod_cast hkq'
          have hmin : min (k * M) room = room := min_eq_right (by nlinarith)
          simp only
          split
          · rw [pre_seq_singleton_of_le _ hq.le hkq, hmin]; exact ⟨by linarith, hle⟩
          · rw [pre_seq_cons_of_ge _ _ hq.le hkq,
              pre_seq_singleton_of_le _ zero_le_one (by simp; omega), hmin]
            simp [heps]

theorem cut_degree (hM : 0 < M) (heps : 0 ≤ eps) :
    ∀ b ∈ cutBucket eps room M, 0 < b.maxDegree ∧ b.maxDegree ≤ M ∧ 0 < b.count := by
  intro b hb
  unfold cutBucket at hb
  split at hb
  · simp at hb
  · next h =>
    split at hb
    · next h' =>
      rw [List.mem_singleton.mp hb]
      exact ⟨heps.trans_lt (not_le.mp h), h'.le, one_pos⟩
    · next h' =>
      obtain ⟨hq, hle, hlt⟩ := floor_div_bounds hM (not_lt.mp h')
      simp only at hb
      split at hb
      · rw [List.mem_singleton.mp hb]; exact ⟨hM, le_rfl, hq⟩
      · next h'' =>
        rcases List.mem_cons.mp hb with rfl | hb
        · exact ⟨hM, le_rfl, hq⟩
        · rw [List.mem_singleton.mp hb]
          exact ⟨heps.trans_lt (not_le.mp h''), by simp only; linarith, one_pos⟩

theorem cut_strict (hM : 0 < M) :
    (cutBucket eps room M).Pairwise fun b c => c.maxDegree < b.maxDegree := by
  unfold cutBucket
  split
  · exact .nil
  · split
    · exact List.pairwise_singleton _ _
    · next h' =>
      obtain ⟨hq, hle, hlt⟩ := floor_div_bounds hM (not_lt.mp h')
      simp only
      split
      · exact List.pairwise_singleton _ _
      · refine List.pairwise_pair.mpr ?_
        simp only; linarith

omit [IsStrictOrderedRing K] in
theorem cut_integral (hM : IsInt M) (hroom : IsInt room) : Integral (cutBucket eps room M) := by
  have hnew := hroom.sub ((IsInt.intCast ⌊room / M⌋).mul hM)
  unfold cutBucket
  split
  · simp [Integral]
  · split
    · simpa [Integral] using hroom
    · simp only
      split
      · simpa [Integral] using hM
      · simpa [Integral] using ⟨hM, hnew⟩

theorem cut_eps (hM : IsInt M) (hroom : IsInt room) (h0 : 0 ≤ eps) (h1 : eps < 1) :
    cutBucket eps room M = cutBucket 0 room M := by
  have hnew := hroom.sub ((IsInt.intCast ⌊room / M⌋).mul hM)
  simp only [cutBucket, hroom.le_eps_iff h0 h1, hnew.le_eps_iff h0 h1]

end Cut

/-! ## The whole sequence -/

/-- Every bucket of the result has a degree at most that of some bucket of the input. -/
theorem limit_le_head (heps : 0 ≤ eps) (h : Descending l) (hM : ∀ b ∈ l, b.maxDegree ≤ M) :
    ∀ b ∈ limitBuckets eps card sum l, b.maxDegree ≤ M := by
  induction l generalizing sum with
  | nil => simp [limitBuckets]
  | cons b l ih =>
    intro c hc
    unfold limitBuckets at hc
    split at hc
    · rcases List.mem_cons.mp hc with rfl | hc
      · exact hM _ (.head _)
      · exact ih h.tail (fun b hb => hM b (.tail _ hb)) c hc
    · exact (cut_degree (h.degree_pos b (.head _)) heps c hc).2.1.trans (hM b (.head _))

theorem limit_descending (heps : 0 ≤ eps) (h : Descending l) :
    Descending (limitBuckets eps card sum l) := by
  induction l generalizing sum with
  | nil => exact .nil
  | cons b l ih =>
    have hb := h.degree_pos b (.head _)
    unfold limitBuckets
    split
    · have := @ih (sum + b.count * b.maxDegree) h.tail
      refine ⟨List.pairwise_cons.mpr ⟨limit_le_head heps h.tail h.le_head, this.sorted⟩, ?_, ?_⟩
      · exact List.forall_mem_cons.mpr ⟨hb, this.degree_pos⟩
      · exact List.forall_mem_cons.mpr ⟨h.count_nonneg b (.head _), this.count_nonneg⟩
    · exact ⟨(cut_strict hb).imp le_of_lt, fun c hc => (cut_degree hb heps c hc).1,
        fun c hc => (cut_degree hb heps c hc).2.2.le⟩

/-- What `limitBuckets` reads of the input: its prefix sums below the room that is left. -/
theorem pre_limit (heps : 0 ≤ eps) (h : Descending l) (hsum : sum ≤ card) (k : ℕ) :
    min (pre (seq l) k) (card - sum) - eps ≤ pre (seq (limitBuckets eps card sum l)) k ∧
      pre (seq (limitBuckets eps card sum l)) k ≤ min (pre (seq l) k) (card - sum) := by
  induction l generalizing sum k with
  | nil => simp [limitBuckets, pre_seq_nil, hsum, heps]
  | cons b l ih =>
    have hM := h.degree_pos b (.head _)
    have hc := h.count_nonneg b (.head _)
    have hcK : (0 : K) ≤ b.count := by exact_mod_cast hc
    unfold limitBuckets
    split
    · next hfit =>
      rcases Nat.le_total k b.count.toNat with hk | hk
      · have hkK : (k : K) ≤ b.count := by rw [← toNat_cast hc]; exact_mod_cast hk
        rw [pre_seq_cons_of_le _ _ hk, pre_seq_cons_of_le _ _ hk,
          min_eq_left (by nlinarith : k * b.maxDegree ≤ card - sum)]
        exact ⟨by linarith, le_rfl⟩
      · obtain ⟨h1, h2⟩ := ih h.tail hfit (k - b.count.toNat)
        rw [pre_seq_cons_of_ge _ _ hc hk, pre_seq_cons_of_ge _ _ hc hk]
        have : min (b.count * b.maxDegree + pre (seq l) (k - b.count.toNat)) (card - sum) =
            b.count * b.maxDegree +
              min (pre (seq l) (k - b.count.toNat)) (card - (sum + b.count * b.maxDegree)) := by
          rw [← min_add_add_left]; congr 1; ring
        rw [this]
        exact ⟨by linarith, by linarith⟩
    · next hfit =>
      have hroom : card - sum < b.count * b.maxDegree := by linarith
      -- the cut bucket alone decides the capped prefix sums
      have hmin : min (pre (seq (b :: l)) k) (card - sum) =
          min (k * b.maxDegree) (card - sum) := by
        rcases Nat.le_total k b.count.toNat with hk | hk
        · rw [pre_seq_cons_of_le _ _ hk]
        · have hkK : (b.count : K) ≤ k := by rw [← toNat_cast hc]; exact_mod_cast hk
          have h0 := pre_nonneg h.tail.seq_nonneg (k - b.count.toNat)
          rw [pre_seq_cons_of_ge _ _ hc hk, min_eq_right (by linarith),
            min_eq_right (by nlinarith)]
      rw [hmin]
      exact pre_cut hM heps (sub_nonneg.mpr hsum) k

/-- A sequence that fits is not cut. -/
theorem limitBuckets_of_le (h : ∀ b ∈ l, 0 ≤ (b.count : K) * b.maxDegree)
    (hsum : sum + (l.map fun b => (b.count : K) * b.maxDegree).sum ≤ card) :
    limitBuckets eps card sum l = l := by
  induction l generalizing sum with
  | nil => rfl
  | cons b l ih =>
    have htail : ∀ c ∈ l, 0 ≤ (c.count : K) * c.maxDegree := fun c hc => h c (.tail _ hc)
    have hrest : 0 ≤ (l.map fun b => (b.count : K) * b.maxDegree).sum :=
      List.sum_nonneg fun x hx => by
        obtain ⟨c, hc, rfl⟩ := List.mem_map.mp hx
        exact htail c hc
    rw [List.map_cons, List.sum_cons] at hsum
    rw [limitBuckets, if_pos (by linarith), ih htail (by linarith)]

theorem limit_strict (heps : 0 ≤ eps) (h : Descending l)
    (hs : l.Pairwise fun b c => c.maxDegree < b.maxDegree) :
    (limitBuckets eps card sum l).Pairwise fun b c => c.maxDegree < b.maxDegree := by
  induction l generalizing sum with
  | nil => exact .nil
  | cons b l ih =>
    unfold limitBuckets
    split
    · refine List.pairwise_cons.mpr ⟨fun c hc => ?_, ih h.tail hs.tail⟩
      cases l with
      | nil => simp [limitBuckets] at hc
      | cons d l =>
        have hd := (List.pairwise_cons.mp hs).1 d (.head _)
        refine lt_of_le_of_lt (limit_le_head heps h.tail (fun e he => ?_) c hc) hd
        rcases List.mem_cons.mp he with rfl | he
        · exact le_rfl
        · exact h.tail.le_head e he
    · exact cut_strict (h.degree_pos b (.head _))

theorem limit_count_pos (heps : 0 ≤ eps) (h : Descending l) (hc : ∀ b ∈ l, 0 < b.count) :
    ∀ b ∈ limitBuckets eps card sum l, 0 < b.count := by
  induction l generalizing sum with
  | nil => simp [limitBuckets]
  | cons b l ih =>
    intro c hm
    unfold limitBuckets at hm
    split at hm
    · rcases List.mem_cons.mp hm with rfl | hm
      · exact hc _ (.head _)
      · exact ih h.tail (fun b hb => hc b (.tail _ hb)) c hm
    · exact (cut_degree (h.degree_pos b (.head _)) heps c hm).2.2

omit [IsStrictOrderedRing K] in
theorem limit_integral (h : Integral l) (hroom : IsInt (card - sum)) :
    Integral (limitBuckets eps card sum l) := by
  induction l generalizing sum with
  | nil => simp [limitBuckets, Integral]
  | cons b l ih =>
    have hb := h b (.head _)
    unfold limitBuckets
    split
    · refine List.forall_mem_cons.mpr ⟨hb, ih h.tail ?_⟩
      rw [← sub_sub]
      exact hroom.sub ((IsInt.intCast _).mul hb)
    · exact cut_integral hb hroom

/-- Integer degrees do not see a tolerance below one. -/
theorem limitBuckets_integral (h : Integral l) (hroom : IsInt (card - sum)) (h0 : 0 ≤ eps)
    (h1 : eps < 1) : limitBuckets eps card sum l = limitBuckets 0 card sum l := by
  induction l generalizing sum with
  | nil => rfl
  | cons b l ih =>
    have hb := h b (.head _)
    have hroom' : IsInt (card - (sum + b.count * b.maxDegree)) := by
      rw [← sub_sub]
      exact hroom.sub ((IsInt.intCast _).mul hb)
    simp only [limitBuckets, ih h.tail hroom', cut_eps hb hroom h0 h1]

/-! ## Truncation at the cardinality -/

section Card

variable {ds : DegreeSequence K}

theorem limitDs_descending (h : Descending ds.buckets) :
    Descending (limitDsToCard ds card).buckets := limit_descending rowEps_pos.le h

omit [IsStrictOrderedRing K] in
theorem limitDs_integral (h : Integral ds.buckets) (hcard : IsInt card) :
    Integral (limitDsToCard ds card).buckets :=
  limit_integral h (by simpa using hcard)

/-- Integer degrees are cut exactly where the prefix sums reach the cardinality. -/
theorem pre_limitDs (h : Descending ds.buckets) (hi : Integral ds.buckets) (h0 : 0 ≤ card)
    (hcard : IsInt card) (k : ℕ) :
    pre (seq (limitDsToCard ds card).buckets) k = min (pre (seq ds.buckets) k) card := by
  have hc : IsInt (card - 0) := by simpa using hcard
  have := pre_limit (le_refl (0 : K)) h h0 k
  rw [sub_zero, sub_zero] at this
  simp only [limitDsToCard]
  rw [limitBuckets_integral hi hc rowEps_pos.le rowEps_lt_one]
  exact le_antisymm this.2 this.1

/-- A sequence whose total reaches the cardinality is cut to that total. -/
theorem sum_limitDs (h : Descending ds.buckets) (hi : Integral ds.buckets) (h0 : 0 ≤ card)
    (hcard : IsInt card) (hle : card ≤ (expand ds.buckets).sum) :
    (expand (limitDsToCard ds card).buckets).sum = card := by
  set k := max (expand ds.buckets).length (expand (limitDsToCard ds card).buckets).length with hk
  have := pre_limitDs h hi h0 hcard k
  rwa [pre_seq_of_le (le_max_right _ _), pre_seq_of_le (le_max_left _ _), min_eq_right hle] at this

end Card

end StarCE
