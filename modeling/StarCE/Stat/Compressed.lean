import StarCE.Stat.Compress

/-!
# The compressed sequence

A finished collection is strictly decreasing (`compress_strict`), dominates
the bag of added degrees (`compress_dominates`), is decided by that bag
(`compress_congr`) and, when every degree is at least one, is rank by rank
within the precision of it (`compress_tight`).
-/

namespace StarCE

open Finset

variable {K : Type} [Field K] [LinearOrder K] [FloorRing K] [IsStrictOrderedRing K]
  {p : K} {calls : List (K × ℤ)}

/-- Calls as the code makes them: degrees and counts that are not negative. -/
structure Calls (calls : List (K × ℤ)) : Prop where
  degree_nonneg : ∀ c ∈ calls, 0 ≤ c.1
  count_nonneg : ∀ c ∈ calls, 0 ≤ c.2

section

omit [FloorRing K] [IsStrictOrderedRing K]

theorem Calls.nil : Calls ([] : List (K × ℤ)) := ⟨by simp, by simp⟩

theorem Calls.cons (h : Calls calls) {d : K} {c : ℤ} (hd : 0 ≤ d) (hc : 0 ≤ c) :
    Calls ((d, c) :: calls) :=
  ⟨List.forall_mem_cons.mpr ⟨hd, h.1⟩, List.forall_mem_cons.mpr ⟨hc, h.2⟩⟩

end

omit [IsStrictOrderedRing K] in
theorem Calls.inBucket (h : Calls calls) (i : ℕ) : Calls (inBucket p i calls) :=
  ⟨fun c hc => h.1 c (List.mem_of_mem_filter hc), fun c hc => h.2 c (List.mem_of_mem_filter hc)⟩

omit [FloorRing K] [IsStrictOrderedRing K] in
theorem Calls.append {l : List (K × ℤ)} (h : Calls calls) (h' : Calls l) : Calls (calls ++ l) :=
  ⟨fun c hc => (List.mem_append.mp hc).elim (h.1 c) (h'.1 c),
    fun c hc => (List.mem_append.mp hc).elim (h.2 c) (h'.2 c)⟩

section

omit [IsStrictOrderedRing K]

theorem mem_compress {b : Bucket K} (h : b ∈ compress p calls) :
    ∃ i, cellOf (inBucket p i calls) = some b := by
  obtain ⟨n, hn⟩ := exists_bucketPos_lt p calls
  rw [compress_eq hn] at h
  obtain ⟨i, _, hi⟩ := List.mem_filterMap.mp h
  exact ⟨i, hi⟩

theorem exists_call_of_cell {i : ℕ} {b : Bucket K} (h : cellOf (inBucket p i calls) = some b) :
    ∃ c ∈ calls, bucketPos c.1 p = i ∧ c.1 = b.maxDegree := by
  obtain ⟨_, hpos, hM, _⟩ := cellOf_eq_some h
  obtain ⟨c, hc, he⟩ := exists_topDegree hpos.ne'
  exact ⟨c, List.mem_of_mem_filter hc, by simpa using List.of_mem_filter hc, he.trans hM.symm⟩

/-- Every degree of the summary is one that was added. -/
theorem exists_call_of_mem {b : Bucket K} (h : b ∈ compress p calls) :
    ∃ c ∈ calls, c.1 = b.maxDegree := by
  obtain ⟨i, hi⟩ := mem_compress h
  obtain ⟨c, hc, _, he⟩ := exists_call_of_cell hi
  exact ⟨c, hc, he⟩

theorem compress_pos {b : Bucket K} (h : b ∈ compress p calls) : 0 < b.maxDegree := by
  obtain ⟨i, hi⟩ := mem_compress h
  obtain ⟨_, hpos, hM, _⟩ := cellOf_eq_some hi
  rwa [hM]

end

theorem compress_strict (p : K) (calls : List (K × ℤ)) :
    (compress p calls).Pairwise fun b c => c.maxDegree < b.maxDegree := by
  obtain ⟨n, hn⟩ := exists_bucketPos_lt p calls
  rw [compress_eq hn, List.pairwise_filterMap, List.pairwise_reverse]
  refine List.pairwise_lt_range.imp fun {i j} hij b hb c hc => ?_
  obtain ⟨x, _, hxi, hx⟩ := exists_call_of_cell hb
  obtain ⟨y, _, hyj, hy⟩ := exists_call_of_cell hc
  rw [← hx, ← hy]
  exact lt_of_bucketPos_lt (hyj.trans_lt (hij.trans_eq hxi.symm))

theorem compress_descending (p : K) (h : Calls calls) : Descending (compress p calls) := by
  refine ⟨(compress_strict p calls).imp le_of_lt, fun b => compress_pos, fun b hb => ?_⟩
  obtain ⟨i, hi⟩ := mem_compress hb
  exact cell_count_nonneg (h.inBucket i).2 (h.inBucket i).1 hi

/-! ## Domination -/

section

omit [IsStrictOrderedRing K]

theorem sum_inBucket (w : K × ℤ → K) {n : ℕ} (hn : ∀ c ∈ calls, bucketPos c.1 p < n) :
    (calls.map w).sum = ∑ i ∈ range n, ((inBucket p i calls).map w).sum := by
  induction calls with
  | nil => simp [inBucket]
  | cons c l ih =>
    have hc := hn c (.head _)
    have hstep : ∀ i, ((inBucket p i (c :: l)).map w).sum =
        (if i = bucketPos c.1 p then w c else 0) + ((inBucket p i l).map w).sum := by
      intro i
      by_cases hi : bucketPos c.1 p = i
      · simp [inBucket, hi]
      · simp [inBucket, hi, Ne.symm hi]
    rw [sum_congr rfl fun i _ => hstep i, sum_add_distrib, sum_ite_eq' (range n),
      if_pos (mem_range.mpr hc), List.map_cons, List.sum_cons, ih fun d hd => hn d (.tail _ hd)]

theorem sum_compress (w : Bucket K → K) {n : ℕ} (hn : ∀ c ∈ calls, bucketPos c.1 p < n) :
    ((compress p calls).map w).sum =
      ∑ i ∈ range n, ((cellOf (inBucket p i calls)).toList.map w).sum := by
  rw [compress_eq hn]
  clear hn
  induction n with
  | zero => simp
  | succ n ih =>
    rw [List.range_succ, List.reverse_append, List.reverse_singleton, List.singleton_append,
      sum_range_succ, ← ih, add_comm, List.filterMap_cons]
    cases cellOf (inBucket p n calls) <;> simp

end

/-- The compressed sequence dominates the bag of added degrees. -/
theorem compress_dominates (p : K) (h : Calls calls) :
    BagDominates (seq (compress p calls)) (spread calls) := by
  obtain ⟨n, hn⟩ := exists_bucketPos_lt p calls
  have hd := compress_descending p h
  refine bagDominates_of_hinge hd.seq_antitone hd.seq_nonneg fun lam hlam => ?_
  rw [Multiset.map_coe, Multiset.sum_coe, sum_map_spread _ h.2,
    sum_map_expand _ hd.count_nonneg, sum_inBucket _ hn, sum_compress _ hn]
  exact sum_le_sum fun i _ => hinge_cell_le hlam (h.inBucket i).2 (h.inBucket i).1

theorem sum_spread_le_compress (p : K) (h : Calls calls) :
    (spread calls).sum ≤ (expand (compress p calls)).sum := by
  have h1 := compress_dominates p h _ le_rfl
  rw [Multiset.sum_coe] at h1
  exact h1.trans (pre_seq_le_sum (compress_descending p h) _)

/-! ## The summary is a function of the bag -/

omit [IsStrictOrderedRing K] in
theorem spread_inBucket (i : ℕ) :
    spread (inBucket p i calls) = (spread calls).filter fun d => bucketPos d p = i := by
  induction calls with
  | nil => rfl
  | cons c l ih =>
    rw [spread_cons, List.filter_append, ← ih]
    by_cases hc : bucketPos c.1 p = i <;> simp [inBucket, hc]

/-- Calls with positive counts; the bag then shows every degree. -/
def PosCounts (calls : List (K × ℤ)) : Prop := ∀ c ∈ calls, 0 < c.2

section

omit [Field K] [LinearOrder K] [FloorRing K] [IsStrictOrderedRing K]

theorem mem_spread_iff (h : PosCounts calls) (x : K) : x ∈ spread calls ↔ x ∈ calls.map (·.1) := by
  rw [mem_spread, List.mem_map]
  exact ⟨fun ⟨c, hc, _, he⟩ => ⟨c, hc, he⟩, fun ⟨c, hc, he⟩ => ⟨c, hc, h c hc, he⟩⟩

theorem totalCount_eq (h : PosCounts calls) : totalCount calls = (spread calls).length := by
  induction calls with
  | nil => rfl
  | cons c l ih =>
    have hc := h c (.head _)
    have := ih fun d hd => h d (.tail _ hd)
    simp only [totalCount, List.map_cons, List.sum_cons, spread_cons, List.length_append,
      List.length_replicate] at this ⊢
    omega

end

omit [FloorRing K] in
theorem totalDegree_eq (h : PosCounts calls) : totalDegree calls = (spread calls).sum := by
  rw [sum_spread fun c hc => (h c hc).le, totalDegree]
  exact congrArg List.sum (List.map_congr_left fun c _ => mul_comm _ _)

omit [FloorRing K] [IsStrictOrderedRing K] in
theorem topDegree_perm {l l' : List (K × ℤ)} (hl : PosCounts l) (hl' : PosCounts l')
    (h : (spread l).Perm (spread l')) : topDegree l = topDegree l' :=
  topDegree_congr fun x => by
    rw [← mem_spread_iff hl, ← mem_spread_iff hl', h.mem_iff]

theorem cellOf_congr {l l' : List (K × ℤ)} (hl : PosCounts l) (hl' : PosCounts l')
    (h : (spread l).Perm (spread l')) : cellOf l = cellOf l' := by
  have h1 : topDegree l = topDegree l' := topDegree_perm hl hl' h
  have h2 : totalCount l = totalCount l' := by
    rw [totalCount_eq hl, totalCount_eq hl', h.length_eq]
  have h3 : totalDegree l = totalDegree l' := by
    rw [totalDegree_eq hl, totalDegree_eq hl', h.sum_eq]
  simp only [cellOf, h1, h2, h3]

/-- Neither the order of the calls nor their grouping matters. -/
theorem compress_congr {l l' : List (K × ℤ)} (hl : PosCounts l) (hl' : PosCounts l')
    (h : (spread l).Perm (spread l')) : compress p l = compress p l' := by
  obtain ⟨n, hn⟩ := exists_bucketPos_lt p l
  obtain ⟨n', hn'⟩ := exists_bucketPos_lt p l'
  rw [compress_eq (n := max n n') fun c hc => (hn c hc).trans_le (le_max_left _ _),
    compress_eq (n := max n n') fun c hc => (hn' c hc).trans_le (le_max_right _ _)]
  refine List.filterMap_congr fun i _ => cellOf_congr
    (fun c hc => hl c (List.mem_of_mem_filter hc)) (fun c hc => hl' c (List.mem_of_mem_filter hc)) ?_
  rw [spread_inBucket, spread_inBucket]
  exact h.filter _

/-- The vectors themselves do not depend on the order and the grouping either. -/
theorem addDegrees_congr {l l' : List (K × ℤ)} (hl : PosCounts l) (hl' : PosCounts l')
    (h : (spread l).Perm (spread l')) :
    (∅ : DegreeSequence K).addDegrees l p = (∅ : DegreeSequence K).addDegrees l' p := by
  have c := collects_addDegrees l (collects_empty p)
  have c' := collects_addDegrees l' (collects_empty p)
  rw [List.nil_append] at c c'
  set ds := (∅ : DegreeSequence K).addDegrees l p
  set ds' := (∅ : DegreeSequence K).addDegrees l' p
  have hin : ∀ i, PosCounts (inBucket p i l) ∧ PosCounts (inBucket p i l') ∧
      (spread (inBucket p i l)).Perm (spread (inBucket p i l')) := fun i => by
    rw [spread_inBucket, spread_inBucket]
    exact ⟨fun d hd => hl d (List.mem_of_mem_filter hd),
      fun d hd => hl' d (List.mem_of_mem_filter hd), h.filter _⟩
  have hmem : ∀ {m m' : List (K × ℤ)}, PosCounts m → PosCounts m' → (spread m).Perm (spread m') →
      ∀ i, (∃ d ∈ m, i ≤ bucketPos d.1 p) → ∃ d ∈ m', i ≤ bucketPos d.1 p := by
    rintro m m' hm hm' hp i ⟨d, hd, hi⟩
    have hx := hp.mem_iff.mp ((mem_spread_iff hm d.1).mpr (List.mem_map_of_mem hd))
    obtain ⟨d', hd', he⟩ := List.mem_map.mp ((mem_spread_iff hm' d.1).mp hx)
    exact ⟨d', hd', he ▸ hi⟩
  have hlen : ds.buckets.length = ds'.buckets.length := by
    have key : ∀ i, i < ds.buckets.length ↔ i < ds'.buckets.length := fun i =>
      (c.lt_length i).trans (Iff.trans ⟨hmem hl hl' h i, hmem hl' hl h.symm i⟩
        (c'.lt_length i).symm)
    have h1 := key ds.buckets.length
    have h2 := key ds'.buckets.length
    omega
  have hb : ∀ i, ds.buckets.getD i ⟨0, 0⟩ = ds'.buckets.getD i ⟨0, 0⟩ := fun i => by
    obtain ⟨p1, p2, hp⟩ := hin i
    rw [c.bucket, c'.bucket, topDegree_perm p1 p2 hp, totalCount_eq p1, totalCount_eq p2,
      hp.length_eq]
  have hs : ∀ i, ds.sum.getD i 0 = ds'.sum.getD i 0 := fun i => by
    obtain ⟨p1, p2, hp⟩ := hin i
    rw [c.sum, c'.sum, totalDegree_eq p1, totalDegree_eq p2, hp.sum_eq]
  refine DegreeSequence.ext (List.ext_getElem hlen fun i h1 h2 => ?_)
    (List.ext_getElem (by rw [c.length_eq, c'.length_eq, hlen]) fun i h1 h2 => ?_)
  · rw [← List.getD_eq_getElem _ ⟨0, 0⟩ h1, ← List.getD_eq_getElem _ ⟨0, 0⟩ h2, hb]
  · rw [← List.getD_eq_getElem _ 0 h1, ← List.getD_eq_getElem _ 0 h2, hs]

theorem compress_count_pos (hc : PosCounts calls) (hd : ∀ c ∈ calls, 0 ≤ c.1) {b : Bucket K}
    (h : b ∈ compress p calls) : 0 < b.count := by
  obtain ⟨i, hi⟩ := mem_compress h
  obtain ⟨hn, hpos, hM, hcount⟩ := cellOf_eq_some hi
  obtain ⟨c, hcm, he⟩ := exists_topDegree hpos.ne'
  have hsub : ∀ c ∈ inBucket p i calls, c ∈ calls := fun c => List.mem_of_mem_filter
  have h1 : 0 < totalDegree (inBucket p i calls) := by
    refine lt_of_lt_of_le (b := c.1 * c.2) ?_ (List.single_le_sum ?_ _
      (List.mem_map_of_mem (f := fun c : K × ℤ => c.1 * (c.2 : K)) hcm))
    · rw [he]; exact mul_pos hpos (by exact_mod_cast hc c (hsub c hcm))
    · intro x hx
      obtain ⟨d, hdm, rfl⟩ := List.mem_map.mp hx
      exact mul_nonneg (hd d (hsub d hdm)) (by exact_mod_cast (hc d (hsub d hdm)).le)
  rw [hcount]
  refine lt_min (Int.ceil_pos.mpr (div_pos h1 hpos)) (lt_of_le_of_ne ?_ (Ne.symm hn))
  rw [totalCount_eq fun d hdm => hc d (hsub d hdm)]
  exact Int.natCast_nonneg _

/-! ## Tightness -/

theorem sum_range_reverse {M : Type} [AddCommMonoid M] (f : ℕ → M) (n : ℕ) :
    ((List.range n).reverse.map f).sum = ∑ i ∈ range n, f i := by
  induction n with
  | zero => rfl
  | succ n ih =>
    rw [List.range_succ, List.reverse_append, List.reverse_singleton, List.singleton_append,
      List.map_cons, List.sum_cons, ih, sum_range_succ, add_comm]

omit [IsStrictOrderedRing K] in
/-- The bag of added degrees is the union of the buckets' bags. -/
theorem sum_spread_inBucket {n : ℕ} (hn : ∀ c ∈ calls, bucketPos c.1 p < n) :
    ∑ i ∈ range n, (spread (inBucket p i calls) : Multiset K) = spread calls := by
  induction calls with
  | nil => simp [inBucket]
  | cons c l ih =>
    have hstep : ∀ i, (spread (inBucket p i (c :: l)) : Multiset K) =
        (if i = bucketPos c.1 p then (List.replicate c.2.toNat c.1 : Multiset K) else 0) +
          spread (inBucket p i l) := by
      intro i
      by_cases hi : bucketPos c.1 p = i
      · simp [inBucket, hi]
      · simp [inBucket, hi, Ne.symm hi]
    rw [sum_congr rfl fun i _ => hstep i, sum_add_distrib, ih fun d hd => hn d (.tail _ hd),
      sum_ite_eq' (range n), if_pos (mem_range.mpr (hn c (.head _))), spread_cons,
      Multiset.coe_add]

/-- A kept bucket has at least as many calls as its count, all within the precision. -/
theorem cell_tight (hp : 1 < p) (hc : PosCounts calls) (hd : ∀ c ∈ calls, 1 ≤ c.1) {i : ℕ}
    {b : Bucket K} (hb : cellOf (inBucket p i calls) = some b) :
    0 ≤ b.count ∧ b.count.toNat ≤ (spread (inBucket p i calls)).length ∧
      ∀ x ∈ spread (inBucket p i calls), b.maxDegree ≤ p * x := by
  obtain ⟨_, _, _, hcount⟩ := cellOf_eq_some hb
  obtain ⟨c, _, hci, hcb⟩ := exists_call_of_cell hb
  have hsub : ∀ c ∈ inBucket p i calls, c ∈ calls := fun c => List.mem_of_mem_filter
  have h0 := cell_count_nonneg (fun c hm => (hc c (hsub c hm)).le)
    (fun c hm => zero_le_one.trans (hd c (hsub c hm))) hb
  refine ⟨h0, ?_, fun x hx => ?_⟩
  · have := totalCount_eq (fun c hm => hc c (hsub c hm) : PosCounts (inBucket p i calls))
    omega
  · obtain ⟨y, hy, _, rfl⟩ := mem_spread.mp hx
    have hyi : bucketPos y.1 p = i := by simpa using List.of_mem_filter hy
    rw [← hcb]
    exact (lt_mul_of_bucketPos_eq hp (hd y (hsub y hy)) (hci.trans hyi.symm)).le

omit [FloorRing K] in
theorem mul_le_take {l : List K} {M : K} (h : ∀ x ∈ l, M ≤ p * x) {m : ℕ} (hm : m ≤ l.length) :
    m * M ≤ p * (l.take m).sum := by
  have := List.card_nsmul_le_sum ((l.take m).map (p * ·)) M fun x hx => by
    obtain ⟨y, hy, rfl⟩ := List.mem_map.mp hx
    exact h y (List.mem_of_mem_take hy)
  rwa [List.sum_map_mul_left, List.map_id', List.length_map, List.length_take, min_eq_left hm,
    nsmul_eq_mul] at this

theorem coe_take_le {α : Type} (l : List α) (m : ℕ) : ((l.take m : List α) : Multiset α) ≤ l :=
  Multiset.coe_le.mpr (List.take_sublist m l).subperm

theorem cells_tight (hp : 1 < p) (hc : PosCounts calls) (hd : ∀ c ∈ calls, 1 ≤ c.1)
    (is : List ℕ) (k : ℕ) :
    ∃ s ≤ (is.map fun i => (spread (inBucket p i calls) : Multiset K)).sum, s.card ≤ k ∧
      pre (seq (is.filterMap fun i => cellOf (inBucket p i calls))) k ≤ p * s.sum := by
  induction is generalizing k with
  | nil => exact ⟨0, by simp, by simp, by simp [seq, pre]⟩
  | cons i is ih =>
    rw [List.map_cons, List.sum_cons, List.filterMap_cons]
    cases hb : cellOf (inBucket p i calls) with
    | none =>
      obtain ⟨s, hs, hk, hle⟩ := ih k
      exact ⟨s, hs.trans (Multiset.le_add_left _ _), hk, hle⟩
    | some b =>
      obtain ⟨h0, hlen, hx⟩ := cell_tight hp hc hd hb
      rcases Nat.le_total k b.count.toNat with hk | hk
      · refine ⟨((spread (inBucket p i calls)).take k : List K),
          (coe_take_le _ k).trans (Multiset.le_add_right _ _), by simp, ?_⟩
        rw [pre_seq_cons_of_le _ _ hk, Multiset.sum_coe]
        exact mul_le_take hx (hk.trans hlen)
      · obtain ⟨s, hs, hsk, hle⟩ := ih (k - b.count.toNat)
        refine ⟨((spread (inBucket p i calls)).take b.count.toNat : List K) + s,
          add_le_add (coe_take_le _ _) hs, ?_, ?_⟩
        · rw [Multiset.card_add, Multiset.coe_card, List.length_take]; omega
        · rw [pre_seq_cons_of_ge _ _ h0 hk, Multiset.sum_add, Multiset.sum_coe, mul_add,
            ← toNat_cast h0]
          exact add_le_add (mul_le_take hx hlen) hle

/-- Every `k` ranks of the summary are matched, up to the precision, by `k` added degrees. -/
theorem compress_tight (hp : 1 < p) (hc : PosCounts calls) (hd : ∀ c ∈ calls, 1 ≤ c.1) (k : ℕ) :
    ∃ s ≤ (spread calls : Multiset K), s.card ≤ k ∧
      pre (seq (compress p calls)) k ≤ p * s.sum := by
  obtain ⟨n, hn⟩ := exists_bucketPos_lt p calls
  obtain ⟨s, hs, hk, hle⟩ := cells_tight hp hc hd (List.range n).reverse k
  rw [sum_range_reverse, sum_spread_inBucket hn] at hs
  exact ⟨s, hs, hk, by rwa [compress_eq hn]⟩

end StarCE
