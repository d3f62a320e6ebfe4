import StarCE.Stat.Compressed

/-!
# Aligning by rank

The runs `alignRuns` goes through pair the degrees of two sequences rank by
rank, up to the shorter one (`pairs_alignRuns`). So `dot` collects the
rank-wise products (`spread_products`).
-/

namespace StarCE

open Finset

variable {K : Type}

/-- The ranks of the runs, one by one. -/
def pairs (runs : List (Run K)) : List (K × K) :=
  runs.flatMap fun r => List.replicate r.count.toNat (r.degree1, r.degree2)

theorem pairs_cons (r : Run K) (runs : List (Run K)) :
    pairs (r :: runs) = List.replicate r.count.toNat (r.degree1, r.degree2) ++ pairs runs := rfl

theorem zip_replicate_append {α β : Type} (x : α) (y : β) (l : List α) (l' : List β) {a b m : ℕ}
    (ha : m ≤ a) (hb : m ≤ b) :
    (List.replicate a x ++ l).zip (List.replicate b y ++ l') = List.replicate m (x, y) ++
      (List.replicate (a - m) x ++ l).zip (List.replicate (b - m) y ++ l') := by
  induction m generalizing a b with
  | zero => simp
  | succ m ih =>
    obtain ⟨a, rfl⟩ := Nat.exists_eq_succ_of_ne_zero (by omega : a ≠ 0)
    obtain ⟨b, rfl⟩ := Nat.exists_eq_succ_of_ne_zero (by omega : b ≠ 0)
    simp only [List.replicate_succ, List.cons_append, List.zip_cons_cons, Nat.succ_eq_add_one,
      Nat.add_sub_add_right, ih (Nat.le_of_succ_le_succ ha) (Nat.le_of_succ_le_succ hb)]

section Loop


/-- Loading a bucket does not change the ranks ahead. -/
theorem nextBucket_some {count : ℤ} {degree : K} {rest : List (Bucket K)} {s : ℤ × K × List (Bucket K)}
    (h : nextBucket count degree rest = some s) :
    List.replicate count.toNat degree ++ expand rest =
      List.replicate s.1.toNat s.2.1 ++ expand s.2.2 ∧
    (count = 0 → s.2.2.length + 1 = rest.length) ∧ s.2.2.length ≤ rest.length ∧
    (0 ≤ count → (∀ b ∈ rest, 0 ≤ b.count) → 0 ≤ s.1 ∧ ∀ b ∈ s.2.2, 0 ≤ b.count) := by
  unfold nextBucket at h
  split at h
  · next h0 =>
    cases rest with
    | nil => cases h
    | cons b l =>
      obtain rfl := Option.some.inj h
      exact ⟨by simp [h0], fun _ => rfl, Nat.le_succ _, fun _ hr =>
        ⟨hr b (.head _), fun c hc => hr c (.tail _ hc)⟩⟩
  · next h0 =>
    obtain rfl := Option.some.inj h
    exact ⟨rfl, fun h => absurd h h0, le_rfl, fun h hr => ⟨h, hr⟩⟩

theorem nextBucket_none {count : ℤ} {degree : K} {rest : List (Bucket K)}
    (h : nextBucket count degree rest = none) : count = 0 ∧ rest = [] := by
  unfold nextBucket at h
  split at h
  · next h0 =>
    cases rest with
    | nil => exact ⟨h0, rfl⟩
    | cons b l => cases h
  · cases h


theorem pairs_alignLoop (fuel : ℕ) {count1 count2 : ℤ} (degree1 degree2 : K)
    {rest1 rest2 : List (Bucket K)} (h1 : 0 ≤ count1) (h2 : 0 ≤ count2)
    (hr1 : ∀ b ∈ rest1, 0 ≤ b.count) (hr2 : ∀ b ∈ rest2, 0 ≤ b.count)
    (h0 : count1 = 0 ∨ count2 = 0) (hf : rest1.length + rest2.length ≤ fuel) :
    pairs (alignLoop fuel count1 degree1 rest1 count2 degree2 rest2) =
      (List.replicate count1.toNat degree1 ++ expand rest1).zip
        (List.replicate count2.toNat degree2 ++ expand rest2) ∧
    ∀ r ∈ alignLoop fuel count1 degree1 rest1 count2 degree2 rest2, 0 ≤ r.count := by
  induction fuel generalizing count1 degree1 rest1 count2 degree2 rest2 with
  | zero =>
    have e1 : rest1 = [] := List.eq_nil_of_length_eq_zero (by omega)
    have e2 : rest2 = [] := List.eq_nil_of_length_eq_zero (by omega)
    subst e1 e2
    rcases h0 with rfl | rfl <;> simp [alignLoop, pairs]
  | succ fuel ih =>
    unfold alignLoop
    cases hn1 : nextBucket count1 degree1 rest1 with
    | none =>
      obtain ⟨rfl, rfl⟩ := nextBucket_none hn1
      simp [pairs]
    | some s1 =>
      obtain ⟨e1, hl1, hle1, hs1⟩ := nextBucket_some hn1
      obtain ⟨c1, d1, l1⟩ := s1
      cases hn2 : nextBucket count2 degree2 rest2 with
      | none =>
        obtain ⟨rfl, rfl⟩ := nextBucket_none hn2
        simp [pairs]
      | some s2 =>
        obtain ⟨e2, hl2, hle2, hs2⟩ := nextBucket_some hn2
        obtain ⟨c2, d2, l2⟩ := s2
        obtain ⟨hc1, hb1⟩ := hs1 h1 hr1
        obtain ⟨hc2, hb2⟩ := hs2 h2 hr2
        simp only at e1 e2 hl1 hl2 hle1 hle2 hc1 hc2 hb1 hb2 ⊢
        have hmin : 0 ≤ min c1 c2 := le_min hc1 hc2
        have hm1 : min c1 c2 ≤ c1 := min_le_left _ _
        have hm2 : min c1 c2 ≤ c2 := min_le_right _ _
        have hm : min c1 c2 = c1 ∨ min c1 c2 = c2 := min_choice _ _
        generalize min c1 c2 = m at *
        -- one of the two sides was empty, so a bucket has been loaded
        obtain ⟨hp, hpos⟩ := ih d1 d2 (show 0 ≤ c1 - m by omega)
          (show 0 ≤ c2 - m by omega) hb1 hb2 (by omega)
          (by rcases h0 with h0 | h0
              · have := hl1 h0; omega
              · have := hl2 h0; omega)
        refine ⟨?_, List.forall_mem_cons.mpr ⟨hmin, hpos⟩⟩
        rw [pairs_cons, hp, e1, e2, zip_replicate_append d1 d2 (expand l1) (expand l2)
          (a := c1.toNat) (b := c2.toNat) (m := m.toNat) (by omega) (by omega)]
        rw [show (c1 - m).toNat = c1.toNat - m.toNat by omega,
          show (c2 - m).toNat = c2.toNat - m.toNat by omega]

theorem nextBucket_degree {P : K → Prop} {count : ℤ} {degree : K} {rest : List (Bucket K)}
    {s : ℤ × K × List (Bucket K)} (h : nextBucket count degree rest = some s)
    (hd : count = 0 ∨ P degree) (hr : ∀ b ∈ rest, P b.maxDegree) :
    P s.2.1 ∧ ∀ b ∈ s.2.2, P b.maxDegree := by
  unfold nextBucket at h
  split at h
  · next h0 =>
    cases rest with
    | nil => cases h
    | cons b l =>
      obtain rfl := Option.some.inj h
      exact ⟨hr b (.head _), fun c hc => hr c (.tail _ hc)⟩
  · next h0 =>
    obtain rfl := Option.some.inj h
    exact ⟨hd.resolve_left h0, hr⟩


/-- The runs only show degrees of the buckets. -/
theorem alignLoop_degrees {P Q : K → Prop} (fuel : ℕ) {count1 count2 : ℤ} {degree1 degree2 : K}
    {rest1 rest2 : List (Bucket K)} (hd1 : count1 = 0 ∨ P degree1) (hd2 : count2 = 0 ∨ Q degree2)
    (hr1 : ∀ b ∈ rest1, P b.maxDegree) (hr2 : ∀ b ∈ rest2, Q b.maxDegree) :
    ∀ r ∈ alignLoop fuel count1 degree1 rest1 count2 degree2 rest2, P r.degree1 ∧ Q r.degree2 := by
  induction fuel generalizing count1 degree1 rest1 count2 degree2 rest2 with
  | zero => simp [alignLoop]
  | succ fuel ih =>
    unfold alignLoop
    cases hn1 : nextBucket count1 degree1 rest1 with
    | none => simp
    | some s1 =>
      obtain ⟨hp, hb1⟩ := nextBucket_degree hn1 hd1 hr1
      cases hn2 : nextBucket count2 degree2 rest2 with
      | none => simp
      | some s2 =>
        obtain ⟨hq, hb2⟩ := nextBucket_degree hn2 hd2 hr2
        exact List.forall_mem_cons.mpr ⟨⟨hp, hq⟩, ih (.inr hp) (.inr hq) hb1 hb2⟩

variable [LinearOrder K]

/-- A terminating run of the `while (true)` loop: it leaves by a `break` once a side has no
bucket left, having gone through the given runs. -/
inductive AlignSteps :
    ℤ → K → List (Bucket K) → ℤ → K → List (Bucket K) → List (Run K) → Prop
  | break1 {c1 c2 : ℤ} {d1 d2 : K} {l1 l2 : List (Bucket K)} (h : nextBucket c1 d1 l1 = none) :
      AlignSteps c1 d1 l1 c2 d2 l2 []
  | break2 {c1 c2 : ℤ} {d1 d2 : K} {l1 l2 : List (Bucket K)} {s : ℤ × K × List (Bucket K)}
      (h : nextBucket c1 d1 l1 = some s) (h' : nextBucket c2 d2 l2 = none) :
      AlignSteps c1 d1 l1 c2 d2 l2 []
  | step {c1 c2 : ℤ} {d1 d2 : K} {l1 l2 : List (Bucket K)} {s s' : ℤ × K × List (Bucket K)}
      {runs : List (Run K)} (h : nextBucket c1 d1 l1 = some s) (h' : nextBucket c2 d2 l2 = some s')
      (hrest : AlignSteps (s.1 - min s.1 s'.1) s.2.1 s.2.2 (s'.1 - min s.1 s'.1) s'.2.1 s'.2.2 runs) :
      AlignSteps c1 d1 l1 c2 d2 l2 (⟨s.2.1, s'.2.1, min s.1 s'.1⟩ :: runs)

omit [LinearOrder K] in
/-- The number of buckets bounds the iterations, whatever buckets are empty. -/
theorem alignLoop_steps (fuel : ℕ) {c1 c2 : ℤ} {d1 d2 : K} {l1 l2 : List (Bucket K)}
    (h1 : 0 ≤ c1) (h2 : 0 ≤ c2) (hl1 : ∀ b ∈ l1, 0 ≤ b.count) (hl2 : ∀ b ∈ l2, 0 ≤ b.count)
    (h0 : c1 = 0 ∨ c2 = 0) (hf : l1.length + l2.length ≤ fuel) :
    AlignSteps c1 d1 l1 c2 d2 l2 (alignLoop fuel c1 d1 l1 c2 d2 l2) := by
  induction fuel generalizing c1 d1 l1 c2 d2 l2 with
  | zero =>
    obtain rfl : l1 = [] := List.eq_nil_of_length_eq_zero (by omega)
    obtain rfl : l2 = [] := List.eq_nil_of_length_eq_zero (by omega)
    rcases h0 with rfl | rfl
    · exact .break1 rfl
    · cases hn : nextBucket c1 d1 [] with
      | none => exact .break1 hn
      | some s => exact .break2 hn rfl
  | succ fuel ih =>
    unfold alignLoop
    cases hn1 : nextBucket c1 d1 l1 with
    | none => exact .break1 hn1
    | some s1 =>
      cases hn2 : nextBucket c2 d2 l2 with
      | none => exact .break2 hn1 hn2
      | some s2 =>
        obtain ⟨-, hload1, hle1, hs1⟩ := nextBucket_some hn1
        obtain ⟨-, hload2, hle2, hs2⟩ := nextBucket_some hn2
        obtain ⟨hc1, hb1⟩ := hs1 h1 hl1
        obtain ⟨hc2, hb2⟩ := hs2 h2 hl2
        have hm := min_choice s1.1 s2.1
        have hm1 := min_le_left s1.1 s2.1
        have hm2 := min_le_right s1.1 s2.1
        refine .step hn1 hn2 (ih (by omega) (by omega) hb1 hb2 (by omega) ?_)
        -- one of the two sides was used up, so a bucket has been loaded
        rcases h0 with h0 | h0
        · have := hload1 h0; omega
        · have := hload2 h0; omega

/-- The same ranks, seen from the other operand. -/
def Run.swap (r : Run K) : Run K := ⟨r.degree2, r.degree1, r.count⟩

omit [LinearOrder K] in
/-- Either side may run out first, so the loop does not depend on their order. -/
theorem alignLoop_comm (fuel : ℕ) (count1 count2 : ℤ) (degree1 degree2 : K)
    (rest1 rest2 : List (Bucket K)) :
    alignLoop fuel count2 degree2 rest2 count1 degree1 rest1 =
      (alignLoop fuel count1 degree1 rest1 count2 degree2 rest2).map Run.swap := by
  induction fuel generalizing count1 degree1 rest1 count2 degree2 rest2 with
  | zero => rfl
  | succ fuel ih =>
    unfold alignLoop
    cases nextBucket count1 degree1 rest1 with
    | none => cases nextBucket count2 degree2 rest2 <;> rfl
    | some s1 =>
      cases nextBucket count2 degree2 rest2 with
      | none => rfl
      | some s2 =>
        obtain ⟨c1, d1, l1⟩ := s1
        obtain ⟨c2, d2, l2⟩ := s2
        simp only [List.map_cons]
        rw [min_comm c2 c1, ih (c1 - min c1 c2) (c2 - min c1 c2)]
        rfl

variable [Field K] {ds1 ds2 : DegreeSequence K}

section

omit [LinearOrder K]

theorem alignRuns_comm (ds1 ds2 : DegreeSequence K) :
    alignRuns ds2 ds1 = (alignRuns ds1 ds2).map Run.swap := by
  rw [alignRuns, alignRuns, add_comm, alignLoop_comm]

theorem alignRuns_degrees {P Q : K → Prop} (h1 : ∀ b ∈ ds1.buckets, P b.maxDegree)
    (h2 : ∀ b ∈ ds2.buckets, Q b.maxDegree) :
    ∀ r ∈ alignRuns ds1 ds2, P r.degree1 ∧ Q r.degree2 :=
  alignLoop_degrees _ (.inl rfl) (.inl rfl) h1 h2

end

variable (h1 : ∀ b ∈ ds1.buckets, 0 ≤ b.count)
  (h2 : ∀ b ∈ ds2.buckets, 0 ≤ b.count)
include h1 h2

section

omit [LinearOrder K]

/-- The runs pair the two sequences rank by rank. -/
theorem pairs_alignRuns :
    pairs (alignRuns ds1 ds2) = (expand ds1.buckets).zip (expand ds2.buckets) := by
  simpa [alignRuns] using (pairs_alignLoop _ 0 0 le_rfl le_rfl h1 h2
    (.inl rfl) le_rfl).1

/-- The loop terminates, with these runs. -/
theorem alignRuns_steps :
    AlignSteps 0 0 ds1.buckets 0 0 ds2.buckets (alignRuns ds1 ds2) :=
  alignLoop_steps _ le_rfl le_rfl h1 h2 (.inl rfl) le_rfl

theorem alignRuns_count_nonneg : ∀ r ∈ alignRuns ds1 ds2, 0 ≤ r.count :=
  (pairs_alignLoop _ 0 0 le_rfl le_rfl h1 h2 (.inl rfl) le_rfl).2

end

end Loop

/-! ## Rank-wise products -/

section Products

variable [Field K]

/-- The calls made for the products of the runs. -/
def products (runs : List (Run K)) : List (K × ℤ) :=
  runs.map fun r => (r.degree1 * r.degree2, r.count)

theorem spread_products_eq (runs : List (Run K)) :
    spread (products runs) = (pairs runs).map fun x => x.1 * x.2 := by
  induction runs with
  | nil => rfl
  | cons r l ih =>
    rw [products, List.map_cons, spread_cons, ← products, ih, pairs_cons, List.map_append,
      List.map_replicate]

theorem products_swap (runs : List (Run K)) : products (runs.map Run.swap) = products runs := by
  rw [products, products, List.map_map]
  exact List.map_congr_left fun r _ => Prod.ext (mul_comm _ _) rfl

theorem entry_zip_map (l l' : List K) (i : ℕ) :
    entry ((l.zip l').map fun x => x.1 * x.2) i = entry l i * entry l' i := by
  induction l generalizing l' i with
  | nil => simp [entry]
  | cons a l ih =>
    cases l' with
    | nil => simp [entry]
    | cons b l' =>
      cases i with
      | zero => simp [entry]
      | succ i => simpa [entry] using ih l' i

variable [LinearOrder K] [IsStrictOrderedRing K] {ds1 ds2 : DegreeSequence K}

/-- The rank-wise product of two sequences. -/
def rankProduct (ds1 ds2 : DegreeSequence K) (i : ℕ) : K :=
  entry (expand ds1.buckets) i * entry (expand ds2.buckets) i

variable (h1 : ∀ b ∈ ds1.buckets, 0 ≤ b.count) (h2 : ∀ b ∈ ds2.buckets, 0 ≤ b.count)
include h1 h2

section

omit [LinearOrder K] [IsStrictOrderedRing K]

theorem entry_spread_products (i : ℕ) :
    entry (spread (products (alignRuns ds1 ds2))) i = rankProduct ds1 ds2 i := by
  rw [spread_products_eq, pairs_alignRuns h1 h2, entry_zip_map]; rfl

theorem pre_spread_products (k : ℕ) :
    pre (entry (spread (products (alignRuns ds1 ds2)))) k = pre (rankProduct ds1 ds2) k :=
  sum_congr rfl fun i _ => entry_spread_products h1 h2 i

theorem length_spread_products : (spread (products (alignRuns ds1 ds2))).length =
    min (expand ds1.buckets).length (expand ds2.buckets).length := by
  rw [spread_products_eq, pairs_alignRuns h1 h2]; simp

/-- The total of the products, at any rank from the length of the shorter sequence on. -/
theorem sum_spread_products {n : ℕ}
    (hn : min (expand ds1.buckets).length (expand ds2.buckets).length ≤ n) :
    (spread (products (alignRuns ds1 ds2))).sum = pre (rankProduct ds1 ds2) n := by
  rw [← pre_spread_products h1 h2, pre_entry_of_le]
  rwa [length_spread_products h1 h2]

end

end Products

end StarCE
