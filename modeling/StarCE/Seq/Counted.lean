import StarCE.Seq.Prefix

/-!
# Counted rows

A sequence counts rows by an attribute (`Counted`) when no `k` values of the
attribute occur in more rows than its first `k` entries sum up to. Rows of two
kinds are joined where an attribute of both agrees: the rank-wise product
counts them by this attribute (`Counted.join`), and by an attribute of one side
it is enough to pour the rows of that side into the layout of both sequences
(`Counted.join_other`).
-/

namespace StarCE

open Finset

variable {K : Type} [Field K] [LinearOrder K] [IsStrictOrderedRing K]
  {ρ ρ' σ ι κ : Type} [DecidableEq ι] [DecidableEq κ]

/-- No `k` values of `q` occur in more rows than the first `k` entries of `g` sum up to. -/
def Counted (g : ℕ → K) (R : Finset ρ) (q : ρ → ι) : Prop :=
  ∀ s : Finset ι, ((R.filter fun x => q x ∈ s).card : K) ≤ pre g s.card

/-- The number of rows with the value `i`. -/
def countAt (R : Finset ρ) (q : ρ → ι) (i : ι) : ℕ := (R.filter fun x => q x = i).card

/-- The pairs of rows that agree. -/
def joinOn (R1 : Finset ρ) (R2 : Finset σ) (q1 : ρ → ι) (q2 : σ → ι) : Finset (ρ × σ) :=
  (R1 ×ˢ R2).filter fun x => q1 x.1 = q2 x.2

variable {g h A B D : ℕ → K} {R : Finset ρ} {R' : Finset ρ'} {R1 : Finset ρ} {R2 : Finset σ}
  {q : ρ → ι} {q' : ρ' → ι} {q1 : ρ → ι} {q2 : σ → ι} {p : ρ → κ} {p2 : σ → κ}

theorem mem_joinOn {x : ρ × σ} : x ∈ joinOn R1 R2 q1 q2 ↔ (x.1 ∈ R1 ∧ x.2 ∈ R2) ∧ q1 x.1 = q2 x.2 := by
  rw [joinOn, mem_filter, mem_product]

/-! ## Counting -/

theorem sum_countAt (R : Finset ρ) (q : ρ → ι) (s : Finset ι) :
    ∑ i ∈ s, countAt R q i = (R.filter fun x => q x ∈ s).card := by
  have hfibers := card_eq_sum_card_fiberwise (f := q) (s := R.filter fun x => q x ∈ s) (t := s)
    fun x hx => (mem_filter.mp hx).2
  rw [hfibers]
  refine sum_congr rfl fun i hi => congrArg card ?_
  rw [filter_filter]
  refine filter_congr fun x _ => ?_
  constructor
  · intro hx
    exact ⟨hx ▸ hi, hx⟩
  · exact And.right

section

omit [IsStrictOrderedRing K]

theorem counted_iff : Counted g R q ↔ Dominates g fun i => (countAt R q i : K) := by
  refine forall_congr' fun s => ?_
  rw [← Nat.cast_sum, sum_countAt]

theorem Counted.mono (hc : Counted g R q) (hgh : ∀ k, pre g k ≤ pre h k) : Counted h R q :=
  fun s => (hc s).trans (hgh _)

/-- All rows are counted at some rank. -/
theorem Counted.card_le (hc : Counted g R q) : ∃ k, (R.card : K) ≤ pre g k := by
  refine ⟨(R.image q).card, ?_⟩
  have hall : (R.filter fun x => q x ∈ R.image q) = R := filter_true_of_mem fun x hx => mem_image_of_mem q hx
  have hle := hc (R.image q)
  rwa [hall] at hle

end

/-- No attribute needs more than there are rows. -/
theorem Counted.cap (hc : Counted g R q) {c : K} (hR : (R.card : K) ≤ c)
    (hgh : ∀ k, min (pre g k) c ≤ pre h k) : Counted h R q := fun s => by
  have hle : ((R.filter fun x => q x ∈ s).card : K) ≤ R.card := by exact_mod_cast card_filter_le _ _
  exact (le_min (hc s) (hle.trans hR)).trans (hgh _)

/-- Rows that go with counted ones, no two with the same. -/
theorem Counted.of_rel (hc : Counted g R q) {r : ρ' → ρ → Prop} (hex : ∀ y ∈ R', ∃ x ∈ R, r y x)
    (hinj : ∀ y ∈ R', ∀ y' ∈ R', ∀ x, r y x → r y' x → y = y')
    (hq : ∀ y ∈ R', ∀ x ∈ R, r y x → q x = q' y) : Counted g R' q' := fun s => by
  refine le_trans ?_ (hc s)
  have hle : (R'.filter fun y => q' y ∈ s).card ≤ (R.filter fun x => q x ∈ s).card := by
    apply card_le_card_of_forall_subsingleton r
    · intro y hy
      obtain ⟨hyR, hys⟩ := mem_filter.mp hy
      obtain ⟨x, hx, hyx⟩ := hex y hyR
      exact ⟨x, mem_filter.mpr ⟨hx, hq y hyR x hx hyx ▸ hys⟩, hyx⟩
    · rintro x - y ⟨hy, hyx⟩ y' ⟨hy', hyx'⟩
      exact hinj y (mem_filter.mp hy).1 y' (mem_filter.mp hy').1 x hyx hyx'
  exact_mod_cast hle

/-- Rows that are some of the counted ones, by an attribute that goes with theirs. -/
theorem Counted.of_injOn (hc : Counted g R q) {f : ρ' → ρ} (hmaps : ∀ x ∈ R', f x ∈ R)
    (hinj : ∀ x ∈ R', ∀ y ∈ R', f x = f y → x = y) (hq : ∀ x ∈ R', q (f x) = q' x) :
    Counted g R' q' := by
  apply hc.of_rel (r := fun y x => f y = x)
  · exact fun y hy => ⟨f y, hmaps y hy, rfl⟩
  · exact fun y hy y' hy' x hx hx' => hinj y hy y' hy' (hx.trans hx'.symm)
  · rintro y hy _ - rfl
    exact hq y hy

/-- Other names for the values. -/
theorem Counted.map (hc : Counted g R q) (hg : ∀ i, 0 ≤ g i) {φ : ι → κ} (hφ : Function.Injective φ) :
    Counted g R fun x => φ (q x) := fun s => by
  have hcard : (s.preimage φ hφ.injOn).card ≤ s.card := by
    apply card_le_card_of_injOn φ
    · exact fun i hi => mem_preimage.mp hi
    · exact hφ.injOn
  have hle := (hc (s.preimage φ hφ.injOn)).trans (pre_mono hg hcard)
  simpa only [mem_preimage] using hle

theorem Counted.subset (hc : Counted g R q) {R0 : Finset ρ} (hsub : R0 ⊆ R) : Counted g R0 q :=
  hc.of_injOn (f := id) hsub (fun _ _ _ _ hxy => hxy) fun _ _ => rfl

/-- A value of an attribute in at most one row, and at most `n` rows. -/
theorem counted_ones (hq : ∀ x ∈ R, ∀ y ∈ R, q x = q y → x = y)
    (hg : ∀ k, ((min k R.card : ℕ) : K) ≤ pre g k) : Counted g R q := fun s => by
  refine le_trans ?_ (hg s.card)
  have hle : (R.filter fun x => q x ∈ s).card ≤ s.card := by
    apply card_le_card_of_injOn q
    · exact fun x hx => (mem_filter.mp hx).2
    · exact fun x hx y hy hxy => hq x (mem_filter.mp hx).1 y (mem_filter.mp hy).1 hxy
  exact_mod_cast le_min hle (card_filter_le _ _)

/-! ## Joins -/

theorem card_joinOn (R1 : Finset ρ) (R2 : Finset σ) (q1 : ρ → ι) (q2 : σ → ι) :
    (joinOn R1 R2 q1 q2).card = ∑ i ∈ R1.image q1, countAt R1 q1 i * countAt R2 q2 i := by
  rw [card_eq_sum_card_fiberwise (f := fun x => q1 x.1) (t := R1.image q1)
    fun x hx => mem_image_of_mem q1 (mem_joinOn.mp hx).1.1]
  refine sum_congr rfl fun i _ => ?_
  rw [countAt, countAt, ← card_product]
  congr 1
  ext x
  rw [mem_filter, mem_joinOn, mem_product, mem_filter, mem_filter]
  constructor
  · rintro ⟨⟨⟨h1, h2⟩, he⟩, hi⟩
    exact ⟨⟨h1, hi⟩, h2, he ▸ hi⟩
  · rintro ⟨⟨h1, hi⟩, h2, he⟩
    exact ⟨⟨⟨h1, h2⟩, hi.trans he.symm⟩, hi⟩

theorem filter_joinOn (P : ρ → Prop) [DecidablePred P] :
    ((joinOn R1 R2 q1 q2).filter fun x => P x.1) = joinOn (R1.filter P) R2 q1 q2 := by
  ext x
  rw [mem_filter, mem_joinOn, mem_joinOn, mem_filter]
  constructor
  · rintro ⟨⟨⟨h1, h2⟩, he⟩, hP⟩
    exact ⟨⟨⟨h1, hP⟩, h2⟩, he⟩
  · rintro ⟨⟨⟨h1, hP⟩, h2⟩, he⟩
    exact ⟨⟨⟨h1, h2⟩, he⟩, hP⟩

/-- By the attribute of the join. -/
theorem Counted.join (h1 : Counted A R1 q1) (h2 : Counted B R2 q2) (hA : Antitone A)
    (hA0 : ∀ i, 0 ≤ A i) (hB0 : ∀ i, 0 ≤ B i) :
    Counted (fun r => A r * B r) (joinOn R1 R2 q1 q2) fun x => q1 x.1 := by
  rw [counted_iff]
  have hcount : ∀ i, countAt (joinOn R1 R2 q1 q2) (fun x => q1 x.1) i =
      countAt R1 q1 i * countAt R2 q2 i := fun i => by
    rw [countAt, filter_joinOn fun x => q1 x = i, card_joinOn]
    have hfiber : ∀ j ∈ (R1.filter fun x => q1 x = i).image q1, j = i := by
      intro j hj
      obtain ⟨x, hx, rfl⟩ := mem_image.mp hj
      exact (mem_filter.mp hx).2
    have hsame : countAt (R1.filter fun x => q1 x = i) q1 i = countAt R1 q1 i := by
      rw [countAt, filter_filter]
      simp only [and_self]
      rfl
    rcases (R1.filter fun x => q1 x = i).eq_empty_or_nonempty with h0 | ⟨y, hy⟩
    · rw [show countAt R1 q1 i = 0 from card_eq_zero.mpr h0, h0, zero_mul]
      rfl
    · have hone : (R1.filter fun x => q1 x = i).image q1 = {i} := eq_singleton_iff_unique_mem.mpr
        ⟨mem_image.mpr ⟨y, hy, (mem_filter.mp hy).2⟩, hfiber⟩
      rw [hone, sum_singleton, hsame]
  simp only [hcount, Nat.cast_mul]
  exact Dominates.mul hA hA0 hB0 (fun i => Nat.cast_nonneg _) (counted_iff.mp h1) (counted_iff.mp h2)

/-- By another attribute of the left rows, which `D` counts by it. -/
theorem Counted.join_other (h1 : Counted A R1 q1) (h2 : Counted B R2 q2) (hp : Counted D R1 p)
    (hA : Antitone A) (hA0 : ∀ i, 0 ≤ A i) (hB0 : ∀ i, 0 ≤ B i) {n : ℕ}
    (hn : ∀ r, n ≤ r → A r * B r = 0) (hg : ∀ k, layout n A B (pre D k) ≤ pre g k) :
    Counted g (joinOn R1 R2 q1 q2) fun x => p x.1 := fun s => by
  refine le_trans ?_ (hg s.card)
  rw [filter_joinOn fun x => p x ∈ s, card_joinOn, Nat.cast_sum]
  set S := R1.filter fun x => p x ∈ s with hS
  set x := pre D s.card with hx
  have hv := counted_iff.mp (h1.subset (filter_subset (fun x => p x ∈ s) R1))
  have hrows : ∑ i ∈ S.image q1, (countAt S q1 i : K) ≤ x := by
    rw [← Nat.cast_sum, sum_countAt, filter_true_of_mem fun y hy => mem_image_of_mem q1 hy]
    exact hp s
  have hfill : ∑ i ∈ S.image q1, (countAt S q1 i : K) * (countAt R2 q2 i : K) ≤
      pre (fun r => fill A x r * B r) (S.image q1).card :=
    sum_mul_le_fill hA hA0 hB0 (fun _ => Nat.cast_nonneg _) hv (fun _ => Nat.cast_nonneg _)
      (counted_iff.mp h2) hrows
  simp only [Nat.cast_mul]
  refine hfill.trans ?_
  -- past `n` the layout has nothing
  have hzero : ∀ r, n ≤ r → fill A x r * B r = 0 := fun r hr => by
    refine le_antisymm ?_ (mul_nonneg (fill_nonneg hA0 x r) (hB0 r))
    rw [← hn r hr]
    exact mul_le_mul_of_nonneg_right (fill_le hA0 x r) (hB0 r)
  have hall : ∀ m, pre (fun r => fill A x r * B r) (n + m) = layout n A B x := fun m => by
    induction m with
    | zero => rfl
    | succ m ih => rw [← Nat.add_assoc, pre_succ, ih, hzero _ (Nat.le_add_right _ _), add_zero]
  rw [← hall (S.image q1).card]
  exact pre_mono (fun r => mul_nonneg (fill_nonneg hA0 x r) (hB0 r)) (Nat.le_add_left _ _)

/-- Rows that are known from their parts. -/
theorem card_le_prod_image [DecidableEq ρ'] {I : Finset ι} {f : ι → ρ → ρ'}
    (hf : ∀ x ∈ R, ∀ y ∈ R, (∀ i ∈ I, f i x = f i y) → x = y) :
    R.card ≤ ∏ i ∈ I, (R.image (f i)).card := by
  rw [← card_pi]
  apply card_le_card_of_injOn fun x i _ => f i x
  · exact fun x hx => mem_pi.mpr fun i _ => mem_image_of_mem (f i) hx
  · exact fun x hx y hy hxy => hf x hx y hy fun i hi => congrFun (congrFun hxy i) hi

theorem joinOn_swap_mem {x : ρ × σ} : x.swap ∈ joinOn R2 R1 q2 q1 ↔ x ∈ joinOn R1 R2 q1 q2 := by
  rw [mem_joinOn, mem_joinOn, Prod.fst_swap, Prod.snd_swap, and_comm (a := x.2 ∈ R2), eq_comm]

/-- By another attribute of the right rows. -/
theorem Counted.join_right (h1 : Counted A R1 q1) (h2 : Counted B R2 q2) (hp : Counted D R2 p2)
    (hB : Antitone B) (hA0 : ∀ i, 0 ≤ A i) (hB0 : ∀ i, 0 ≤ B i) {n : ℕ}
    (hn : ∀ r, n ≤ r → B r * A r = 0) (hg : ∀ k, layout n B A (pre D k) ≤ pre g k) :
    Counted g (joinOn R1 R2 q1 q2) fun x => p2 x.2 := by
  have hleft := h2.join_other h1 hp hB hB0 hA0 hn hg
  apply hleft.of_injOn (f := Prod.swap)
  · exact fun x hx => joinOn_swap_mem.mpr hx
  · exact fun x _ y _ hxy => Prod.swap_injective hxy
  · exact fun _ _ => rfl

end StarCE
