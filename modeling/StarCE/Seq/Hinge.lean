import StarCE.Seq.Prefix

/-!
# Domination by hinge sums

`hinge lam x` is the part of `x` above `lam`. A list with non-increasing
entries dominates a bag as soon as its hinge sums are at least the bag's
(`bagDominates_of_hinge`). Hinge sums do not depend on any order and add up
over parts, so domination of a compressed sequence is checked bucket by bucket.
-/

namespace StarCE

open Finset

variable {K : Type} [Field K] [LinearOrder K] {ι : Type}

def hinge (lam x : K) : K := max (x - lam) 0

/-- No `k` members of the bag sum to more than the first `k` entries of `g`. -/
def BagDominates (g : ℕ → K) (m : Multiset K) : Prop := ∀ s ≤ m, s.sum ≤ pre g s.card


theorem hinge_nonneg (lam x : K) : 0 ≤ hinge lam x := le_max_right _ _

variable [IsStrictOrderedRing K]

theorem le_add_hinge (lam x : K) : x ≤ lam + hinge lam x := by
  linarith [le_max_left (x - lam) 0, show hinge lam x = max (x - lam) 0 from rfl]

theorem hinge_of_le {lam x : K} (h : x ≤ lam) : hinge lam x = 0 :=
  max_eq_right (sub_nonpos.mpr h)

theorem hinge_of_ge {lam x : K} (h : lam ≤ x) : hinge lam x = x - lam :=
  max_eq_left (sub_nonneg.mpr h)

/-- The hinge lies below its chord from the origin. -/
theorem hinge_mul_le {lam x M : K} (hlam : 0 ≤ lam) (hx : 0 ≤ x) (hxM : x ≤ M) :
    hinge lam x * M ≤ x * hinge lam M := by
  rcases le_total x lam with h | h
  · rw [hinge_of_le h, zero_mul]; exact mul_nonneg hx (hinge_nonneg _ _)
  · rw [hinge_of_ge h, hinge_of_ge (h.trans hxM)]
    nlinarith

theorem sum_hinge_entry (l : List K) (lam : K) (hlam : 0 ≤ lam) {n : ℕ} (hn : l.length ≤ n) :
    ∑ r ∈ range n, hinge lam (entry l r) = (l.map (hinge lam)).sum := by
  have h0 : hinge lam (0 : K) = 0 := hinge_of_le hlam
  rw [← pre_entry_of_le (l := l.map (hinge lam)) (k := n) (by simpa using hn)]
  refine sum_congr rfl fun r _ => ?_
  rcases Nat.lt_or_ge r l.length with hr | hr
  · simp [entry_of_lt, hr]
  · simp [entry_of_le, hr, h0]

/-- With `lam` at the `k`-th entry, the hinge sum measures the first `k` entries. -/
theorem pre_eq_hinge {l : List K} (hl : Antitone (entry l)) (h0 : ∀ i, 0 ≤ entry l i) (k : ℕ) :
    k * entry l k + (l.map (hinge (entry l k))).sum = pre (entry l) k := by
  rw [← sum_hinge_entry l _ (h0 k) (n := k + l.length) (by omega), sum_range_add]
  have hz : ∑ r ∈ range l.length, hinge (entry l k) (entry l (k + r)) = 0 :=
    sum_eq_zero fun r _ => hinge_of_le (hl (Nat.le_add_right k r))
  have hk : ∑ r ∈ range k, hinge (entry l k) (entry l r) =
      ∑ r ∈ range k, (entry l r - entry l k) :=
    sum_congr rfl fun r hr => hinge_of_ge (hl (mem_range.mp hr).le)
  rw [hz, hk, sum_sub_distrib, sum_const, card_range, nsmul_eq_mul, pre]
  ring

theorem bagDominates_of_hinge {l : List K} {m : Multiset K} (hl : Antitone (entry l))
    (h0 : ∀ i, 0 ≤ entry l i)
    (h : ∀ lam, 0 ≤ lam → (m.map (hinge lam)).sum ≤ (l.map (hinge lam)).sum) :
    BagDominates (entry l) m := by
  intro s hs
  set lam := entry l s.card with hlam
  have h1 : s.sum ≤ (s.map fun x => lam + hinge lam x).sum := by
    conv_lhs => rw [← Multiset.map_id' s]
    exact Multiset.sum_map_le_sum_map _ _ fun x _ => le_add_hinge lam x
  rw [Multiset.sum_map_add, Multiset.map_const', Multiset.sum_replicate, nsmul_eq_mul] at h1
  have h2 : (s.map (hinge lam)).sum ≤ (m.map (hinge lam)).sum := by
    obtain ⟨t, rfl⟩ := Multiset.le_iff_exists_add.mp hs
    rw [Multiset.map_add, Multiset.sum_add]
    have : 0 ≤ (t.map (hinge lam)).sum :=
      Multiset.sum_nonneg fun x hx => by
        obtain ⟨y, _, rfl⟩ := Multiset.mem_map.mp hx; exact hinge_nonneg _ _
    linarith
  have h3 := pre_eq_hinge hl h0 s.card
  linarith [h lam (h0 _)]

/-! ## Bags and families -/

/-- A family is dominated once its positive members are a part of a dominated bag. -/
theorem BagDominates.dominates {g : ℕ → K} (hg : ∀ i, 0 ≤ g i) {m : Multiset K}
    (h : BagDominates g m) {f : ι → K} (hf0 : ∀ i, 0 ≤ f i)
    (hm : ∀ s : Finset ι, (∀ i ∈ s, 0 < f i) → s.val.map f ≤ m) : Dominates g f := by
  classical
  intro s
  have h1 : ∑ i ∈ s, f i = ∑ i ∈ s with 0 < f i, f i := by
    rw [sum_filter]
    refine sum_congr rfl fun i _ => ?_
    split
    · rfl
    · next hi => exact le_antisymm (not_lt.mp hi) (hf0 i)
  have h2 := h _ (hm {i ∈ s | 0 < f i} fun i hi => (mem_filter.mp hi).2)
  rw [Multiset.card_map] at h2
  rw [h1]
  exact h2.trans (pre_mono hg (card_filter_le _ _))

end StarCE
