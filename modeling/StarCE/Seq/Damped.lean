import Mathlib

/-!
# Damped products

Coefficients in ascending order are multiplied, each under the root of its
position, and after each step the product is kept above a bound that depends on
what has been multiplied in so far (`damped`). One more coefficient shifts the
positions of all larger ones. The product alone gets smaller; the damped one
does too, unless a bound on some of the coefficients, the new one among them,
comes into effect (`damped_sublist`). Where coefficients are equal the order is
left open, and with it which of them the bound is on (`damped_subperm`).
-/

namespace StarCE

/-! ## Products of roots -/

variable {α : Type}

/-- The product of the roots of some coefficients, the first of which has `k` before it. -/
noncomputable def roots : ℕ → List (ℝ × α) → ℝ
  | _, [] => 1
  | k, c :: l => c.1 ^ (1 / ((k + 1 : ℕ) : ℝ)) * roots (k + 1) l

/-- The product so far is `s`, with the coefficients of `done`. -/
noncomputable def damped (low : List α → ℝ) : List α → ℝ → List (ℝ × α) → ℝ
  | _, s, [] => s
  | done, s, c :: l =>
    damped low (done ++ [c.2])
      (max (s * c.1 ^ (1 / ((done.length + 1 : ℕ) : ℝ))) (low (done ++ [c.2]))) l

variable {low : List α → ℝ} {done : List α} {s : ℝ} {l m m' : List (ℝ × α)} {c : ℝ × α} {k : ℕ}

theorem roots_nonneg (h : ∀ c ∈ l, 0 ≤ c.1) : 0 ≤ roots k l := by
  induction l generalizing k with
  | nil => exact zero_le_one
  | cons c l ih =>
    obtain ⟨hc, hl⟩ := List.forall_mem_cons.mp h
    exact mul_nonneg (Real.rpow_nonneg hc _) (ih hl)

theorem roots_le_one (h : ∀ c ∈ l, 0 ≤ c.1 ∧ c.1 ≤ 1) : roots k l ≤ 1 := by
  induction l generalizing k with
  | nil => exact le_rfl
  | cons c l ih =>
    obtain ⟨⟨hc0, hc1⟩, hl⟩ := List.forall_mem_cons.mp h
    apply mul_le_one₀ _ (roots_nonneg fun d hd => (hl d hd).1) (ih hl)
    exact Real.rpow_le_one hc0 hc1 (by positivity)

/-- Of two coefficients the smaller one gains more from a smaller root. -/
theorem root_mul_root_le {x y : ℝ} (hx : 0 < x) (hxy : x ≤ y) (k : ℕ) :
    x ^ (1 / ((k + 1 : ℕ) : ℝ)) * y ^ (1 / ((k + 2 : ℕ) : ℝ)) ≤
      y ^ (1 / ((k + 1 : ℕ) : ℝ)) * x ^ (1 / ((k + 2 : ℕ) : ℝ)) := by
  have hy : 0 < y := hx.trans_le hxy
  obtain ⟨d, hd⟩ : ∃ d : ℝ, d = 1 / ((k + 1 : ℕ) : ℝ) - 1 / ((k + 2 : ℕ) : ℝ) := ⟨_, rfl⟩
  have hd0 : 0 ≤ d := by
    rw [hd, sub_nonneg]
    apply one_div_le_one_div_of_le (by positivity)
    push_cast
    linarith
  have hsplit : 1 / ((k + 1 : ℕ) : ℝ) = d + 1 / ((k + 2 : ℕ) : ℝ) := by rw [hd]; ring
  rw [hsplit, Real.rpow_add hx, Real.rpow_add hy]
  have hle : x ^ d ≤ y ^ d := Real.rpow_le_rpow hx.le hxy hd0
  calc x ^ d * x ^ (1 / ((k + 2 : ℕ) : ℝ)) * y ^ (1 / ((k + 2 : ℕ) : ℝ))
      = x ^ d * (x ^ (1 / ((k + 2 : ℕ) : ℝ)) * y ^ (1 / ((k + 2 : ℕ) : ℝ))) := mul_assoc _ _ _
    _ ≤ y ^ d * (x ^ (1 / ((k + 2 : ℕ) : ℝ)) * y ^ (1 / ((k + 2 : ℕ) : ℝ))) := by
      apply mul_le_mul_of_nonneg_right hle
      positivity
    _ = y ^ d * y ^ (1 / ((k + 2 : ℕ) : ℝ)) * x ^ (1 / ((k + 2 : ℕ) : ℝ)) := by ring

/-- One more coefficient in front makes the product smaller, though it shifts the others. -/
theorem roots_cons_le (hc : 0 < c.1) (h1 : c.1 ≤ 1) (h : ∀ d ∈ l, c.1 ≤ d.1) :
    roots k (c :: l) ≤ roots k l := by
  show c.1 ^ (1 / ((k + 1 : ℕ) : ℝ)) * roots (k + 1) l ≤ roots k l
  induction l generalizing k with
  | nil =>
    show c.1 ^ (1 / ((k + 1 : ℕ) : ℝ)) * 1 ≤ 1
    rw [mul_one]
    exact Real.rpow_le_one hc.le h1 (by positivity)
  | cons d l ih =>
    obtain ⟨hd, hl⟩ := List.forall_mem_cons.mp h
    have hr : 0 ≤ roots (k + 2) l := roots_nonneg fun e he => hc.le.trans (hl e he)
    have hd0 : 0 ≤ d.1 ^ (1 / ((k + 1 : ℕ) : ℝ)) := Real.rpow_nonneg (hc.le.trans hd) _
    calc c.1 ^ (1 / ((k + 1 : ℕ) : ℝ)) * (d.1 ^ (1 / ((k + 2 : ℕ) : ℝ)) * roots (k + 2) l)
        = c.1 ^ (1 / ((k + 1 : ℕ) : ℝ)) * d.1 ^ (1 / ((k + 2 : ℕ) : ℝ)) * roots (k + 2) l :=
          (mul_assoc _ _ _).symm
      _ ≤ d.1 ^ (1 / ((k + 1 : ℕ) : ℝ)) * c.1 ^ (1 / ((k + 2 : ℕ) : ℝ)) * roots (k + 2) l :=
          mul_le_mul_of_nonneg_right (root_mul_root_le hc hd k) hr
      _ = d.1 ^ (1 / ((k + 1 : ℕ) : ℝ)) * (c.1 ^ (1 / ((k + 2 : ℕ) : ℝ)) * roots (k + 2) l) :=
          mul_assoc _ _ _
      _ ≤ d.1 ^ (1 / ((k + 1 : ℕ) : ℝ)) * roots (k + 1) l :=
          mul_le_mul_of_nonneg_left (ih hl) hd0

/-- The product is one of the values, whatever they are tagged with. -/
theorem roots_map {β : Type} (f : α → β) (l : List (ℝ × α)) (k : ℕ) :
    roots k (l.map fun c => (c.1, f c.2)) = roots k l := by
  induction l generalizing k with
  | nil => rfl
  | cons c l ih =>
    show c.1 ^ (1 / ((k + 1 : ℕ) : ℝ)) * roots (k + 1) (l.map fun c => (c.1, f c.2)) = _
    rw [ih]
    rfl

/-- More coefficients make the product smaller. -/
theorem roots_sublist (hsub : m.Sublist m') (hsorted : m'.Pairwise fun c d => c.1 ≤ d.1)
    (h : ∀ c ∈ m', 0 < c.1 ∧ c.1 ≤ 1) : roots k m' ≤ roots k m := by
  induction hsub generalizing k with
  | slnil => exact le_rfl
  | @cons m m' c hsub ih =>
    obtain ⟨⟨hc0, hc1⟩, hl⟩ := List.forall_mem_cons.mp h
    obtain ⟨hle, hsorted⟩ := List.pairwise_cons.mp hsorted
    exact (roots_cons_le hc0 hc1 hle).trans (ih hsorted hl)
  | @cons_cons m m' c hsub ih =>
    obtain ⟨⟨hc0, -⟩, hl⟩ := List.forall_mem_cons.mp h
    exact mul_le_mul_of_nonneg_left (ih (List.pairwise_cons.mp hsorted).2 hl)
      (Real.rpow_nonneg hc0.le _)

/-- Two sorted lists, one of which has more coefficients, in whatever order the equal ones are. -/
theorem roots_subperm (hsub : m.Subperm m') (hm : m.Pairwise fun c d => c.1 ≤ d.1)
    (hm' : m'.Pairwise fun c d => c.1 ≤ d.1) (h : ∀ c ∈ m', 0 < c.1 ∧ c.1 ≤ 1) :
    roots k m' ≤ roots k m := by
  obtain ⟨l, hperm, hsub⟩ := hsub
  have hvalues : (m.map (·.1)).Sublist (m'.map (·.1)) :=
    List.sublist_of_subperm_of_pairwise ⟨_, hperm.map _, hsub.map _⟩ (List.pairwise_map.mpr hm)
      (List.pairwise_map.mpr hm')
  have hunit := hvalues.map fun x => (x, ())
  rw [List.map_map, List.map_map] at hunit
  rw [← roots_map (fun _ => ()) m, ← roots_map (fun _ => ()) m']
  apply roots_sublist hunit
  · exact List.pairwise_map.mpr hm'
  · intro c hc
    obtain ⟨d, hd, rfl⟩ := List.mem_map.mp hc
    exact h d hd

/-! ## Bounds -/

/-- The bounds only raise the product. -/
theorem mul_roots_le_damped (low : List α → ℝ) (done : List α) (s : ℝ) (h : ∀ c ∈ l, 0 ≤ c.1) :
    s * roots done.length l ≤ damped low done s l := by
  induction l generalizing done s with
  | nil => exact (mul_one s).le
  | cons c l ih =>
    obtain ⟨hc, hl⟩ := List.forall_mem_cons.mp h
    have hnext := ih (done ++ [c.2]) (max (s * c.1 ^ (1 / ((done.length + 1 : ℕ) : ℝ)))
      (low (done ++ [c.2]))) hl
    rw [List.length_append, List.length_singleton] at hnext
    calc s * (c.1 ^ (1 / ((done.length + 1 : ℕ) : ℝ)) * roots (done.length + 1) l)
        = s * c.1 ^ (1 / ((done.length + 1 : ℕ) : ℝ)) * roots (done.length + 1) l :=
          (mul_assoc _ _ _).symm
      _ ≤ _ := mul_le_mul_of_nonneg_right (le_max_left _ _) (roots_nonneg hl)
      _ ≤ _ := hnext

theorem damped_nonneg (hs : 0 ≤ s) (h : ∀ c ∈ l, 0 ≤ c.1) : 0 ≤ damped low done s l :=
  (mul_nonneg hs (roots_nonneg h)).trans (mul_roots_le_damped low done s h)

/-- The result is at most the product, or one of the bounds has come into effect. -/
theorem damped_le (low : List α → ℝ) (done : List α) (hs : 0 ≤ s) (h : ∀ c ∈ l, 0 ≤ c.1 ∧ c.1 ≤ 1) :
    damped low done s l ≤ s * roots done.length l ∨
      ∃ l1 l2, l = l1 ++ l2 ∧ l1 ≠ [] ∧ damped low done s l ≤ low (done ++ l1.map (·.2)) := by
  induction l generalizing done s with
  | nil => exact .inl (mul_one s).ge
  | cons c l ih =>
    obtain ⟨⟨hc0, hc1⟩, hl⟩ := List.forall_mem_cons.mp h
    obtain ⟨r, hr⟩ : ∃ r, r = s * c.1 ^ (1 / ((done.length + 1 : ℕ) : ℝ)) := ⟨_, rfl⟩
    have hr0 : 0 ≤ r := hr ▸ mul_nonneg hs (Real.rpow_nonneg hc0 _)
    have hrun : damped low done s (c :: l) =
        damped low (done ++ [c.2]) (max r (low (done ++ [c.2]))) l := by rw [hr]; rfl
    rw [hrun]
    rcases ih (done ++ [c.2]) (hr0.trans (le_max_left r (low (done ++ [c.2])))) hl with
      hle | ⟨l1, l2, rfl, -, hle⟩
    · rw [List.length_append, List.length_singleton] at hle
      rcases max_choice r (low (done ++ [c.2])) with hmax | hmax
      · rw [hmax] at hle ⊢
        rw [hr, mul_assoc] at hle
        exact .inl (hr ▸ hle)
      · refine .inr ⟨[c], l, rfl, List.cons_ne_nil _ _, hle.trans ?_⟩
        have hlow : 0 ≤ low (done ++ [c.2]) := hmax ▸ hr0.trans (le_max_left _ _)
        rw [hmax]
        exact mul_le_of_le_one_right hlow (roots_le_one hl)
    · refine .inr ⟨c :: l1, l2, rfl, List.cons_ne_nil _ _, ?_⟩
      rwa [List.append_assoc, List.singleton_append] at hle

/-! ## More coefficients -/

/-- More coefficients make the damped product smaller, or it is below a bound on coefficients with
a new one among them. -/
theorem damped_sublist (low : List α → ℝ) (done : List α) (hsub : m.Sublist m') (hs : 0 ≤ s)
    (hsorted : m'.Pairwise fun c d => c.1 ≤ d.1) (h : ∀ c ∈ m', 0 < c.1 ∧ c.1 ≤ 1)
    (hn : (m'.map (·.2)).Nodup) :
    damped low done s m' ≤ damped low done s m ∨
      ∃ B a, B.Sublist (done ++ m'.map (·.2)) ∧ a ∈ B ∧ a ∈ m'.map (·.2) ∧ a ∉ m.map (·.2) ∧
        damped low done s m' ≤ low B := by
  induction hsub generalizing done s with
  | slnil => exact .inl le_rfl
  | @cons m m' c hsub ih =>
    obtain ⟨⟨hc0, hc1⟩, hl⟩ := List.forall_mem_cons.mp h
    obtain ⟨hle, hsorted⟩ := List.pairwise_cons.mp hsorted
    rw [List.map_cons, List.nodup_cons] at hn
    have hnew : c.2 ∉ m.map (·.2) := fun hm => hn.1 ((hsub.map _).subset hm)
    rcases damped_le low done hs fun d hd =>
      ⟨(h d hd).1.le, (h d hd).2⟩ with hprod | ⟨l1, l2, heq, hne, hlow⟩
    · have hstep : damped low done s (c :: m') ≤ damped low done s m' := by
        refine hprod.trans ?_
        refine le_trans ?_ (mul_roots_le_damped low done s fun d hd => (hl d hd).1.le)
        exact mul_le_mul_of_nonneg_left (roots_cons_le hc0 hc1 hle) hs
      rcases ih done hs hsorted hl hn.2 with hrest | ⟨B, a, hB, ha, ham, hnot, hrest⟩
      · exact .inl (hstep.trans hrest)
      · refine .inr ⟨B, a, hB.trans ?_, ha, .tail _ ham, hnot, hstep.trans hrest⟩
        exact (List.Sublist.refl done).append (List.sublist_cons_self _ _)
    · refine .inr ⟨_, c.2, ?_, ?_, .head _, hnew, hlow⟩
      · rw [heq, List.map_append]
        exact (List.Sublist.refl done).append (List.sublist_append_left _ _)
      · cases l1 with
        | nil => exact absurd rfl hne
        | cons d l1 =>
          obtain ⟨rfl, -⟩ := List.cons.inj heq
          simp
  | @cons_cons m m' c hsub ih =>
    obtain ⟨⟨hc0, -⟩, hl⟩ := List.forall_mem_cons.mp h
    obtain ⟨-, hsorted⟩ := List.pairwise_cons.mp hsorted
    rw [List.map_cons, List.nodup_cons] at hn
    have hs' : 0 ≤ max (s * c.1 ^ (1 / ((done.length + 1 : ℕ) : ℝ))) (low (done ++ [c.2])) :=
      (mul_nonneg hs (Real.rpow_nonneg hc0.le _)).trans (le_max_left _ _)
    rcases ih (done ++ [c.2]) hs' hsorted hl hn.2 with
      hrest | ⟨B, a, hB, ha, ham, hnot, hrest⟩
    · exact .inl hrest
    · refine .inr ⟨B, a, ?_, ha, .tail _ ham, ?_, hrest⟩
      · rwa [List.append_assoc, List.singleton_append] at hB
      · rw [List.map_cons, List.mem_cons, not_or]
        exact ⟨fun heq => hn.1 (heq ▸ ham), hnot⟩

/-- The same for two sorted lists, whatever the order of equal coefficients: below some bound on
coefficients, which are known to have a new one among them only where no two are equal. -/
theorem damped_subperm (low : List α → ℝ) (hsub : m.Subperm m')
    (hm : m.Pairwise fun c d => c.1 ≤ d.1) (hm' : m'.Pairwise fun c d => c.1 ≤ d.1)
    (h : ∀ c ∈ m', 0 < c.1 ∧ c.1 ≤ 1) (hn : (m'.map (·.2)).Nodup) :
    damped low [] 1 m' ≤ damped low [] 1 m ∨
      ∃ B : List α, B ≠ [] ∧ (∀ a ∈ B, a ∈ m'.map (·.2)) ∧ damped low [] 1 m' ≤ low B ∧
        ((m'.map (·.1)).Nodup → ∃ a ∈ B, a ∉ m.map (·.2)) := by
  by_cases hd : (m'.map (·.1)).Nodup
  · have hlt : m'.Pairwise fun c d => c.1 < d.1 :=
      (hm'.and (List.pairwise_map.mp hd)).imp fun hcd => lt_of_le_of_ne hcd.1 hcd.2
    have hlt' : m.Pairwise fun c d => c.1 < d.1 := by
      obtain ⟨l, hperm, hl⟩ := hsub
      have hne : (m.map (·.1)).Nodup := (hperm.map _).nodup_iff.mp ((hl.map _).nodup hd)
      exact (hm.and (List.pairwise_map.mp hne)).imp fun hcd => lt_of_le_of_ne hcd.1 hcd.2
    have hanti : Std.Antisymm fun c d : ℝ × α => c.1 < d.1 :=
      ⟨fun c d hcd hdc => absurd hcd hdc.not_gt⟩
    have hlist : m.Sublist m' := List.sublist_of_subperm_of_pairwise hsub hlt' hlt
    rcases damped_sublist low [] hlist zero_le_one hm' h hn with
      hle | ⟨B, a, hB, haB, ha, hnot, hle⟩
    · exact .inl hle
    · exact .inr ⟨B, List.ne_nil_of_mem haB, fun b hb => hB.subset hb, hle, fun _ => ⟨a, haB, hnot⟩⟩
  · have hunit : ∀ c ∈ m', 0 ≤ c.1 ∧ c.1 ≤ 1 := fun c hc => ⟨(h c hc).1.le, (h c hc).2⟩
    rcases damped_le low [] zero_le_one hunit with hle | ⟨l1, l2, rfl, hne, hle⟩
    · refine .inl (hle.trans ?_)
      refine le_trans ?_ (mul_roots_le_damped low [] 1 fun c hc => (h c (hsub.subset hc)).1.le)
      exact mul_le_mul_of_nonneg_left (roots_subperm hsub hm hm' h) zero_le_one
    · rw [List.nil_append] at hle
      refine .inr ⟨l1.map (·.2), by simpa using hne, fun a ha => ?_, hle, fun h => absurd h hd⟩
      rw [List.map_append]
      exact List.mem_append_left _ ha

end StarCE
