import Mathlib

/-!
# Clusters of sets

Sets that share an element are drawn together: every set points up to another
one or to itself, the sets that point to nothing else are roots, and a root is
linked below another root when one of its sets shares an element with one of
the other's (`Clustered.link`). The sets with one root are then connected
(`Clustered.connected`); when no two sets that touch are left apart, the roots
are the connected components (`Clustered.root_eq_iff`). Where the sets and
their elements form a forest, two clusters share at most one element
(`Clustered.common_unique`).
-/

namespace StarCE

/-! ## Pointers up -/

section Pointers

variable {ι : Type} {f : ι → ι} {m n : ℕ}

/-- `m` steps up lead to a root. -/
def Settles (f : ι → ι) (m : ℕ) : Prop := ∀ i, f (f^[m] i) = f^[m] i

theorem Settles.iterate_eq (h : Settles f m) (hn : m ≤ n) (i : ι) : f^[n] i = f^[m] i := by
  obtain ⟨d, rfl⟩ := Nat.exists_eq_add_of_le' hn
  rw [Function.iterate_add_apply]
  exact Function.iterate_fixed (h i) d

theorem Settles.mono (h : Settles f m) (hn : m ≤ n) : Settles f n := fun i => by
  rw [h.iterate_eq hn, h]

theorem iterate_update [DecidableEq ι] {r1 r2 : ι} (h1 : f r1 = r1) (h2 : f r2 = r2)
    (hne : r1 ≠ r2) {i : ι} (hi : f (f^[n] i) = f^[n] i) :
    (Function.update f r2 r1)^[n + 1] i = if f^[n] i = r2 then r1 else f^[n] i := by
  have hfix : Function.update f r2 r1 r1 = r1 := by rw [Function.update_of_ne hne, h1]
  induction n generalizing i with
  | zero =>
    rw [Function.iterate_zero, id] at hi ⊢
    show Function.update f r2 r1 i = _
    rw [Function.update_apply, hi]
  | succ n ih =>
    rw [Function.iterate_succ_apply]
    by_cases hir : i = r2
    · rw [hir, Function.update_self, Function.iterate_fixed hfix, Function.iterate_fixed h2, if_pos rfl]
    · rw [Function.update_of_ne hir, Function.iterate_succ_apply]
      exact ih hi

/-- A root linked below another one. -/
theorem Settles.link [DecidableEq ι] (h : Settles f m) {r1 r2 : ι} (h1 : f r1 = r1) (h2 : f r2 = r2)
    (hne : r1 ≠ r2) : Settles (Function.update f r2 r1) (m + 1) := fun i => by
  rw [iterate_update h1 h2 hne (h i)]
  split
  · rw [Function.update_of_ne hne, h1]
  · next hi => rw [Function.update_of_ne hi, h i]

end Pointers

/-! ## Sets and their elements -/

section Clusters

variable {ι α : Type}

/-- The sets in `C`, each joined with its elements. -/
def incidence (T : ι → Set α) (C : Set ι) : SimpleGraph (ι ⊕ α) where
  Adj
    | .inl i, .inr a => i ∈ C ∧ a ∈ T i
    | .inr a, .inl i => i ∈ C ∧ a ∈ T i
    | _, _ => False
  symm := ⟨by rintro (i | a) (j | b) h <;> exact h⟩
  loopless := ⟨by rintro (i | a) h <;> exact h⟩

variable {T : ι → Set α} {C D : Set ι} {i j : ι} {a b : α}

theorem incidence_adj : (incidence T C).Adj (.inl i) (.inr a) ↔ i ∈ C ∧ a ∈ T i := Iff.rfl

theorem incidence_mono (h : C ⊆ D) : incidence T C ≤ incidence T D := by
  rintro (i | a) (j | b) hadj
  · exact hadj
  · exact ⟨h hadj.1, hadj.2⟩
  · exact ⟨h hadj.1, hadj.2⟩
  · exact hadj

theorem incidence_reachable (hi : i ∈ C) (ha : a ∈ T i) :
    (incidence T C).Reachable (.inl i) (.inr a) := (incidence_adj.mpr ⟨hi, ha⟩).reachable

/-- Elements are connected by sets in which they lie together. -/
theorem incidence_reachable_iff : (incidence T Set.univ).Reachable (.inr a) (.inr b) ↔
    Relation.ReflTransGen (fun x y => ∃ i, x ∈ T i ∧ y ∈ T i) a b := by
  constructor
  · intro hreach
    let Q : ι ⊕ α → Prop := Sum.elim
      (fun i => ∃ x ∈ T i, Relation.ReflTransGen (fun x y => ∃ i, x ∈ T i ∧ y ∈ T i) a x)
      (Relation.ReflTransGen (fun x y => ∃ i, x ∈ T i ∧ y ∈ T i) a)
    suffices hQ : ∀ v, (incidence T Set.univ).Reachable (.inr a) v → Q v from hQ _ hreach
    intro v hv
    rw [SimpleGraph.reachable_iff_reflTransGen] at hv
    induction hv with
    | refl => exact (.refl : Relation.ReflTransGen _ a a)
    | @tail u v _ hadj ih =>
      rcases u with i | x <;> rcases v with j | y
      · exact absurd hadj id
      · obtain ⟨x, hx, hax⟩ := ih
        exact Relation.ReflTransGen.tail hax ⟨i, hx, hadj.2⟩
      · exact ⟨x, hadj.2, ih⟩
      · exact absurd hadj id
  · intro h
    induction h with
    | refl => exact .refl _
    | tail _ hstep ih =>
      obtain ⟨i, hx, hy⟩ := hstep
      exact ih.trans ((incidence_reachable (Set.mem_univ i) hx).symm.trans
        (incidence_reachable (Set.mem_univ i) hy))

/-- A graph has no cycle if every vertex has at most one neighbour that is not above it. -/
theorem isAcyclic_of_rank {G : SimpleGraph ι} (rank : ι → ℕ)
    (h : ∀ v a b, G.Adj v a → G.Adj v b → rank a ≤ rank v → rank b ≤ rank v → a = b) :
    G.IsAcyclic := by
  intro u p hp
  classical
  have hne : p.support.toFinset.Nonempty := ⟨u, by simp⟩
  obtain ⟨v, hv, hmax⟩ := p.support.toFinset.exists_max_image rank hne
  rw [List.mem_toFinset] at hv
  -- the cycle from its highest vertex on
  have hq := SimpleGraph.Walk.IsCycle.rotate hv hp
  have hle : ∀ w ∈ (p.rotate v hv).support, rank w ≤ rank v := fun w hw =>
    hmax w (List.mem_toFinset.mpr ((SimpleGraph.Walk.mem_support_rotate_iff p v hv).mp hw))
  exact hq.snd_ne_penultimate (h v _ _ (SimpleGraph.Walk.adj_snd hq.not_nil)
    (SimpleGraph.Walk.adj_penultimate hq.not_nil).symm (hle _ (SimpleGraph.Walk.getVert_mem_support _ _))
    (hle _ (SimpleGraph.Walk.getVert_mem_support _ _)))

/-- Every edge is at its set. -/
theorem exists_of_mem_edgeSet {e : Sym2 (ι ⊕ α)} (h : e ∈ (incidence T C).edgeSet) :
    ∃ i ∈ C, Sum.inl i ∈ e := by
  induction e using Sym2.ind with
  | _ u v =>
    rcases u with i | a <;> rcases v with j | b
    · exact absurd h id
    · exact ⟨i, h.1, Sym2.mem_mk_left _ _⟩
    · exact ⟨j, h.1, Sym2.mem_mk_right _ _⟩
    · exact absurd h id

theorem eq_of_inl_mem {e : Sym2 (ι ⊕ α)} (h : e ∈ (incidence T C).edgeSet) (hi : Sum.inl i ∈ e)
    (hj : Sum.inl j ∈ e) : i = j := by
  induction e using Sym2.ind with
  | _ u v =>
    rcases u with k | a <;> rcases v with l | b
    · exact absurd h id
    · simp only [Sym2.mem_iff, Sum.inl.injEq, reduceCtorEq, or_false] at hi hj
      rw [hi, hj]
    · simp only [Sym2.mem_iff, Sum.inl.injEq, reduceCtorEq, false_or] at hi hj
      rw [hi, hj]
    · exact absurd h id

/-- In a forest two elements are joined by sets of one kind only. -/
theorem eq_of_reachable_disjoint (hT : (incidence T Set.univ).IsAcyclic) (hCD : Disjoint C D)
    {u v : ι ⊕ α} (hC : (incidence T C).Reachable u v) (hD : (incidence T D).Reachable u v) :
    u = v := by
  obtain ⟨p, hp⟩ := hC.exists_isPath
  obtain ⟨q, hq⟩ := hD.exists_isPath
  have hCle : incidence T C ≤ incidence T Set.univ := incidence_mono (Set.subset_univ C)
  have hDle : incidence T D ≤ incidence T Set.univ := incidence_mono (Set.subset_univ D)
  have hsub := hT.subsingleton_path u v
  have heq : (⟨p.mapLe hCle, hp.mapLe hCle⟩ : (incidence T Set.univ).Path u v) =
      ⟨q.mapLe hDle, hq.mapLe hDle⟩ := Subsingleton.elim _ _
  have hedges : p.edges = q.edges := by
    have hmap := congrArg (fun r => r.1.edges) heq
    rwa [SimpleGraph.Walk.edges_mapLe_eq_edges, SimpleGraph.Walk.edges_mapLe_eq_edges] at hmap
  cases hpe : p.edges with
  | nil =>
    have hnil : p.Nil := SimpleGraph.Walk.edges_eq_nil.mp hpe
    exact hnil.eq
  | cons e l =>
    have hep : e ∈ p.edges := hpe ▸ List.mem_cons_self
    have he1 := p.edges_subset_edgeSet hep
    have he2 := q.edges_subset_edgeSet (hedges ▸ hep)
    obtain ⟨i, hi, hie⟩ := exists_of_mem_edgeSet he1
    obtain ⟨j, hj, hje⟩ := exists_of_mem_edgeSet he2
    obtain rfl := eq_of_inl_mem he1 hie hje
    exact absurd hj (Set.disjoint_left.mp hCD hi)

/-! ## Clusters -/

/-- The sets with the root of `i`. -/
def cluster (root : ι → ι) (i : ι) : Set ι := {k | root k = root i}

/-- `S` has grown from the sets `T`: a root holds what the sets below it hold. -/
structure Clustered (T : ι → Set α) (root : ι → ι) (S : ι → Set α) : Prop where
  root_root : ∀ i, root (root i) = root i
  low : ∀ i, T i ⊆ S i
  gathered : ∀ i, T i ⊆ S (root i)
  high : ∀ i, ∀ a ∈ S i, ∃ k ∈ cluster root i, a ∈ T k
  connected : ∀ i, ∀ j ∈ cluster root i, (incidence T (cluster root i)).Reachable (.inl i) (.inl j)

variable {root : ι → ι} {S : ι → Set α}

theorem clustered_init (T : ι → Set α) : Clustered T id T where
  root_root _ := rfl
  low _ := subset_rfl
  gathered _ := subset_rfl
  high i a ha := ⟨i, rfl, ha⟩
  connected i j hj := by rw [show j = i from hj]

namespace Clustered

theorem mem_root (h : Clustered T root S) : a ∈ S (root i) ↔ ∃ k ∈ cluster root i, a ∈ T k := by
  constructor
  · intro ha
    obtain ⟨k, hk, hak⟩ := h.high _ a ha
    exact ⟨k, (hk : root k = root (root i)).trans (h.root_root i), hak⟩
  · rintro ⟨k, hk, hak⟩
    have hroot : root k = root i := hk
    exact hroot ▸ h.gathered k hak

/-- Two elements of a cluster are connected within it. -/
theorem reachable (h : Clustered T root S) {k l : ι} (hk : k ∈ cluster root i) (hl : l ∈ cluster root i)
    (ha : a ∈ T k) (hb : b ∈ T l) :
    (incidence T (cluster root i)).Reachable (.inr a) (.inr b) :=
  (incidence_reachable hk ha).symm.trans
    (((h.connected i k hk).symm.trans (h.connected i l hl)).trans (incidence_reachable hl hb))

/-- Two clusters of a forest share at most one element. -/
theorem common_unique (h : Clustered T root S) (hT : (incidence T Set.univ).IsAcyclic)
    (hne : root i ≠ root j) (hai : a ∈ S (root i)) (haj : a ∈ S (root j)) (hbi : b ∈ S (root i))
    (hbj : b ∈ S (root j)) : a = b := by
  obtain ⟨k, hk, hak⟩ := h.mem_root.mp hai
  obtain ⟨l, hl, hbl⟩ := h.mem_root.mp hbi
  obtain ⟨k', hk', hak'⟩ := h.mem_root.mp haj
  obtain ⟨l', hl', hbl'⟩ := h.mem_root.mp hbj
  have hdisj : Disjoint (cluster root i) (cluster root j) :=
    Set.disjoint_left.mpr fun x hxi hxj => hne ((hxi : root x = root i).symm.trans hxj)
  exact Sum.inr_injective (eq_of_reachable_disjoint hT hdisj (h.reachable hk hl hak hbl)
    (h.reachable hk' hl' hak' hbl'))

/-! ## A link -/

/-- The roots after `r2` is linked below `r1`. -/
def linkRoot [DecidableEq ι] (root : ι → ι) (r1 r2 : ι) (k : ι) : ι :=
  if root k = r2 then r1 else root k

variable [DecidableEq ι]

theorem cluster_link_left {r1 r2 k : ι} (h1 : root r1 = r1) (hk : root k = r1 ∨ root k = r2) :
    cluster (linkRoot root r1 r2) k = cluster root r1 ∪ {l | root l = r2} := by
  have hkr : linkRoot root r1 r2 k = r1 := by
    rw [linkRoot]
    split
    · rfl
    · next hn => exact hk.resolve_right hn
  ext l
  show linkRoot root r1 r2 l = linkRoot root r1 r2 k ↔ root l = root r1 ∨ root l = r2
  rw [hkr, h1, linkRoot]
  split
  · next hl => simp [hl]
  · next hl => simp [hl]

theorem cluster_link_other {r1 r2 k : ι} (h1 : root k ≠ r1) (h2 : root k ≠ r2) :
    cluster (linkRoot root r1 r2) k = cluster root k := by
  ext l
  show linkRoot root r1 r2 l = linkRoot root r1 r2 k ↔ root l = root k
  rw [linkRoot, linkRoot, if_neg h2]
  split
  · next hl =>
    rw [hl]
    exact ⟨fun h => absurd h.symm h1, fun h => absurd h.symm h2⟩
  · exact Iff.rfl

theorem link (h : Clustered T root S) (hne : root i ≠ root j) (hai : a ∈ S i) (haj : a ∈ S j) :
    Clustered T (linkRoot root (root i) (root j))
      (Function.update S (root i) (S (root i) ∪ S (root j))) := by
  set r1 := root i with hr1
  set r2 := root j with hr2
  have h1 : root r1 = r1 := h.root_root i
  have h2 : root r2 = r2 := h.root_root j
  obtain ⟨k1, hk1, hak1⟩ := h.high i a hai
  obtain ⟨k2, hk2, hak2⟩ := h.high j a haj
  have hk1 : root k1 = r1 := hk1
  have hk2 : root k2 = r2 := hk2
  have hupd : ∀ k, S k ⊆ Function.update S r1 (S r1 ∪ S r2) k := fun k => by
    rw [Function.update_apply]
    split
    · next hk => rw [hk]; exact Set.subset_union_left
    · exact subset_rfl
  have hmono : ∀ k, cluster root k ⊆ cluster (linkRoot root r1 r2) k := fun k l hl => by
    show linkRoot root r1 r2 l = linkRoot root r1 r2 k
    rw [linkRoot, linkRoot, show root l = root k from hl]
  constructor
  · intro k
    by_cases hk : root k = r2
    · have hlink : linkRoot root r1 r2 k = r1 := if_pos hk
      rw [hlink, linkRoot, h1, if_neg hne]
    · have hlink : linkRoot root r1 r2 k = root k := if_neg hk
      rw [hlink, linkRoot, h.root_root, if_neg hk]
  · exact fun k => (h.low k).trans (hupd k)
  · intro k
    rw [linkRoot]
    split
    · next hk =>
      rw [Function.update_self]
      exact ((h.gathered k).trans (hk ▸ subset_rfl)).trans Set.subset_union_right
    · exact (h.gathered k).trans (hupd _)
  · intro k x hx
    rw [Function.update_apply] at hx
    split at hx
    · next hk =>
      rw [hk, cluster_link_left h1 (.inl h1)]
      rcases hx with hx | hx
      · obtain ⟨l, hl, hxl⟩ := h.high r1 x hx
        exact ⟨l, .inl hl, hxl⟩
      · obtain ⟨l, hl, hxl⟩ := h.high r2 x hx
        exact ⟨l, .inr ((show root l = root r2 from hl).trans h2), hxl⟩
    · obtain ⟨l, hl, hxl⟩ := h.high k x hx
      exact ⟨l, hmono k hl, hxl⟩
  · intro k l hl
    by_cases hk : root k = r1 ∨ root k = r2
    · rw [cluster_link_left h1 hk] at hl ⊢
      -- every set of the new cluster is connected with the shared element
      have hmeet : ∀ x, x ∈ cluster root r1 ∪ {l | root l = r2} →
          (incidence T (cluster root r1 ∪ {l | root l = r2})).Reachable (.inl x) (.inr a) := by
        intro x hx
        rcases hx with hx | hx
        · have hx : root x = root r1 := hx
          have hsame : cluster root x = cluster root r1 := by
            ext y
            show root y = root x ↔ root y = root r1
            rw [hx]
          have hk1x : k1 ∈ cluster root x := hk1.trans (h1.symm.trans hx.symm)
          refine (((h.connected x k1 hk1x).trans (incidence_reachable hk1x hak1)).mono
            (incidence_mono ?_))
          rw [hsame]
          exact Set.subset_union_left
        · have hx : root x = r2 := hx
          have hk2x : k2 ∈ cluster root x := hk2.trans hx.symm
          refine (((h.connected x k2 hk2x).trans (incidence_reachable hk2x hak2)).mono
            (incidence_mono fun y hy => ?_))
          exact .inr ((show root y = root x from hy).trans hx)
      have hkin : k ∈ cluster root r1 ∪ {l | root l = r2} := hk.imp (fun hk => hk.trans h1.symm) id
      exact (hmeet k hkin).trans (hmeet l hl).symm
    · rw [not_or] at hk
      rw [cluster_link_other hk.1 hk.2] at hl ⊢
      exact h.connected k l hl

end Clustered

/-! ## Components -/

/-- Nothing that touches is left apart: the roots are the connected components. -/
theorem Clustered.root_eq_iff (h : Clustered T root S)
    (hall : ∀ i j, (T i ∩ T j).Nonempty → root i = root j) :
    root i = root j ↔ (incidence T Set.univ).Reachable (.inl i) (.inl j) := by
  constructor
  · intro hij
    exact (h.connected i j hij.symm).mono (incidence_mono (Set.subset_univ _))
  · intro hreach
    -- along a walk the sets, and the sets around the elements, keep their root
    let Q : ι ⊕ α → Prop := Sum.elim (fun k => root i = root k) fun a => ∀ k, a ∈ T k → root i = root k
    suffices hQ : ∀ v, (incidence T Set.univ).Reachable (.inl i) v → Q v from hQ _ hreach
    intro v hv
    rw [SimpleGraph.reachable_iff_reflTransGen] at hv
    induction hv with
    | refl => exact (rfl : root i = root i)
    | @tail u v _ hadj ih =>
      rcases u with k | x <;> rcases v with l | y
      · exact absurd hadj id
      · intro l hl
        exact (show root i = root k from ih).trans (hall k l ⟨y, hadj.2, hl⟩)
      · exact ih l hadj.2
      · exact absurd hadj id

end Clusters

end StarCE
