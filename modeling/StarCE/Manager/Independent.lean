import StarCE.Manager.Components
import StarCE.Manager.TwoStars
import StarCE.Manager.Uniform

/-!
# Independent parts of a query

Relations that no join class connects do not meet in the estimate: the loop
over all classes does for each part what the loop over the classes of the part
alone does (`Sees`), and the estimate is the product of the estimates of the
parts (`estimateCardinality_parts`).
-/

namespace StarCE

variable {K : Type} [Field K] [LinearOrder K] [FloorRing K]

namespace StatisticManager

variable {sm : StatisticManager K} {A A1 A2 : List AttrEset} {s s' s1 s1' s2 : MergeLoop K}
  {links links1 m : ℕ} {l l1 : List (ℕ × ℕ)} {i j k : ℕ} {e : ℕ → ℕ}

/-! ## A loop seen through some of its classes -/

/-- The classes `e 0`, …, `e (m - 1)` of `s` are those of `s1`. -/
structure Sees (e : ℕ → ℕ) (m : ℕ) (s s1 : MergeLoop K) : Prop where
  up : ∀ k < m, s1.up k < m ∧ s.up (e k) = e (s1.up k)
  sets : ∀ k < m, s.attrEsets.getD (e k) ∅ = s1.attrEsets.getD k ∅
  stats : ∀ k < m, s.dsStats.getD (e k) default = s1.dsStats.getD k default

theorem getD_set {α : Type} (l : List α) {i : ℕ} (hi : i < l.length) (x d : α) (k : ℕ) :
    (l.set i x).getD k d = if k = i then x else l.getD k d := by
  rw [List.getD_eq_getElem?_getD, List.getElem?_set, List.getD_eq_getElem?_getD]
  by_cases hk : k = i
  · rw [if_pos hk, if_pos hk.symm, if_pos hi]
    rfl
  · rw [if_neg hk, if_neg (Ne.symm hk)]

namespace Sees

section

omit [LinearOrder K] [FloorRing K]

theorem iterate (h : Sees e m s s1) (hk : k < m) (n : ℕ) :
    s1.up^[n] k < m ∧ s.up^[n] (e k) = e (s1.up^[n] k) := by
  induction n with
  | zero => exact ⟨hk, rfl⟩
  | succ n ih =>
    rw [Function.iterate_succ_apply', Function.iterate_succ_apply', ih.2]
    exact h.up _ ih.1

theorem root (h : Sees e m s s1) (hs : Looping A l links s) (hs1 : Looping A1 l1 links1 s1) (hk : k < m) :
    s1.root k < m ∧ s.root (e k) = e (s1.root k) := by
  have hit := h.iterate hk (links + links1)
  rw [hs.settles.iterate_eq (Nat.le_add_right _ _), hs1.settles.iterate_eq (Nat.le_add_left _ _),
    ← hs.root_links, ← hs1.root_links] at hit
  exact hit

/-- Two classes that are seen are linked. -/
theorem link (h : Sees e m s s1) (he : Set.InjOn e {k | k < m}) (hs : Looping A l links s)
    (hs1 : Looping A1 l1 links1 s1) (hm : A1.length = m) {r1 r2 : ℕ} (h1 : r1 < m) (h2 : r2 < m)
    (hr1 : e r1 < A.length) (hr2 : e r2 < A.length) (merged other : DSStatistic K) :
    Sees e m (s.link (e r1) (e r2) merged other) (s1.link r1 r2 merged other) := by
  have heq : ∀ {k r}, k < m → r < m → (e k = e r ↔ k = r) := fun hk hr =>
    ⟨fun hkr => he hk hr hkr, fun hkr => hkr ▸ rfl⟩
  constructor
  · intro k hk
    rw [Looping.up_link (by rw [hs1.length_parent, hm]; exact h2),
      Looping.up_link (by rw [hs.length_parent]; exact hr2), Function.update_apply,
      Function.update_apply]
    by_cases hkr : k = r2
    · rw [if_pos hkr, if_pos (hkr ▸ rfl)]
      exact ⟨h1, rfl⟩
    · rw [if_neg hkr, if_neg (fun h => hkr ((heq hk h2).mp h))]
      exact h.up k hk
  · intro k hk
    show (s.attrEsets.set _ _).getD _ _ = (s1.attrEsets.set _ _).getD _ _
    rw [getD_set _ (hs.length_sets ▸ hr1), getD_set _ (hs1.length_sets ▸ hm ▸ h1), h.sets r1 h1,
      h.sets r2 h2, h.sets k hk]
    simp only [heq hk h1]
  · intro k hk
    show ((s.dsStats.set _ _).set _ _).getD _ _ = ((s1.dsStats.set _ _).set _ _).getD _ _
    rw [getD_set _ (by rw [List.length_set, hs.length_stats]; exact hr1),
      getD_set _ (hs.length_stats ▸ hr2), getD_set _ (by rw [List.length_set, hs1.length_stats, hm]; exact h1),
      getD_set _ (hs1.length_stats ▸ hm ▸ h2), h.stats k hk]
    simp only [heq hk h1, heq hk h2]

/-- A link of classes that are not seen. -/
theorem link_other (h : Sees e m s s1) (hs : Looping A l links s) {r1 r2 : ℕ}
    (hr1 : r1 < A.length) (hr2 : r2 < A.length) (h1 : ∀ k < m, e k ≠ r1) (h2 : ∀ k < m, e k ≠ r2)
    (merged other : DSStatistic K) : Sees e m (s.link r1 r2 merged other) s1 := by
  constructor
  · intro k hk
    rw [Looping.up_link (hs.length_parent ▸ hr2), Function.update_of_ne (h2 k hk)]
    exact h.up k hk
  · intro k hk
    show (s.attrEsets.set _ _).getD _ _ = _
    rw [getD_set _ (hs.length_sets ▸ hr1), if_neg (h1 k hk)]
    exact h.sets k hk
  · intro k hk
    show ((s.dsStats.set _ _).set _ _).getD _ _ = _
    rw [getD_set _ (by rw [List.length_set, hs.length_stats]; exact hr1),
      getD_set _ (hs.length_stats ▸ hr2), if_neg (h1 k hk), if_neg (h2 k hk)]
    exact h.stats k hk

end

end Sees

/-! ## Two parts -/

variable {e1 e2 : ℕ → ℕ}

/-- The classes `A` are `A1` and `A2` interleaved, which share no relation. -/
structure Splits (A : List AttrEset) (e1 : ℕ → ℕ) (A1 : List AttrEset) (e2 : ℕ → ℕ)
    (A2 : List AttrEset) : Prop where
  inj1 : Set.InjOn e1 {k | k < A1.length}
  inj2 : Set.InjOn e2 {k | k < A2.length}
  lt1 : ∀ k < A1.length, e1 k < A.length
  lt2 : ∀ k < A2.length, e2 k < A.length
  ne : ∀ k1 < A1.length, ∀ k2 < A2.length, e1 k1 ≠ e2 k2
  apart : ∀ k1 k2, Disjoint (relsAt A1 k1) (relsAt A2 k2)

theorem Splits.symm (h : Splits A e1 A1 e2 A2) : Splits A e2 A2 e1 A1 :=
  ⟨h.inj2, h.inj1, h.lt2, h.lt1, fun k1 h1 k2 h2 => (h.ne k2 h2 k1 h1).symm, fun k1 k2 => (h.apart k2 k1).symm⟩

/-- A loop over `A` beside the loops over its parts. -/
structure Both (A : List AttrEset) (e1 : ℕ → ℕ) (A1 : List AttrEset) (e2 : ℕ → ℕ)
    (A2 : List AttrEset) (s s1 s2 : MergeLoop K) : Prop where
  whole : ∃ l links, Looping A l links s
  part1 : ∃ l links, Looping A1 l links s1
  part2 : ∃ l links, Looping A2 l links s2
  sees1 : Sees e1 A1.length s s1
  sees2 : Sees e2 A2.length s s2

namespace Both

omit [LinearOrder K] [FloorRing K] in
theorem symm (h : Both A e1 A1 e2 A2 s s1 s2) : Both A e2 A2 e1 A1 s s2 s1 :=
  ⟨h.whole, h.part2, h.part1, h.sees2, h.sees1⟩

variable (hA : Splits A e1 A1 e2 A2) (h : Both A e1 A1 e2 A2 s s1 s2)

include hA h

section

omit [LinearOrder K] [FloorRing K]

/-- A link in the first part. -/
theorem link {l' l1' : List (ℕ × ℕ)} {links' links1' : ℕ} (hi : i < A1.length) (hj : j < A1.length)
    (merged other : DSStatistic K)
    (hs' : Looping A l' links' (s.link (s.root (e1 i)) (s.root (e1 j)) merged other))
    (hs1' : Looping A1 l1' links1' (s1.link (s1.root i) (s1.root j) merged other)) :
    Both A e1 A1 e2 A2 (s.link (s.root (e1 i)) (s.root (e1 j)) merged other)
      (s1.link (s1.root i) (s1.root j) merged other) s2 := by
  obtain ⟨l, links, hs⟩ := h.whole
  obtain ⟨l1, links1, hs1⟩ := h.part1
  obtain ⟨hri, hei⟩ := h.sees1.root hs hs1 hi
  obtain ⟨hrj, hej⟩ := h.sees1.root hs hs1 hj
  rw [hei, hej] at hs' ⊢
  refine ⟨⟨_, _, hs'⟩, ⟨_, _, hs1'⟩, h.part2, ?_, ?_⟩
  · exact h.sees1.link hA.inj1 hs hs1 rfl hri hrj (hA.lt1 _ hri) (hA.lt1 _ hrj) merged other
  · exact h.sees2.link_other hs (hA.lt1 _ hri) (hA.lt1 _ hrj) (fun k hk => (hA.ne _ hri k hk).symm)
      (fun k hk => (hA.ne _ hrj k hk).symm) merged other

/-- What the body reads of a pair in the first part. -/
theorem reads (hi : i < A1.length) (hj : j < A1.length) :
    canMerge (s.attrEsets.getD (e1 i) ∅) (s.attrEsets.getD (e1 j) ∅) =
        canMerge (s1.attrEsets.getD i ∅) (s1.attrEsets.getD j ∅) ∧
      (s.root (e1 i) = s.root (e1 j) ↔ s1.root i = s1.root j) ∧
      ∀ k < A1.length, s.dsStats.getD (s.root (e1 k)) default = s1.dsStats.getD (s1.root k) default ∧
        s.attrEsets.getD (s.root (e1 k)) ∅ = s1.attrEsets.getD (s1.root k) ∅ := by
  obtain ⟨l, links, hs⟩ := h.whole
  obtain ⟨l1, links1, hs1⟩ := h.part1
  refine ⟨by rw [h.sees1.sets i hi, h.sees1.sets j hj], ?_, fun k hk => ?_⟩
  · obtain ⟨hri, hei⟩ := h.sees1.root hs hs1 hi
    obtain ⟨hrj, hej⟩ := h.sees1.root hs hs1 hj
    rw [hei, hej]
    exact ⟨fun heq => hA.inj1 hri hrj heq, fun heq => heq ▸ rfl⟩
  · obtain ⟨hrk, hek⟩ := h.sees1.root hs hs1 hk
    rw [hek, h.sees1.stats _ hrk, h.sees1.sets _ hrk]
    exact ⟨rfl, rfl⟩

end

theorem step (hi : i < A1.length) (hj : j < A1.length) (hok : sm.mergePair s (e1 i, e1 j) = .ok s') :
    ∃ s1', sm.mergePair s1 (i, j) = .ok s1' ∧ Both A e1 A1 e2 A2 s' s1' s2 := by
  obtain ⟨hcan, hroot, hget⟩ := h.reads hA hi hj
  obtain ⟨l, links, hs⟩ := h.whole
  obtain ⟨l1, links1, hs1⟩ := h.part1
  obtain ⟨links', hs'⟩ := hs.step hok
  rcases mergePair_eq_ok.mp hok with ⟨hkeep, rfl⟩ | ⟨hmeet, hne, merged, other, hmerge, rfl⟩
  · rw [hcan, hroot] at hkeep
    exact ⟨s1, mergePair_eq_ok.mpr (.inl ⟨hkeep, rfl⟩), h⟩
  · rw [hcan] at hmeet
    rw [Ne, hroot] at hne
    rw [(hget i hi).1, (hget i hi).2, (hget j hj).1, (hget j hj).2] at hmerge
    have hok1 : sm.mergePair s1 (i, j) = .ok (s1.link (s1.root i) (s1.root j) merged other) :=
      mergePair_eq_ok.mpr (.inr ⟨hmeet, hne, merged, other, hmerge, rfl⟩)
    obtain ⟨links1', hs1'⟩ := hs1.step hok1
    exact ⟨_, hok1, h.link hA hi hj merged other hs' hs1'⟩

theorem step_back (hi : i < A1.length) (hj : j < A1.length) (hok : sm.mergePair s1 (i, j) = .ok s1') :
    ∃ s', sm.mergePair s (e1 i, e1 j) = .ok s' ∧ Both A e1 A1 e2 A2 s' s1' s2 := by
  obtain ⟨hcan, hroot, hget⟩ := h.reads hA hi hj
  obtain ⟨l, links, hs⟩ := h.whole
  obtain ⟨l1, links1, hs1⟩ := h.part1
  obtain ⟨links1', hs1'⟩ := hs1.step hok
  rcases mergePair_eq_ok.mp hok with ⟨hkeep, rfl⟩ | ⟨hmeet, hne, merged, other, hmerge, rfl⟩
  · rw [← hcan, ← hroot] at hkeep
    exact ⟨s, mergePair_eq_ok.mpr (.inl ⟨hkeep, rfl⟩), h⟩
  · rw [← hcan] at hmeet
    rw [Ne, ← hroot] at hne
    rw [← (hget i hi).1, ← (hget i hi).2, ← (hget j hj).1, ← (hget j hj).2] at hmerge
    have hok' : sm.mergePair s (e1 i, e1 j) = .ok (s.link (s.root (e1 i)) (s.root (e1 j)) merged other) :=
      mergePair_eq_ok.mpr (.inr ⟨hmeet, hne, merged, other, hmerge, rfl⟩)
    obtain ⟨links', hs'⟩ := hs.step hok'
    exact ⟨_, hok', h.link hA hi hj merged other hs' hs1'⟩

omit [LinearOrder K] [FloorRing K] in
/-- Classes of different parts have nothing to merge at. -/
theorem cross (hi : i < A1.length) (hj : j < A2.length) :
    canMerge (s.attrEsets.getD (e1 i) ∅) (s.attrEsets.getD (e2 j) ∅) = false := by
  obtain ⟨l1, links1, hs1⟩ := h.part1
  obtain ⟨l2, links2, hs2⟩ := h.part2
  rw [h.sees1.sets i hi, h.sees2.sets j hj, ← Bool.not_eq_true, canMerge_iff]
  rintro ⟨rel, hrel1, hrel2⟩
  obtain ⟨k1, -, hk1⟩ := hs1.clustered.high i rel hrel1
  obtain ⟨k2, -, hk2⟩ := hs2.clustered.high j rel hrel2
  exact Set.disjoint_left.mp (hA.apart k1 k2) hk1 hk2

end Both

/-- The pairs of a loop, each in one of the parts or across. -/
inductive Interleaved (e1 : ℕ → ℕ) (m1 : ℕ) (e2 : ℕ → ℕ) (m2 : ℕ) :
    List (ℕ × ℕ) → List (ℕ × ℕ) → List (ℕ × ℕ) → Prop
  | nil : Interleaved e1 m1 e2 m2 [] [] []
  | left {i j : ℕ} {l l1 l2 : List (ℕ × ℕ)} (hi : i < m1) (hj : j < m1)
      (h : Interleaved e1 m1 e2 m2 l l1 l2) :
      Interleaved e1 m1 e2 m2 ((e1 i, e1 j) :: l) ((i, j) :: l1) l2
  | right {i j : ℕ} {l l1 l2 : List (ℕ × ℕ)} (hi : i < m2) (hj : j < m2)
      (h : Interleaved e1 m1 e2 m2 l l1 l2) :
      Interleaved e1 m1 e2 m2 ((e2 i, e2 j) :: l) l1 ((i, j) :: l2)
  | across {i j : ℕ} {p : ℕ × ℕ} {l l1 l2 : List (ℕ × ℕ)} (hi : i < m1) (hj : j < m2)
      (hp : p = (e1 i, e2 j) ∨ p = (e2 j, e1 i)) (h : Interleaved e1 m1 e2 m2 l l1 l2) :
      Interleaved e1 m1 e2 m2 (p :: l) l1 l2

theorem canMerge_comm (B C : AttrEset) : canMerge B C = canMerge C B := by
  rw [Bool.eq_iff_iff, canMerge_iff, canMerge_iff]
  exact exists_congr fun rel => and_comm

theorem Both.across (hA : Splits A e1 A1 e2 A2) (h : Both A e1 A1 e2 A2 s s1 s2) (hi : i < A1.length)
    (hj : j < A2.length) {p : ℕ × ℕ} (hp : p = (e1 i, e2 j) ∨ p = (e2 j, e1 i)) :
    sm.mergePair s p = .ok s := by
  have hcross := h.cross hA hi hj
  rcases hp with rfl | rfl
  · exact mergePair_eq_ok.mpr (.inl ⟨fun hcan => absurd (hcross.symm.trans hcan) Bool.false_ne_true, rfl⟩)
  · rw [canMerge_comm] at hcross
    exact mergePair_eq_ok.mpr (.inl ⟨fun hcan => absurd (hcross.symm.trans hcan) Bool.false_ne_true, rfl⟩)

variable {l2 : List (ℕ × ℕ)} {s2' : MergeLoop K}

theorem Both.run (hA : Splits A e1 A1 e2 A2)
    (hl : Interleaved e1 A1.length e2 A2.length l l1 l2) (h : Both A e1 A1 e2 A2 s s1 s2)
    (hok : l.foldlM sm.mergePair s = .ok s') :
    ∃ s1' s2', l1.foldlM sm.mergePair s1 = .ok s1' ∧ l2.foldlM sm.mergePair s2 = .ok s2' ∧
      Both A e1 A1 e2 A2 s' s1' s2' := by
  induction hl generalizing s s1 s2 with
  | nil =>
    obtain rfl := Except.ok.inj hok
    exact ⟨s1, s2, rfl, rfl, h⟩
  | left hi hj _ ih =>
    rw [List.foldlM_cons] at hok
    obtain ⟨c, hc, hok⟩ := bind_eq_ok.mp hok
    obtain ⟨c1, hc1, hboth⟩ := h.step hA hi hj hc
    obtain ⟨s1', s2', h1, h2, h'⟩ := ih hboth hok
    refine ⟨s1', s2', ?_, h2, h'⟩
    rw [List.foldlM_cons, hc1]
    exact h1
  | right hi hj _ ih =>
    rw [List.foldlM_cons] at hok
    obtain ⟨c, hc, hok⟩ := bind_eq_ok.mp hok
    obtain ⟨c2, hc2, hboth⟩ := h.symm.step hA.symm hi hj hc
    obtain ⟨s1', s2', h1, h2, h'⟩ := ih hboth.symm hok
    refine ⟨s1', s2', h1, ?_, h'⟩
    rw [List.foldlM_cons, hc2]
    exact h2
  | across hi hj hp _ ih =>
    rw [List.foldlM_cons, h.across hA hi hj hp] at hok
    exact ih h hok

theorem Both.run_back (hA : Splits A e1 A1 e2 A2)
    (hl : Interleaved e1 A1.length e2 A2.length l l1 l2) (h : Both A e1 A1 e2 A2 s s1 s2)
    (h1 : l1.foldlM sm.mergePair s1 = .ok s1') (h2 : l2.foldlM sm.mergePair s2 = .ok s2') :
    ∃ s', l.foldlM sm.mergePair s = .ok s' ∧ Both A e1 A1 e2 A2 s' s1' s2' := by
  induction hl generalizing s s1 s2 with
  | nil =>
    obtain rfl := Except.ok.inj h1
    obtain rfl := Except.ok.inj h2
    exact ⟨s, rfl, h⟩
  | left hi hj _ ih =>
    rw [List.foldlM_cons] at h1
    obtain ⟨c1, hc1, h1⟩ := bind_eq_ok.mp h1
    obtain ⟨c, hc, hboth⟩ := h.step_back hA hi hj hc1
    obtain ⟨s', hs', h'⟩ := ih hboth h1 h2
    refine ⟨s', ?_, h'⟩
    rw [List.foldlM_cons, hc]
    exact hs'
  | right hi hj _ ih =>
    rw [List.foldlM_cons] at h2
    obtain ⟨c2, hc2, h2⟩ := bind_eq_ok.mp h2
    obtain ⟨c, hc, hboth⟩ := h.symm.step_back hA.symm hi hj hc2
    obtain ⟨s', hs', h'⟩ := ih hboth.symm h1 h2
    refine ⟨s', ?_, h'⟩
    rw [List.foldlM_cons, hc]
    exact hs'
  | across hi hj hp _ ih =>
    obtain ⟨s', hs', h'⟩ := ih h h1 h2
    refine ⟨s', ?_, h'⟩
    rw [List.foldlM_cons, h.across hA hi hj hp]
    exact hs'

/-! ## The positions of a part -/

section Positions

variable {q : AttrEset → Bool} {n : ℕ}

/-- The pairs of a list, the earlier element first. -/
def pairsOf : List ℕ → List (ℕ × ℕ)
  | [] => []
  | i :: l => l.map (i, ·) ++ pairsOf l

theorem classPairs_eq (n : ℕ) : classPairs n = pairsOf (List.range n) := by
  suffices h : ∀ l : List ℕ, l.Pairwise (· < ·) →
      l.flatMap (fun i => (l.filter (i < ·)).map (i, ·)) = pairsOf l from h _ List.pairwise_lt_range
  intro l hl
  induction l with
  | nil => rfl
  | cons a l ih =>
    obtain ⟨ha, hl⟩ := List.pairwise_cons.mp hl
    have hhead : (a :: l).filter (a < ·) = l := by
      rw [List.filter_cons_of_neg (by simp)]
      exact List.filter_eq_self.mpr fun b hb => by simpa using ha b hb
    have htail : l.flatMap (fun i => ((a :: l).filter (i < ·)).map (i, ·)) =
        l.flatMap fun i => (l.filter (i < ·)).map (i, ·) := by
      refine List.flatMap_congr fun i hi => ?_
      rw [List.filter_cons_of_neg (by simpa using (ha i hi).le)]
    rw [List.flatMap_cons, hhead, htail, ih hl]
    rfl

theorem pairsOf_map (f : ℕ → ℕ) (l : List ℕ) : pairsOf (l.map f) = (pairsOf l).map (Prod.map f f) := by
  induction l with
  | nil => rfl
  | cons i l ih =>
    rw [List.map_cons, pairsOf, pairsOf, ih, List.map_append, List.map_map, List.map_map]
    rfl

theorem filter_pairsOf (Q : ℕ → Bool) (l : List ℕ) :
    (pairsOf l).filter (fun p => Q p.1 && Q p.2) = pairsOf (l.filter Q) := by
  induction l with
  | nil => rfl
  | cons i l ih =>
    rw [pairsOf, List.filter_append, ih, List.filter_map]
    by_cases hi : Q i = true
    · have hrow : l.filter ((fun p : ℕ × ℕ => Q p.1 && Q p.2) ∘ (i, ·)) = l.filter Q :=
        List.filter_congr fun j _ => by simp [hi]
      rw [hrow, List.filter_cons_of_pos hi, pairsOf]
    · have hrow : l.filter ((fun p : ℕ × ℕ => Q p.1 && Q p.2) ∘ (i, ·)) = [] :=
        List.filter_eq_nil_iff.mpr fun j _ => by simp [hi]
      rw [hrow, List.filter_cons_of_neg hi, List.map_nil, List.nil_append]

/-- The positions at which `Q` holds. -/
def positions (Q : ℕ → Bool) (n : ℕ) : List ℕ := (List.range n).filter Q

variable {Q : ℕ → Bool}

theorem mem_positions : i ∈ positions Q n ↔ i < n ∧ Q i = true := by
  rw [positions, List.mem_filter, List.mem_range]

theorem nodup_positions : (positions Q n).Nodup := List.nodup_range.filter _

theorem positions_eq_map : positions Q n = (List.range (positions Q n).length).map ((positions Q n).getD · 0) :=
  (map_getD_range _ 0).symm

theorem getD_positions (hk : k < (positions Q n).length) : (positions Q n).getD k 0 ∈ positions Q n := by
  rw [List.getD_eq_getElem _ _ hk]
  exact List.getElem_mem hk

theorem positions_injOn : Set.InjOn ((positions Q n).getD · 0) {k | k < (positions Q n).length} := by
  intro k hk k' hk' h
  have hk : k < (positions Q n).length := hk
  have hk' : k' < (positions Q n).length := hk'
  have h : (positions Q n).getD k 0 = (positions Q n).getD k' 0 := h
  rw [List.getD_eq_getElem _ _ hk, List.getD_eq_getElem _ _ hk'] at h
  exact (nodup_positions.getElem_inj_iff).mp h

/-- Where a position is found. -/
theorem idxOf_positions (hi : i < n) (hQ : Q i = true) :
    (positions Q n).idxOf i < (positions Q n).length ∧
      (positions Q n).getD ((positions Q n).idxOf i) 0 = i := by
  have hlt := List.idxOf_lt_length_of_mem (mem_positions.mpr ⟨hi, hQ⟩)
  refine ⟨hlt, ?_⟩
  rw [List.getD_eq_getElem _ _ hlt, List.getElem_idxOf]

theorem interleaved_positions {l : List (ℕ × ℕ)} (hl : ∀ p ∈ l, p.1 < n ∧ p.2 < n) :
    Interleaved ((positions Q n).getD · 0) (positions Q n).length
      ((positions (fun i => !Q i) n).getD · 0) (positions (fun i => !Q i) n).length l
      ((l.filter fun p => Q p.1 && Q p.2).map
        (Prod.map (positions Q n).idxOf (positions Q n).idxOf))
      ((l.filter fun p => !Q p.1 && !Q p.2).map
        (Prod.map (positions (fun i => !Q i) n).idxOf (positions (fun i => !Q i) n).idxOf)) := by
  induction l with
  | nil => exact .nil
  | cons p l ih =>
    obtain ⟨⟨h1, h2⟩, hl'⟩ := List.forall_mem_cons.mp hl
    obtain ⟨i, j⟩ := p
    cases hi : Q i <;> cases hj : Q j
    · obtain ⟨hli, hei⟩ := idxOf_positions (Q := fun i => !Q i) h1 (by simp [hi])
      obtain ⟨hlj, hej⟩ := idxOf_positions (Q := fun i => !Q i) h2 (by simp [hj])
      rw [List.filter_cons_of_neg (by simp [hi]), List.filter_cons_of_pos (by simp [hi, hj]), List.map_cons]
      have := Interleaved.right hli hlj (ih hl')
      rwa [hei, hej] at this
    · obtain ⟨hli, hei⟩ := idxOf_positions (Q := fun i => !Q i) h1 (by simp [hi])
      obtain ⟨hlj, hej⟩ := idxOf_positions h2 hj
      rw [List.filter_cons_of_neg (by simp [hi]), List.filter_cons_of_neg (by simp [hj])]
      exact .across hlj hli (.inr (by rw [hei, hej])) (ih hl')
    · obtain ⟨hli, hei⟩ := idxOf_positions h1 hi
      obtain ⟨hlj, hej⟩ := idxOf_positions (Q := fun i => !Q i) h2 (by simp [hj])
      rw [List.filter_cons_of_neg (by simp [hj]), List.filter_cons_of_neg (by simp [hi])]
      exact .across hli hlj (.inl (by rw [hei, hej])) (ih hl')
    · obtain ⟨hli, hei⟩ := idxOf_positions h1 hi
      obtain ⟨hlj, hej⟩ := idxOf_positions h2 hj
      rw [List.filter_cons_of_pos (by simp [hi, hj]), List.filter_cons_of_neg (by simp [hi]), List.map_cons]
      have := Interleaved.left hli hlj (ih hl')
      rwa [hei, hej] at this

theorem filter_classPairs (Q : ℕ → Bool) (n : ℕ) :
    ((classPairs n).filter fun p => Q p.1 && Q p.2).map
      (Prod.map (positions Q n).idxOf (positions Q n).idxOf) = classPairs (positions Q n).length := by
  rw [classPairs_eq, filter_pairsOf]
  show (pairsOf (positions Q n)).map _ = _
  rw [← pairsOf_map, classPairs_eq]
  congr 1
  refine List.ext_getElem (by simp) fun k hk _ => ?_
  rw [List.getElem_map, List.getElem_range]
  exact nodup_positions.idxOf_getElem _ _

theorem interleaved_classPairs : Interleaved ((positions Q n).getD · 0) (positions Q n).length
    ((positions (fun i => !Q i) n).getD · 0) (positions (fun i => !Q i) n).length (classPairs n)
    (classPairs (positions Q n).length) (classPairs (positions (fun i => !Q i) n).length) := by
  have h := interleaved_positions (Q := Q) (n := n) (l := classPairs n) fun p hp => by
    obtain ⟨hij, hj⟩ := mem_classPairs.mp hp
    exact ⟨hij.trans hj, hj⟩
  rwa [filter_classPairs, filter_classPairs] at h

end Positions

/-! ## The estimate of two parts -/

variable {pow : K → K → K} {sort : Sorting K} {est : K}

/-- The statistics of a class with its filters applied. -/
def readyClass (pow : K → K → K) (sort : Sorting K) (sm : StatisticManager K) (e : AttrEset) :
    Except Error (DSStatistic K) := do
  let st ← sm.classStatistics e
  filterClass pow sort sm e st

def readyStat (pow : K → K → K) (sort : Sorting K) (sm : StatisticManager K) (e : AttrEset) : DSStatistic K :=
  (readyClass pow sort sm e).toOption.getD default

theorem readyStat_eq {e : AttrEset} {st : DSStatistic K} (h : readyClass pow sort sm e = .ok st) :
    readyStat pow sort sm e = st := by
  rw [readyStat, h]
  rfl

theorem ready_iff {news : List (DSStatistic K)} :
    (∃ sts, A.mapM sm.classStatistics = .ok sts ∧
      (A.zip sts).mapM (fun c => filterClass pow sort sm c.1 c.2) = .ok news) ↔
      (∀ e ∈ A, ∃ st, readyClass pow sort sm e = .ok st) ∧ news = A.map (readyStat pow sort sm) := by
  simp only [mapM_eq_ok]
  constructor
  · rintro ⟨sts, hsts, hnews⟩
    induction hsts generalizing news with
    | nil =>
      cases hnews
      exact ⟨by simp, rfl⟩
    | cons hst _ ih =>
      rw [List.zip_cons_cons] at hnews
      cases hnews with
      | cons hnew hnews =>
        obtain ⟨hall, rfl⟩ := ih hnews
        have hready := bind_eq_ok.mpr ⟨_, hst, hnew⟩
        exact ⟨List.forall_mem_cons.mpr ⟨⟨_, hready⟩, hall⟩, by rw [List.map_cons, readyStat_eq hready]⟩
  · rintro ⟨hall, rfl⟩
    induction A with
    | nil => exact ⟨[], .nil, .nil⟩
    | cons e A ih =>
      obtain ⟨⟨new, hnew⟩, hall⟩ := List.forall_mem_cons.mp hall
      obtain ⟨sts, hsts, hnews⟩ := ih hall
      obtain ⟨st, hst, hfilter⟩ := bind_eq_ok.mp hnew
      exact ⟨st :: sts, .cons hst hsts, .cons (by rw [readyStat_eq hnew]; exact hfilter) hnews⟩

theorem estimateFromStats_eq_ok : estimateFromStats pow sort sm A = .ok est ↔
    (∀ e ∈ A, ∃ st, readyClass pow sort sm e = .ok st) ∧
      ∃ s, (classPairs A.length).foldlM sm.mergePair (.start A (A.map (readyStat pow sort sm))) = .ok s ∧
        est = s.card := by
  unfold estimateFromStats
  rw [bind_eq_ok]
  constructor
  · rintro ⟨sts, hsts, hrun⟩
    obtain ⟨news, hnews, hloop⟩ := bind_eq_ok.mp hrun
    obtain ⟨s, hs, hcard⟩ := bind_eq_ok.mp hloop
    obtain ⟨hall, rfl⟩ := ready_iff.mp ⟨sts, hsts, hnews⟩
    exact ⟨hall, s, hs, (Except.ok.inj hcard).symm⟩
  · rintro ⟨hall, s, hs, rfl⟩
    obtain ⟨sts, hsts, hnews⟩ := ready_iff.mpr ⟨hall, rfl⟩
    exact ⟨sts, hsts, bind_eq_ok.mpr ⟨_, hnews, bind_eq_ok.mpr ⟨s, hs, rfl⟩⟩⟩

theorem filter_eq_positions (q : AttrEset → Bool) (A : List AttrEset) :
    A.filter q = (positions (fun i => q (A.getD i ∅)) A.length).map (A.getD · ∅) := by
  conv_lhs => rw [← map_getD_range A ∅, List.filter_map]
  rfl

theorem length_filter (q : AttrEset → Bool) (A : List AttrEset) :
    (A.filter q).length = (positions (fun i => q (A.getD i ∅)) A.length).length := by
  rw [filter_eq_positions, List.length_map]

theorem getD_map_of_lt {α β : Type} (f : α → β) {l : List α} (hk : k < l.length) (d : β) (d' : α) :
    (l.map f).getD k d = f (l.getD k d') := by
  rw [List.getD_eq_getElem _ _ (by rwa [List.length_map]), List.getElem_map, List.getD_eq_getElem _ _ hk]

omit [LinearOrder K] [FloorRing K] in
/-- Where the loop starts, seen through the classes of a part. -/
theorem sees_start (q : AttrEset → Bool) (f : AttrEset → DSStatistic K) :
    Sees ((positions (fun i => q (A.getD i ∅)) A.length).getD · 0) (A.filter q).length
      (.start A (A.map f)) (.start (A.filter q) ((A.filter q).map f)) := by
  have hget : ∀ k < (A.filter q).length,
      (positions (fun i => q (A.getD i ∅)) A.length).getD k 0 < A.length ∧
        A.getD ((positions (fun i => q (A.getD i ∅)) A.length).getD k 0) ∅ = (A.filter q).getD k ∅ := by
    intro k hk
    have hk' := length_filter q A ▸ hk
    refine ⟨(mem_positions.mp (getD_positions hk')).1, ?_⟩
    rw [List.getD_eq_getElem _ _ hk, List.getD_eq_getElem _ 0 hk']
    simp only [filter_eq_positions q A, List.getElem_map]
  refine ⟨fun k hk => ?_, fun k hk => ?_, fun k hk => ?_⟩
  · rw [up_start, up_start]
    exact ⟨hk, rfl⟩
  · exact (hget k hk).2
  · obtain ⟨hlt, heq⟩ := hget k hk
    show (A.map f).getD _ default = ((A.filter q).map f).getD k default
    rw [getD_map_of_lt f hlt _ ∅, getD_map_of_lt f hk _ ∅, heq]

variable {q : AttrEset → Bool}

/-- Classes with `q` share no relation with the others. -/
def Separates (q : AttrEset → Bool) (A : List AttrEset) : Prop :=
  ∀ e ∈ A, q e = true → ∀ e' ∈ A, q e' = false → ∀ rel ∈ AttrEset.rels e, rel ∉ AttrEset.rels e'

theorem Separates.splits (h : Separates q A) :
    Splits A ((positions (fun i => q (A.getD i ∅)) A.length).getD · 0) (A.filter q)
      ((positions (fun i => !q (A.getD i ∅)) A.length).getD · 0) (A.filter fun e => !q e) where
  inj1 := length_filter q A ▸ positions_injOn
  inj2 := length_filter (fun e => !q e) A ▸ positions_injOn
  lt1 k hk := (mem_positions.mp (getD_positions (length_filter q A ▸ hk))).1
  lt2 k hk := (mem_positions.mp (getD_positions (length_filter (fun e => !q e) A ▸ hk))).1
  ne k1 h1 k2 h2 heq := by
    have hq1 := (mem_positions.mp (getD_positions (length_filter q A ▸ h1))).2
    have hq2 := (mem_positions.mp (getD_positions (length_filter (fun e => !q e) A ▸ h2))).2
    have heq : (positions (fun i => q (A.getD i ∅)) A.length).getD k1 0 = _ := heq
    rw [heq] at hq1
    rw [hq1] at hq2
    exact Bool.false_ne_true hq2
  apart k1 k2 := Set.disjoint_left.mpr fun rel h1 h2 => by
    have hmem : ∀ {B : List AttrEset} {k : ℕ}, rel ∈ relsAt B k → B.getD k ∅ ∈ B := fun {B k} hrel => by
      have hk := lt_of_mem_relsAt hrel
      rw [List.getD_eq_getElem _ _ hk]
      exact List.getElem_mem hk
    obtain ⟨hA1, hq1⟩ := List.mem_filter.mp (hmem h1)
    obtain ⟨hA2, hq2⟩ := List.mem_filter.mp (hmem h2)
    exact h _ hA1 hq1 _ hA2 (by simpa using hq2) rel h1 h2

section

omit [LinearOrder K] [FloorRing K]

/-- The roots of a part, in the whole. -/
theorem Sees.roots (h : Sees e m s s1) (he : Set.InjOn e {k | k < m}) (hm : s1.parent.length = m) :
    (((List.range m).map e).filter fun i => s.parent.getD i i = i).map
        (fun i => (s.dsStats.getD i default).card) =
      ((List.range s1.parent.length).filter fun i => s1.parent.getD i i = i).map
        fun i => (s1.dsStats.getD i default).card := by
  rw [hm, List.filter_map, List.map_map]
  have hfilter : (List.range m).filter ((fun i => decide (s.parent.getD i i = i)) ∘ e) =
      (List.range m).filter fun i => s1.parent.getD i i = i := List.filter_congr fun k hk => by
    have hk := List.mem_range.mp hk
    obtain ⟨hlt, heq⟩ := h.up k hk
    have heq : s.parent.getD (e k) (e k) = e (s1.up k) := heq
    simp only [Function.comp_apply, heq, decide_eq_decide]
    exact ⟨fun h => he hlt hk h, fun h => congrArg e h⟩
  rw [hfilter]
  refine List.map_congr_left fun k hk => ?_
  have hk := List.mem_range.mp (List.mem_filter.mp hk).1
  show (s.dsStats.getD (e k) default).card = _
  rw [h.stats k hk]

theorem Both.card (hsep : Separates q A)
    (h : Both A ((positions (fun i => q (A.getD i ∅)) A.length).getD · 0) (A.filter q)
      ((positions (fun i => !q (A.getD i ∅)) A.length).getD · 0) (A.filter fun e => !q e) s s1 s2) :
    s.card = s1.card * s2.card := by
  obtain ⟨l, links, hs⟩ := h.whole
  obtain ⟨l1, links1, hs1⟩ := h.part1
  obtain ⟨l2, links2, hs2⟩ := h.part2
  have hA := hsep.splits
  set Q : ℕ → Bool := fun i => q (A.getD i ∅) with hQ
  have hperm : (List.range A.length).Perm (positions Q A.length ++ positions (fun i => !Q i) A.length) :=
    (List.filter_append_perm Q _).symm
  have hprod := ((hperm.filter fun i => s.parent.getD i i = i).map
    fun i => (s.dsStats.getD i default).card).prod_eq
  rw [List.filter_append, List.map_append, List.prod_append] at hprod
  unfold MergeLoop.card
  rw [hs.length_parent, hprod]
  congr 2
  · have hroots := h.sees1.roots hA.inj1 hs1.length_parent
    rw [← hroots, length_filter q A, ← positions_eq_map]
  · have hroots := h.sees2.roots hA.inj2 hs2.length_parent
    rw [← hroots, length_filter (fun e => !q e) A, ← positions_eq_map]

end

theorem estimateFromStats_split (hsep : Separates q A) :
    estimateFromStats pow sort sm A = .ok est ↔ ∃ est1 est2, estimateFromStats pow sort sm (A.filter q) = .ok est1 ∧
      estimateFromStats pow sort sm (A.filter fun e => !q e) = .ok est2 ∧ est = est1 * est2 := by
  have hA := hsep.splits
  have hstart : Both A ((positions (fun i => q (A.getD i ∅)) A.length).getD · 0) (A.filter q)
      ((positions (fun i => !q (A.getD i ∅)) A.length).getD · 0) (A.filter fun e => !q e)
      (.start A (A.map (readyStat pow sort sm))) (.start (A.filter q) ((A.filter q).map (readyStat pow sort sm)))
      (.start (A.filter fun e => !q e) ((A.filter fun e => !q e).map (readyStat pow sort sm))) :=
    ⟨⟨_, _, looping_start (List.length_map _)⟩, ⟨_, _, looping_start (List.length_map _)⟩,
      ⟨_, _, looping_start (List.length_map _)⟩, sees_start q _, sees_start (fun e => !q e) _⟩
  have hpairs := interleaved_classPairs (Q := fun i => q (A.getD i ∅)) (n := A.length)
  rw [← length_filter q A, ← length_filter (fun e => !q e) A] at hpairs
  simp only [estimateFromStats_eq_ok]
  constructor
  · rintro ⟨hall, s, hs, rfl⟩
    obtain ⟨s1, s2, hs1, hs2, hboth⟩ := hstart.run hA hpairs hs
    exact ⟨s1.card, s2.card, ⟨fun e he => hall e (List.mem_filter.mp he).1, s1, hs1, rfl⟩,
      ⟨fun e he => hall e (List.mem_filter.mp he).1, s2, hs2, rfl⟩, hboth.card hsep⟩
  · rintro ⟨_, _, ⟨hall1, s1, hs1, rfl⟩, ⟨hall2, s2, hs2, rfl⟩, rfl⟩
    obtain ⟨s, hs, hboth⟩ := hstart.run_back hA hpairs hs1 hs2
    refine ⟨fun e he => ?_, s, hs, (hboth.card hsep).symm⟩
    cases hq : q e
    · exact hall2 e (List.mem_filter.mpr ⟨he, by simp [hq]⟩)
    · exact hall1 e (List.mem_filter.mpr ⟨he, hq⟩)

/-! ## The estimate of a set of relations -/

variable {rels : List ℕ} {E : AttrEset} {st new : DSStatistic K}

/-- A filter that is applied has been looked up for every relation of its class. -/
theorem isSome_of_filterClass (h : filterClass pow sort sm E st = .ok new) :
    ∀ a ∈ E, (sm.filterString.find? (ofLex a).1).isSome := by
  have hfold : ∀ {step : DSStatistic K → Attribute → Except Error (DSStatistic K)},
      (∀ c c' a, step c a = .ok c' → (sm.filterString.find? (ofLex a).1).isSome) →
      E.toList.foldlM step st = .ok new → ∀ a ∈ E, (sm.filterString.find? (ofLex a).1).isSome := by
    intro step hstep hok a ha
    obtain ⟨c, c', hc⟩ := exists_ok_of_foldlM hok a ha
    exact hstep c c' a hc
  unfold filterClass at h
  split at h
  · refine hfold (fun c c' a hc => ?_) h
    obtain ⟨filter, hfilter, -⟩ := bind_eq_ok.mp hc
    exact OrdMap.isSome_of_lookup hfilter
  · split at h
    · refine hfold (fun c c' a hc => ?_) h
      obtain ⟨filter, hfilter, -⟩ := bind_eq_ok.mp hc
      exact OrdMap.isSome_of_lookup hfilter
    · obtain ⟨coeffs, hcoeffs, -⟩ := bind_eq_ok.mp h
      exact (tableCoeffs_eq_ok.mp hcoeffs).isSome

/-- Without known cardinalities of subqueries an estimate comes from the statistics. -/
theorem estimateCardinality_iff (hsub : sm.useSubqueryCard = false) :
    estimateCardinality pow sort sm rels = .ok est ↔
      estimateFromStats pow sort sm (sm.getAttrEsetFromRels rels) = .ok est := by
  constructor
  · intro h
    unfold estimateCardinality at h
    rw [hsub] at h
    simp only [Bool.false_eq_true, if_false] at h
    split at h
    · obtain ⟨-, -, h⟩ := bind_eq_ok.mp h
      exact h
    · exact h
  · intro h
    obtain ⟨hall, -⟩ := estimateFromStats_eq_ok.mp h
    rw [estimateCardinality_eq pow sort hsub ?_ ?_]
    · exact h
    · intro rel hrel
      obtain ⟨E, hE, a, ha, rfl⟩ := exists_mem_getAttrEsetFromRels sm hrel
      obtain ⟨new, hnew⟩ := hall E hE
      obtain ⟨st, -, hfilter⟩ := bind_eq_ok.mp hnew
      exact isSome_of_filterClass hfilter a ha
    · intro E hE
      obtain ⟨new, hnew⟩ := hall E hE
      obtain ⟨st, hst, -⟩ := bind_eq_ok.mp hnew
      exact (classStatistics_eq_ok.mp hst).1

/-- The merge loop of an estimate, which is reached where no subquery cardinalities are used, joins
exactly what is connected: every relation is in the set of one root, which holds the relations that
classes lead to from it, and the estimate is the product of the cardinalities of the roots. -/
theorem estimateCardinality_roots (hsub : sm.useSubqueryCard = false)
    (h : estimateCardinality pow sort sm rels = .ok est) :
    ∃ s, (classPairs (sm.getAttrEsetFromRels rels).length).foldlM sm.mergePair (.start
        (sm.getAttrEsetFromRels rels) ((sm.getAttrEsetFromRels rels).map (readyStat pow sort sm))) = .ok s ∧
      est = s.card ∧
      (∀ rel ∈ rels, ∃! i, s.parent.getD i i = i ∧ rel ∈ AttrEset.rels (s.attrEsets.getD i ∅)) ∧
      ∀ i, s.parent.getD i i = i → ∀ rel ∈ AttrEset.rels (s.attrEsets.getD i ∅), ∀ rel',
        rel' ∈ AttrEset.rels (s.attrEsets.getD i ∅) ↔ Relation.ReflTransGen
          (fun r r' => ∃ e ∈ sm.getAttrEsetFromRels rels, r ∈ AttrEset.rels e ∧ r' ∈ AttrEset.rels e)
          rel rel' := by
  obtain ⟨-, s, hs, hcard⟩ := estimateFromStats_eq_ok.mp ((estimateCardinality_iff hsub).mp h)
  obtain ⟨hone, hroot⟩ := mergeLoop_components (List.length_map _) hs
  refine ⟨s, hs, hcard, fun rel hrel => ?_, hroot⟩
  obtain ⟨e, he, a, ha, rfl⟩ := exists_mem_getAttrEsetFromRels sm hrel
  exact hone e he _ (mem_rels.mpr ⟨a, ha, rfl⟩)

/-- All relations of a class are in `part`. -/
def within (part : ℕ → Bool) (e : AttrEset) : Bool := (AttrEset.rels e).all part

/-- No class has relations on both sides. -/
def Closed (part : ℕ → Bool) (A : List AttrEset) : Prop :=
  ∀ e ∈ A, (∀ rel ∈ AttrEset.rels e, part rel = true) ∨ ∀ rel ∈ AttrEset.rels e, part rel = false

variable {part : ℕ → Bool}

theorem Closed.compl (h : Closed part A) : Closed (fun rel => !part rel) A := fun e he =>
  (h e he).symm.imp (fun hout rel hrel => by simp [hout rel hrel]) fun hin rel hrel => by simp [hin rel hrel]

theorem Closed.separates (h : Closed part A) : Separates (within part) A := by
  intro e _ hq e' he' hq' rel hrel hrel'
  have hpart : part rel = true := List.all_eq_true.mp hq rel hrel
  rcases h e' he' with hin | hout
  · exact absurd (List.all_eq_true.mpr hin) (by rw [show (AttrEset.rels e').all part = false from hq']; decide)
  · rw [hout rel hrel'] at hpart
    cases hpart

theorem restrict_filter {c : AttrEset} (part : ℕ → Bool) (rels : List ℕ)
    (h : ∀ rel ∈ AttrEset.rels (restrict c rels), part rel = true) :
    restrict c (rels.filter part) = restrict c rels := by
  refine OrdSet.ext_mem fun a => ?_
  rw [mem_restrict, mem_restrict, List.mem_filter]
  refine ⟨fun ha => ⟨ha.1, ha.2.1⟩, fun ha => ⟨ha.1, ha.2, h _ (mem_rels.mpr ⟨a, ?_, rfl⟩)⟩⟩
  exact mem_restrict.mpr ha

theorem restrict_filter_out {c : AttrEset} (part : ℕ → Bool) (rels : List ℕ)
    (h : ∀ rel ∈ AttrEset.rels (restrict c rels), part rel = false) :
    restrict c (rels.filter part) = ∅ := by
  refine OrdSet.ext_mem fun a => ⟨fun ha => ?_, fun ha => by cases ha⟩
  obtain ⟨hac, har⟩ := mem_restrict.mp ha
  obtain ⟨hin, hpart⟩ := List.mem_filter.mp har
  rw [h _ (mem_rels.mpr ⟨a, mem_restrict.mpr ⟨hac, hin⟩, rfl⟩)] at hpart
  cases hpart

/-- The classes of a part are those of the whole that lie in it. -/
theorem restrictions_filter {l : List AttrEset} (h : Closed part (restrictions l rels)) :
    restrictions l (rels.filter part) = (restrictions l rels).filter (within part) := by
  induction l with
  | nil => rfl
  | cons c l ih =>
    have hcons : ∀ rels, restrictions (c :: l) rels =
        if 1 < (restrict c rels).size then restrict c rels :: restrictions l rels else restrictions l rels :=
      fun rels => by
        unfold restrictions
        rw [List.map_cons, List.filter_cons]
        simp only [decide_eq_true_eq]
    by_cases hsize : 1 < (restrict c rels).size
    · rw [hcons rels, if_pos hsize] at h
      obtain ⟨hc, hl⟩ := List.forall_mem_cons.mp h
      rw [hcons, hcons, if_pos hsize]
      rcases hc with hin | hout
      · have hwithin : within part (restrict c rels) = true := List.all_eq_true.mpr hin
        rw [restrict_filter part rels hin, if_pos hsize, ih hl, List.filter_cons_of_pos hwithin]
      · obtain ⟨a, ha, -⟩ := OrdSet.one_lt_size_iff.mp hsize
        have hnot : ¬within part (restrict c rels) = true := fun hall => by
          have hrel := mem_rels.mpr ⟨a, ha, rfl⟩
          have htrue := List.all_eq_true.mp hall _ hrel
          rw [hout _ hrel] at htrue
          cases htrue
        rw [restrict_filter_out part rels hout, if_neg (by decide), ih hl, List.filter_cons_of_neg hnot]
    · rw [hcons rels, if_neg hsize] at h
      have hsize' : ¬1 < (restrict c (rels.filter part)).size := fun hlt => by
        obtain ⟨a, ha, b, hb, hne⟩ := OrdSet.one_lt_size_iff.mp hlt
        have hmem : ∀ {x}, x ∈ restrict c (rels.filter part) → x ∈ restrict c rels := fun hx =>
          mem_restrict.mpr ⟨(mem_restrict.mp hx).1, (List.mem_filter.mp (mem_restrict.mp hx).2).1⟩
        exact hsize (OrdSet.one_lt_size_iff.mpr ⟨a, hmem ha, b, hmem hb, hne⟩)
      rw [hcons, hcons, if_neg hsize, if_neg hsize']
      exact ih h

omit [Field K] [LinearOrder K] [FloorRing K] in
theorem getAttrEsetFromRels_filter (h : Closed part (sm.getAttrEsetFromRels rels)) :
    sm.getAttrEsetFromRels (rels.filter part) = (sm.getAttrEsetFromRels rels).filter (within part) := by
  have hclosed : Closed part (restrictions sm.attrEsets rels) := fun e he =>
    h e (mem_getAttrEsetFromRels.mpr (.inl he))
  rw [getAttrEsetFromRels_eq, getAttrEsetFromRels_eq, List.filter_append, restrictions_filter hclosed,
    List.filter_map]
  congr 2
  have hsingle : (within part ∘ fun rel => OrdSet.ofList [toLex (rel, 0)]) = part := funext fun rel => by
    show ([(ofLex (toLex (rel, 0)) : ℕ × ℕ).1].all part) = part rel
    simp
  rw [hsingle]
  unfold leftOut
  rw [List.filter_filter, List.filter_filter]
  refine List.filter_congr fun rel _ => ?_
  rw [restrictions_filter hclosed, Bool.and_comm]
  cases hpart : part rel
  · rfl
  · rw [Bool.true_and, Bool.true_and]
    congr 2
    rw [eq_iff_iff, List.any_eq_true, List.any_eq_true]
    constructor
    · rintro ⟨e, he, hrel⟩
      exact ⟨e, (List.mem_filter.mp he).1, hrel⟩
    · rintro ⟨e, he, hrel⟩
      refine ⟨e, List.mem_filter.mpr ⟨he, ?_⟩, hrel⟩
      rcases hclosed e he with hin | hout
      · exact List.all_eq_true.mpr hin
      · rw [hout rel (by simpa using hrel)] at hpart
        cases hpart

theorem estimateCardinality_split (hsub : sm.useSubqueryCard = false)
    (h : Closed part (sm.getAttrEsetFromRels rels)) : estimateCardinality pow sort sm rels = .ok est ↔
      ∃ est1 est2, estimateCardinality pow sort sm (rels.filter part) = .ok est1 ∧
        estimateCardinality pow sort sm (rels.filter fun rel => !part rel) = .ok est2 ∧ est = est1 * est2 := by
  have hne : ∀ e ∈ sm.getAttrEsetFromRels rels, ∃ rel, rel ∈ AttrEset.rels e := fun e he => by
    obtain ⟨a, ha⟩ := exists_mem_of_getAttrEsetFromRels he
    exact ⟨_, mem_rels.mpr ⟨a, ha, rfl⟩⟩
  have hnot : ∀ e ∈ sm.getAttrEsetFromRels rels, within (fun rel => !part rel) e = !within part e := by
    intro e he
    obtain ⟨rel, hrel⟩ := hne e he
    rcases h e he with hin | hout
    · have h1 : within part e = true := List.all_eq_true.mpr hin
      have h2 : within (fun rel => !part rel) e = false := List.all_eq_false.mpr ⟨rel, hrel, by simp [hin rel hrel]⟩
      rw [h1, h2]
      rfl
    · have h1 : within part e = false := List.all_eq_false.mpr ⟨rel, hrel, by simp [hout rel hrel]⟩
      have h2 : within (fun rel => !part rel) e = true :=
        List.all_eq_true.mpr fun r hr => by simp [hout r hr]
      rw [h1, h2]
      rfl
  rw [estimateCardinality_iff hsub, estimateFromStats_split h.separates]
  simp only [estimateCardinality_iff hsub]
  rw [getAttrEsetFromRels_filter h, getAttrEsetFromRels_filter h.compl, List.filter_congr hnot]

/-- Where no subquery cardinalities are used, the estimate is the product of the estimates of the
parts that no class connects. -/
theorem estimateCardinality_parts {ι : Type} [DecidableEq ι] (hsub : sm.useSubqueryCard = false)
    {color : ℕ → ι} (hcolor : ∀ e ∈ sm.getAttrEsetFromRels rels, ∀ r ∈ AttrEset.rels e,
      ∀ r' ∈ AttrEset.rels e, color r = color r') {colors : List ι} (hn : colors.Nodup)
    (hall : ∀ rel ∈ rels, color rel ∈ colors) : estimateCardinality pow sort sm rels = .ok est ↔
      ∃ part : ι → K, (∀ c ∈ colors,
        estimateCardinality pow sort sm (rels.filter fun rel => color rel = c) = .ok (part c)) ∧
        est = (colors.map part).prod := by
  induction colors generalizing rels est with
  | nil =>
    have hnil : rels = [] := List.eq_nil_iff_forall_not_mem.mpr fun rel hrel => by cases hall rel hrel
    have hone : estimateCardinality pow sort sm ([] : List ℕ) = .ok 1 := by
      rw [estimateCardinality_iff hsub]
      have hclasses : sm.getAttrEsetFromRels [] = [] := List.eq_nil_iff_forall_not_mem.mpr fun e he => by
        obtain ⟨a, ha⟩ := exists_mem_of_getAttrEsetFromRels he
        cases rel_mem_of_getAttrEsetFromRels he ha
      rw [hclasses]
      rfl
    rw [hnil, hone]
    constructor
    · intro h
      exact ⟨fun _ => 1, by simp, by rw [← Except.ok.inj h]; rfl⟩
    · rintro ⟨part, -, rfl⟩
      rfl
  | cons c colors ih =>
    obtain ⟨hc, hn⟩ := List.nodup_cons.mp hn
    have hne : ∀ d ∈ colors, d ≠ c := fun d hd h => hc (h ▸ hd)
    have hclosed : Closed (fun rel => decide (color rel = c)) (sm.getAttrEsetFromRels rels) := by
      intro e he
      obtain ⟨a, ha⟩ := exists_mem_of_getAttrEsetFromRels he
      have hrel := mem_rels.mpr ⟨a, ha, rfl⟩
      by_cases hac : color (ofLex a).1 = c
      · exact .inl fun r hr => by simpa using (hcolor e he r hr _ hrel).trans hac
      · exact .inr fun r hr => by simpa using fun h => hac ((hcolor e he _ hrel r hr).trans h)
    have hfilter : ∀ d ∈ colors, (rels.filter fun rel => !decide (color rel = c)).filter
        (fun rel => color rel = d) = rels.filter fun rel => color rel = d := fun d hd => by
      rw [List.filter_filter]
      refine List.filter_congr fun rel _ => ?_
      by_cases hrel : color rel = d
      · simp [hrel, hne d hd]
      · simp [hrel]
    set rest := rels.filter fun rel => !decide (color rel = c) with hrest
    have hcolor' : ∀ e ∈ sm.getAttrEsetFromRels rest, ∀ r ∈ AttrEset.rels e, ∀ r' ∈ AttrEset.rels e,
        color r = color r' := fun e he r hr r' hr' => by
      rw [hrest, getAttrEsetFromRels_filter hclosed.compl] at he
      exact hcolor e (List.mem_filter.mp he).1 r hr r' hr'
    have hall' : ∀ rel ∈ rest, color rel ∈ colors := fun rel hrel => by
      obtain ⟨hin, hne⟩ := List.mem_filter.mp hrel
      exact (List.mem_cons.mp (hall rel hin)).resolve_left (by simpa using hne)
    rw [estimateCardinality_split hsub hclosed]
    constructor
    · rintro ⟨est1, est2, h1, h2, rfl⟩
      obtain ⟨part, hpart, rfl⟩ := (ih hcolor' hn hall').mp h2
      refine ⟨Function.update part c est1, List.forall_mem_cons.mpr ⟨?_, fun d hd => ?_⟩, ?_⟩
      · rw [Function.update_self]
        exact h1
      · rw [Function.update_of_ne (hne d hd), ← hfilter d hd]
        exact hpart d hd
      · rw [List.map_cons, List.prod_cons, Function.update_self]
        congr 2
        exact List.map_congr_left fun d hd => (Function.update_of_ne (hne d hd) _ _).symm
    · rintro ⟨part, hpart, rfl⟩
      obtain ⟨h1, hpart⟩ := List.forall_mem_cons.mp hpart
      refine ⟨part c, (colors.map part).prod, h1, (ih hcolor' hn hall').mpr ⟨part, fun d hd => ?_, rfl⟩, rfl⟩
      rw [hfilter d hd]
      exact hpart d hd

section Example

/-- `t.x = u.x` beside `u.y = v.y` with another `u`. -/
def apartQuery : Except Error (StatisticManager ℚ) := do
  let sm1 ← collectStatistics (fun x _ => x) chainRows initial [leftPair, rightPair]
  sm1.enterQuery [("t", ["x"], 2), ("u", ["x", "y"], 3), ("u", ["x", "y"], 3), ("v", ["y"], 2)]
    (.ofKeys [0, 1, 2, 3] fun _ => "") [⟨0, 1, 0, 0⟩, ⟨2, 3, 1, 0⟩]

theorem estimateCardinality_parts_apart : ∃ sm, apartQuery = .ok sm ∧
    estimateCardinality (fun x _ => x) .stable sm [0, 1] = .ok 3 ∧
    estimateCardinality (fun x _ => x) .stable sm [2, 3] = .ok 3 ∧
    estimateCardinality (fun x _ => x) .stable sm [0, 1, 2, 3] = .ok 9 := by
  have hrun : (do
      let sm ← apartQuery
      pure (decide (sm.useSubqueryCard = false ∧
        (∀ e ∈ sm.getAttrEsetFromRels [0, 1, 2, 3], ∀ r ∈ AttrEset.rels e, ∀ r' ∈ AttrEset.rels e,
          r / 2 = r' / 2) ∧
        estimateCardinality (fun x _ => x) .stable sm [0, 1] = Except.ok 3 ∧
        estimateCardinality (fun x _ => x) .stable sm [2, 3] = Except.ok 3))) = .ok true := by
    decide +kernel
  obtain ⟨sm, hsm, hrun⟩ := bind_eq_ok.mp hrun
  obtain ⟨hsub, hcolor, h1, h2⟩ := of_decide_eq_true (Except.ok.inj hrun)
  refine ⟨sm, hsm, h1, h2, ?_⟩
  have hn : [0, 1].Nodup := by decide
  have hcolors : ∀ rel ∈ [0, 1, 2, 3], rel / 2 ∈ [0, 1] := by decide
  refine (estimateCardinality_parts hsub hcolor hn hcolors).mpr
    ⟨fun _ => 3, List.forall_mem_cons.mpr ⟨h1, List.forall_mem_cons.mpr ⟨h2, by simp⟩⟩, ?_⟩
  norm_num

theorem estimateCardinality_roots_apart : ∃ (sm : StatisticManager ℚ) (s : MergeLoop ℚ),
    apartQuery = .ok sm ∧ s.card = 9 ∧
    (∀ rel ∈ [0, 1, 2, 3], ∃! i, s.parent.getD i i = i ∧
      rel ∈ AttrEset.rels (s.attrEsets.getD i ∅)) := by
  have hrun : (do
      let sm ← apartQuery
      pure (decide (sm.useSubqueryCard = false ∧
        estimateCardinality (fun x _ => x) .stable sm [0, 1, 2, 3] = Except.ok 9))) = .ok true := by
    decide +kernel
  obtain ⟨sm, hsm, hrun⟩ := bind_eq_ok.mp hrun
  obtain ⟨hsub, hest⟩ := of_decide_eq_true (Except.ok.inj hrun)
  obtain ⟨s, -, hcard, hone, -⟩ := estimateCardinality_roots hsub hest
  exact ⟨sm, s, hsm, hcard.symm, hone⟩

end Example

end StatisticManager

end StarCE
