import StarCE.Data.Incidence
import StarCE.Manager.Classes

/-!
# The merge loop

The loop over pairs of classes is a union-find in a vector of parents, run
while the sets it tests are enlarged at the roots and left as they are below
them. `Looping` is its invariant: the roots hold the relations of the classes
below them, and classes that have been compared and share a relation have one
root. A loop that returns has the connected components as its roots
(`mergeLoop_components`). `mergeLoop_rule` carries a property of statistics
through a loop whose classes form a forest: two roots then share one relation,
the one they are merged at.
-/

namespace StarCE

variable {K : Type} [Field K] [LinearOrder K] [FloorRing K]

namespace StatisticManager

variable {sm : StatisticManager K} {A : List AttrEset} {s s' : MergeLoop K} {links : ℕ}
  {l : List (ℕ × ℕ)} {i j : ℕ}

/-! ## Parents and relations -/

def MergeLoop.up (s : MergeLoop K) (i : ℕ) : ℕ := s.parent.getD i i

theorem rootOf_eq (parent : List ℕ) (fuel i : ℕ) :
    rootOf parent fuel i = (fun i => parent.getD i i)^[fuel] i := by
  induction fuel generalizing i with
  | zero => rfl
  | succ fuel ih =>
    show (if parent.getD i i = i then i else rootOf parent fuel (parent.getD i i)) = _
    split
    · next hi => exact (Function.iterate_fixed (f := fun k => parent.getD k k) hi (fuel + 1)).symm
    · rw [ih, Function.iterate_succ_apply]

omit [Field K] [LinearOrder K] [FloorRing K] in
theorem MergeLoop.root_eq (s : MergeLoop K) (i : ℕ) : s.root i = s.up^[s.parent.length] i :=
  rootOf_eq _ _ _

/-- The relations of a class. -/
def relsAt (A : List AttrEset) (i : ℕ) : Set ℕ := {rel | rel ∈ AttrEset.rels (A.getD i ∅)}

theorem mem_relsAt {rel : ℕ} : rel ∈ relsAt A i ↔ ∃ a ∈ A.getD i ∅, (ofLex a).1 = rel := mem_rels

theorem lt_of_mem_relsAt {rel : ℕ} (h : rel ∈ relsAt A i) : i < A.length := by
  by_contra hi
  obtain ⟨a, ha, -⟩ := mem_relsAt.mp h
  rw [List.getD_eq_default _ _ (not_lt.mp hi)] at ha
  cases ha

theorem mem_union {B C : AttrEset} {a : Attribute} : a ∈ B.union C ↔ a ∈ B ∨ a ∈ C := by
  show a ∈ C.toList.foldl (fun s a => s.insert a) B ↔ _
  rw [OrdSet.mem_foldl_insert]
  exact Iff.rfl

theorem canMerge_iff {B C : AttrEset} :
    canMerge B C = true ↔ ∃ rel, rel ∈ AttrEset.rels B ∧ rel ∈ AttrEset.rels C := by
  simp [canMerge, List.any_eq_true]

theorem canMerge_getD : canMerge (A.getD i ∅) (A.getD j ∅) = true ↔
    (relsAt A i ∩ relsAt A j).Nonempty := canMerge_iff

theorem getCommonRelation_spec {B C : AttrEset} (h : canMerge B C = true) :
    getCommonRelation B C ∈ AttrEset.rels B ∧ getCommonRelation B C ∈ AttrEset.rels C := by
  obtain ⟨rel, hB, hC⟩ := canMerge_iff.mp h
  unfold getCommonRelation
  cases hfind : (AttrEset.rels B).find? fun r => r ∈ AttrEset.rels C with
  | none =>
    have := List.find?_eq_none.mp hfind rel hB
    simp [hC] at this
  | some r =>
    have hr := List.find?_some hfind
    exact ⟨List.mem_of_find?_eq_some hfind, by simpa using hr⟩

theorem mem_classPairs {n : ℕ} : (i, j) ∈ classPairs n ↔ i < j ∧ j < n := by
  simp only [classPairs, List.mem_flatMap, List.mem_map, List.mem_filter, List.mem_range,
    decide_eq_true_eq, Prod.mk.injEq]
  constructor
  · rintro ⟨i, -, j, ⟨hj, hij⟩, rfl, rfl⟩
    exact ⟨hij, hj⟩
  · rintro ⟨hij, hj⟩
    exact ⟨i, hij.trans hj, j, ⟨hj, hij⟩, rfl, rfl⟩

/-! ## One pair -/

/-- `root2` below `root1`, with the merged statistics. -/
def MergeLoop.link (s : MergeLoop K) (root1 root2 : ℕ) (merged other : DSStatistic K) : MergeLoop K where
  parent := s.parent.set root2 root1
  attrEsets := s.attrEsets.set root1 ((s.attrEsets.getD root1 ∅).union (s.attrEsets.getD root2 ∅))
  dsStats := (s.dsStats.set root2 other).set root1 merged

/-- What the body does: nothing, or a link of two roots whose classes touch. -/
theorem mergePair_eq_ok : sm.mergePair s (i, j) = .ok s' ↔
    (canMerge (s.attrEsets.getD i ∅) (s.attrEsets.getD j ∅) = true → s.root i = s.root j) ∧ s' = s ∨
    canMerge (s.attrEsets.getD i ∅) (s.attrEsets.getD j ∅) = true ∧ s.root i ≠ s.root j ∧
      ∃ merged other, sm.mergeRoots (s.dsStats.getD (s.root i) default)
          (s.dsStats.getD (s.root j) default) (getCommonRelation (s.attrEsets.getD (s.root i) ∅)
            (s.attrEsets.getD (s.root j) ∅)) = .ok (merged, other) ∧
        s' = s.link (s.root i) (s.root j) merged other := by
  unfold mergePair
  by_cases hcan : canMerge (s.attrEsets.getD i ∅) (s.attrEsets.getD j ∅) = true
  · rw [if_pos hcan]
    by_cases hroot : s.root i = s.root j
    · simp only [hcan, hroot, if_true, Except.ok.injEq, ne_eq, not_true, false_and, and_false, or_false,
        forall_const, true_and]
      exact eq_comm
    · show (if s.root i = s.root j then _ else _) = _ ↔ _
      rw [if_neg hroot, bind_eq_ok]
      simp only [hcan, hroot, forall_const, false_and, false_or, ne_eq, not_false_iff, true_and]
      constructor
      · rintro ⟨⟨merged, other⟩, hok, he⟩
        exact ⟨merged, other, hok, (Except.ok.inj he).symm⟩
      · rintro ⟨merged, other, hok, rfl⟩
        exact ⟨(merged, other), hok, rfl⟩
  · rw [if_neg hcan]
    simp only [hcan, Except.ok.injEq, false_and, or_false, IsEmpty.forall_iff, true_and, Bool.false_eq_true]
    exact eq_comm

/-! ## The invariant -/

/-- The loop over the classes `A` after the pairs `l`. -/
structure Looping (A : List AttrEset) (l : List (ℕ × ℕ)) (links : ℕ) (s : MergeLoop K) : Prop where
  length_parent : s.parent.length = A.length
  length_sets : s.attrEsets.length = A.length
  length_stats : s.dsStats.length = A.length
  settles : Settles s.up links
  links : links + ((Finset.range A.length).filter fun i => s.up i = i).card = A.length
  clustered : Clustered (relsAt A) s.root (relsAt s.attrEsets)
  done : ∀ ij ∈ l, (relsAt A ij.1 ∩ relsAt A ij.2).Nonempty → s.root ij.1 = s.root ij.2

/-- Where the loop starts. -/
def MergeLoop.start (A : List AttrEset) (dsStats : List (DSStatistic K)) : MergeLoop K :=
  { parent := List.range A.length, attrEsets := A, dsStats }

section

omit [Field K] [LinearOrder K] [FloorRing K]

theorem up_start (dsStats : List (DSStatistic K)) (i : ℕ) : (MergeLoop.start A dsStats).up i = i := by
  show (List.range A.length).getD i i = i
  rw [List.getD_eq_getElem?_getD]
  rcases lt_or_ge i A.length with hi | hi
  · rw [List.getElem?_range hi]
    rfl
  · rw [List.getElem?_eq_none (by simpa using hi)]
    rfl

theorem root_start (dsStats : List (DSStatistic K)) (i : ℕ) : (MergeLoop.start A dsStats).root i = i := by
  rw [MergeLoop.root_eq]
  exact Function.iterate_fixed (up_start dsStats i) _

theorem looping_start {dsStats : List (DSStatistic K)} (h : dsStats.length = A.length) :
    Looping A [] 0 (MergeLoop.start A dsStats) where
  length_parent := List.length_range
  length_sets := rfl
  length_stats := h
  settles i := up_start dsStats i
  links := by
    rw [Finset.filter_true_of_mem fun i _ => up_start dsStats i, Finset.card_range, zero_add]
  clustered := by
    have hid : (MergeLoop.start A dsStats).root = id := funext fun i => root_start dsStats i
    rw [hid]
    exact clustered_init _
  done ij hij := by cases hij

end

namespace Looping

section

omit [Field K] [LinearOrder K] [FloorRing K]

theorem links_le (h : Looping A l links s) : links ≤ s.parent.length := by
  have := h.links
  rw [h.length_parent]
  omega

theorem root_links (h : Looping A l links s) (i : ℕ) : s.root i = s.up^[links] i := by
  rw [MergeLoop.root_eq, h.settles.iterate_eq h.links_le]

theorem up_root (h : Looping A l links s) (i : ℕ) : s.up (s.root i) = s.root i := by
  rw [h.root_links, h.settles]

theorem up_eq_iff (h : Looping A l links s) (i : ℕ) : s.up i = i ↔ s.root i = i := by
  constructor
  · intro hi
    rw [MergeLoop.root_eq]
    exact Function.iterate_fixed hi _
  · intro hi
    rw [← hi, h.up_root]

/-- The relations of a root. -/
theorem mem_root (h : Looping A l links s) {rel : ℕ} : rel ∈ relsAt s.attrEsets (s.root i) ↔
    ∃ k ∈ cluster s.root i, rel ∈ relsAt A k := h.clustered.mem_root

theorem up_link {r1 r2 : ℕ} {merged other : DSStatistic K} (h2 : r2 < s.parent.length) :
    (s.link r1 r2 merged other).up = Function.update s.up r2 r1 := funext fun k => by
  show (s.parent.set r2 r1).getD k k = _
  rw [List.getD_eq_getElem?_getD, List.getElem?_set, Function.update_apply]
  by_cases hk : k = r2
  · rw [if_pos hk, if_pos hk.symm, if_pos h2]
    rfl
  · rw [if_neg hk, if_neg (Ne.symm hk), ← List.getD_eq_getElem?_getD]
    rfl

theorem relsAt_link {r1 r2 : ℕ} {merged other : DSStatistic K} (h1 : r1 < s.attrEsets.length) :
    relsAt (s.link r1 r2 merged other).attrEsets = Function.update (relsAt s.attrEsets) r1
      (relsAt s.attrEsets r1 ∪ relsAt s.attrEsets r2) := funext fun k => by
  rw [Function.update_apply]
  show {rel | rel ∈ AttrEset.rels ((s.attrEsets.set r1 _).getD k ∅)} = _
  rw [List.getD_eq_getElem?_getD, List.getElem?_set]
  by_cases hk : k = r1
  · rw [if_pos hk, if_pos hk.symm, if_pos h1]
    ext rel
    show rel ∈ AttrEset.rels (OrdSet.union _ _) ↔ rel ∈ AttrEset.rels _ ∨ rel ∈ AttrEset.rels _
    simp only [mem_rels, mem_union, or_and_right, exists_or]
  · rw [if_neg hk, if_neg (Ne.symm hk), ← List.getD_eq_getElem?_getD]
    rfl

/-- Two roots with classes below them are linked. -/
theorem root_link (h : Looping A l links s) (merged other : DSStatistic K) (hne : s.root i ≠ s.root j)
    (hj : s.root j < A.length) :
    let s' := s.link (s.root i) (s.root j) merged other
    Settles s'.up (links + 1) ∧
      links + 1 + ((Finset.range A.length).filter fun k => s'.up k = k).card = A.length ∧
      s'.root = Clustered.linkRoot s.root (s.root i) (s.root j) := by
  intro s'
  have hup : s'.up = Function.update s.up (s.root j) (s.root i) := up_link (h.length_parent ▸ hj)
  have hset : Settles s'.up (links + 1) := by
    rw [hup]
    exact h.settles.link (h.up_root i) (h.up_root j) hne
  have hcount : ((Finset.range A.length).filter fun k => s'.up k = k) =
      ((Finset.range A.length).filter fun k => s.up k = k).erase (s.root j) := by
    ext k
    rw [Finset.mem_erase, Finset.mem_filter, Finset.mem_filter, hup, Function.update_apply]
    by_cases hk : k = s.root j
    · rw [if_pos hk, hk]
      simp [hne]
    · rw [if_neg hk]
      simp [hk]
  have hmem : s.root j ∈ (Finset.range A.length).filter fun k => s.up k = k :=
    Finset.mem_filter.mpr ⟨Finset.mem_range.mpr hj, h.up_root j⟩
  have hlinks : links + 1 + ((Finset.range A.length).filter fun k => s'.up k = k).card = A.length := by
    have hpos := Finset.card_pos.mpr ⟨_, hmem⟩
    have hall := h.links
    rw [hcount, Finset.card_erase_of_mem hmem]
    omega
  refine ⟨hset, hlinks, funext fun k => ?_⟩
  have hle : links + 1 ≤ s'.parent.length := by
    show links + 1 ≤ (s.parent.set (s.root j) (s.root i)).length
    rw [List.length_set, h.length_parent]
    omega
  rw [MergeLoop.root_eq, hset.iterate_eq hle, hup,
    iterate_update (h.up_root i) (h.up_root j) hne (h.settles k), ← h.root_links]
  rfl

theorem root_lt (h : Looping A l links s) {rel : ℕ} (hrel : rel ∈ relsAt s.attrEsets i) :
    s.root i < A.length := by
  obtain ⟨k, hk, hrelk⟩ := h.clustered.high i rel hrel
  have hroot := h.clustered.gathered k hrelk
  rw [show s.root k = s.root i from hk] at hroot
  exact h.length_sets ▸ lt_of_mem_relsAt hroot

end

theorem step (h : Looping A l links s) (hok : sm.mergePair s (i, j) = .ok s') :
    ∃ links', Looping A (l ++ [(i, j)]) links' s' := by
  rcases mergePair_eq_ok.mp hok with ⟨hkeep, rfl⟩ | ⟨hcan, hne, merged, other, -, rfl⟩
  · refine ⟨links, { h with done := fun ij hij hshare => ?_ }⟩
    rcases List.mem_append.mp hij with hij | hij
    · exact h.done ij hij hshare
    · obtain rfl := List.mem_singleton.mp hij
      exact hkeep (canMerge_getD.mpr (hshare.mono (Set.inter_subset_inter (h.clustered.low i)
        (h.clustered.low j))))
  · obtain ⟨rel, hreli, hrelj⟩ := canMerge_getD.mp hcan
    have hi := h.root_lt hreli
    have hj := h.root_lt hrelj
    obtain ⟨hset, hlinks, hroot⟩ := h.root_link merged other hne hj
    have hrels : relsAt (s.link (s.root i) (s.root j) merged other).attrEsets = _ :=
      relsAt_link (h.length_sets ▸ hi)
    refine ⟨links + 1, ?_, ?_, ?_, hset, hlinks, ?_, fun ij hij hshare => ?_⟩
    · show (s.parent.set _ _).length = _
      rw [List.length_set, h.length_parent]
    · show (s.attrEsets.set _ _).length = _
      rw [List.length_set, h.length_sets]
    · show ((s.dsStats.set _ _).set _ _).length = _
      rw [List.length_set, List.length_set, h.length_stats]
    · rw [hroot, hrels]
      exact h.clustered.link hne hreli hrelj
    · rw [hroot]
      rcases List.mem_append.mp hij with hij | hij
      · rw [Clustered.linkRoot, Clustered.linkRoot, h.done ij hij hshare]
      · obtain rfl := List.mem_singleton.mp hij
        rw [Clustered.linkRoot, Clustered.linkRoot, if_neg hne, if_pos rfl]

section

omit [Field K] [LinearOrder K] [FloorRing K]

/-- After all pairs the roots are the connected components. -/
theorem components (h : Looping A (classPairs A.length) links s) (i j : ℕ) : s.root i = s.root j ↔
    (incidence (relsAt A) Set.univ).Reachable (.inl i) (.inl j) := by
  refine h.clustered.root_eq_iff fun i j hshare => ?_
  obtain ⟨rel, hi, hj⟩ := hshare
  rcases lt_trichotomy i j with hij | rfl | hij
  · exact h.done _ (mem_classPairs.mpr ⟨hij, lt_of_mem_relsAt hj⟩) ⟨rel, hi, hj⟩
  · rfl
  · exact (h.done _ (mem_classPairs.mpr ⟨hij, lt_of_mem_relsAt hi⟩) ⟨rel, hj, hi⟩).symm

/-- The relations of a root are those its class is connected with. -/
theorem rels_components (h : Looping A (classPairs A.length) links s) (hi : s.root i = i) (rel : ℕ) :
    rel ∈ relsAt s.attrEsets i ↔
      (incidence (relsAt A) Set.univ).Reachable (.inl i) (.inr rel) := by
  constructor
  · intro hrel
    obtain ⟨k, hk, hrelk⟩ := h.clustered.high i rel hrel
    exact ((h.components i k).mp hk.symm).trans (incidence_reachable (Set.mem_univ k) hrelk)
  · rintro ⟨p⟩
    -- the last class of the walk holds the relation
    obtain ⟨v, hadj, p', -⟩ := p.reverse.exists_eq_cons_of_ne Sum.inr_ne_inl
    rcases v with k | x
    · have hk := (h.components i k).mpr ⟨p'.reverse⟩
      rw [hi] at hk
      have hin := h.clustered.gathered k hadj.2
      rwa [← hk] at hin
    · exact absurd hadj id

end

end Looping

/-! ## The whole loop -/

variable {dsStats : List (DSStatistic K)}

theorem exists_looping (hlen : dsStats.length = A.length)
    (h : (classPairs A.length).foldlM sm.mergePair (.start A dsStats) = .ok s) :
    ∃ links, Looping A (classPairs A.length) links s := by
  suffices key : ∀ (l l' : List (ℕ × ℕ)) (b : MergeLoop K) (links : ℕ), Looping A l' links b →
      l.foldlM sm.mergePair b = .ok s → ∃ links, Looping A (l' ++ l) links s from
    key _ [] _ 0 (looping_start hlen) h
  intro l
  induction l with
  | nil =>
    intro l' b links hb hs
    obtain rfl := Except.ok.inj hs
    exact ⟨links, by simpa using hb⟩
  | cons ij l ih =>
    intro l' b links hb hs
    rw [List.foldlM_cons] at hs
    obtain ⟨c, hc, hs⟩ := bind_eq_ok.mp hs
    obtain ⟨links', hstep⟩ := hb.step hc
    obtain ⟨links'', hrest⟩ := ih (l' ++ [ij]) c links' hstep hs
    exact ⟨links'', by rwa [List.append_assoc, List.singleton_append] at hrest⟩

/-- A loop that returns has joined what is connected: every relation lies in the set of one root,
and two relations lie in one set when classes lead from one to the other. -/
theorem mergeLoop_components (hlen : dsStats.length = A.length)
    (h : (classPairs A.length).foldlM sm.mergePair (.start A dsStats) = .ok s) :
    (∀ e ∈ A, ∀ rel ∈ AttrEset.rels e, ∃! i, s.parent.getD i i = i ∧
      rel ∈ AttrEset.rels (s.attrEsets.getD i ∅)) ∧
    ∀ i, s.parent.getD i i = i → ∀ rel ∈ AttrEset.rels (s.attrEsets.getD i ∅), ∀ rel',
      rel' ∈ AttrEset.rels (s.attrEsets.getD i ∅) ↔
        Relation.ReflTransGen (fun r r' => ∃ e ∈ A, r ∈ AttrEset.rels e ∧ r' ∈ AttrEset.rels e) rel rel' := by
  obtain ⟨links, hloop⟩ := exists_looping hlen h
  have hclass : ∀ {k rel}, rel ∈ relsAt A k → A.getD k ∅ ∈ A := fun {k rel} hrel => by
    have hk := lt_of_mem_relsAt hrel
    rw [List.getD_eq_getElem _ _ hk]
    exact List.getElem_mem hk
  constructor
  · intro e he rel hrel
    obtain ⟨k, hk, rfl⟩ := List.mem_iff_getElem.mp he
    have hrelk : rel ∈ relsAt A k := by
      show rel ∈ AttrEset.rels (A.getD k ∅)
      rwa [List.getD_eq_getElem _ _ hk]
    refine ⟨s.root k, ⟨hloop.up_root k, hloop.clustered.gathered k hrelk⟩, ?_⟩
    rintro i ⟨hi, hreli⟩
    have hi' := (hloop.up_eq_iff i).mp hi
    have h1 := (hloop.rels_components hi' rel).mp hreli
    have h2 := incidence_reachable (Set.mem_univ k) hrelk
    rw [← hi', hloop.components]
    exact h1.trans h2.symm
  · intro i hi rel hrel rel'
    have hi' := (hloop.up_eq_iff i).mp hi
    have h1 := (hloop.rels_components hi' rel).mp hrel
    have hshare : (fun r r' => ∃ e ∈ A, r ∈ AttrEset.rels e ∧ r' ∈ AttrEset.rels e) =
        fun r r' => ∃ k, r ∈ relsAt A k ∧ r' ∈ relsAt A k := by
      ext r r'
      constructor
      · rintro ⟨e, he, hr, hr'⟩
        obtain ⟨k, hk, rfl⟩ := List.mem_iff_getElem.mp he
        refine ⟨k, ?_, ?_⟩
        · show r ∈ AttrEset.rels (A.getD k ∅)
          rwa [List.getD_eq_getElem _ _ hk]
        · show r' ∈ AttrEset.rels (A.getD k ∅)
          rwa [List.getD_eq_getElem _ _ hk]
      · rintro ⟨k, hr, hr'⟩
        exact ⟨_, hclass hr, hr, hr'⟩
    rw [hshare, ← incidence_reachable_iff]
    constructor
    · intro hrel'
      exact h1.symm.trans ((hloop.rels_components hi' rel').mp hrel')
    · intro hreach
      exact (hloop.rels_components hi' rel').mpr (h1.trans hreach)

/-- What holds of the statistics of single classes and is kept by a merge at the one relation two
clusters share holds of every root. -/
theorem mergeLoop_rule (hlen : dsStats.length = A.length)
    (hT : (incidence (relsAt A) Set.univ).IsAcyclic) (P : Set ℕ → DSStatistic K → Prop)
    (h0 : ∀ i < A.length, P {i} (dsStats.getD i default))
    (hstep : ∀ (C D : Set ℕ) (st1 st2 : DSStatistic K) (rel : ℕ), Disjoint C D →
      (∃ k ∈ C, rel ∈ relsAt A k) → (∃ k ∈ D, rel ∈ relsAt A k) →
      (∀ r, (∃ k ∈ C, r ∈ relsAt A k) → (∃ k ∈ D, r ∈ relsAt A k) → r = rel) → P C st1 → P D st2 →
      ∃ merged other, sm.mergeRoots st1 st2 rel = .ok (merged, other) ∧ P (C ∪ D) merged) :
    ∃ s links, (classPairs A.length).foldlM sm.mergePair (.start A dsStats) = .ok s ∧
      Looping A (classPairs A.length) links s ∧
      ∀ i < A.length, s.root i = i → P (cluster s.root i) (s.dsStats.getD i default) := by
  suffices hrun : ∃ s, (classPairs A.length).foldlM sm.mergePair (.start A dsStats) = .ok s ∧
      ∃ links, Looping A (classPairs A.length) links s ∧
        ∀ i < A.length, s.root i = i → P (cluster s.root i) (s.dsStats.getD i default) by
    obtain ⟨s, hs, links, hloop, hP⟩ := hrun
    exact ⟨s, links, hs, hloop, hP⟩
  refine foldlM_inv (fun l s => ∃ links, Looping A l links s ∧
    ∀ i < A.length, s.root i = i → P (cluster s.root i) (s.dsStats.getD i default)) ?_ ?_
  · refine ⟨0, looping_start hlen, fun i hi _ => ?_⟩
    have hcluster : cluster (MergeLoop.start A dsStats).root i = {i} := by
      ext k
      show (MergeLoop.start A dsStats).root k = (MergeLoop.start A dsStats).root i ↔ k = i
      rw [root_start, root_start]
    rw [hcluster]
    exact h0 i hi
  · rintro l ⟨i, j⟩ s - ⟨links, hloop, hP⟩
    by_cases hkeep : canMerge (s.attrEsets.getD i ∅) (s.attrEsets.getD j ∅) = true → s.root i = s.root j
    · have hok : sm.mergePair s (i, j) = .ok s := mergePair_eq_ok.mpr (.inl ⟨hkeep, rfl⟩)
      obtain ⟨links', hloop'⟩ := hloop.step hok
      exact ⟨s, hok, links', hloop', hP⟩
    · rw [Classical.not_imp] at hkeep
      obtain ⟨hcan, hne⟩ := hkeep
      obtain ⟨rel0, hrel0i, hrel0j⟩ := canMerge_getD.mp hcan
      have hi := hloop.root_lt hrel0i
      have hj := hloop.root_lt hrel0j
      have hri := hloop.clustered.root_root i
      have hrj := hloop.clustered.root_root j
      -- the relation the code picks is in both roots, and the only one
      have hcanroot : canMerge (s.attrEsets.getD (s.root i) ∅) (s.attrEsets.getD (s.root j) ∅) = true := by
        obtain ⟨k, hk, hrelk⟩ := hloop.clustered.high i rel0 hrel0i
        obtain ⟨k', hk', hrelk'⟩ := hloop.clustered.high j rel0 hrel0j
        exact canMerge_getD.mpr ⟨rel0, hloop.mem_root.mpr ⟨k, hk, hrelk⟩,
          hloop.mem_root.mpr ⟨k', hk', hrelk'⟩⟩
      obtain ⟨hcommon1, hcommon2⟩ := getCommonRelation_spec hcanroot
      set rel := getCommonRelation (s.attrEsets.getD (s.root i) ∅) (s.attrEsets.getD (s.root j) ∅)
        with hrel
      have hdisj : Disjoint (cluster s.root i) (cluster s.root j) :=
        Set.disjoint_left.mpr fun x hxi hxj => hne ((show s.root x = s.root i from hxi).symm.trans hxj)
      have hsame : ∀ k, cluster s.root (s.root k) = cluster s.root k := fun k => by
        ext x
        show s.root x = s.root (s.root k) ↔ s.root x = s.root k
        rw [hloop.clustered.root_root]
      obtain ⟨merged, other, hmerge, hPm⟩ := hstep (cluster s.root i) (cluster s.root j) _ _ rel hdisj
        (hloop.mem_root.mp hcommon1) (hloop.mem_root.mp hcommon2)
        (fun r hr1 hr2 => hloop.clustered.common_unique hT hne (hloop.mem_root.mpr hr1)
          (hloop.mem_root.mpr hr2) hcommon1 hcommon2)
        (hsame i ▸ hP _ hi hri) (hsame j ▸ hP _ hj hrj)
      have hok : sm.mergePair s (i, j) = .ok (s.link (s.root i) (s.root j) merged other) :=
        mergePair_eq_ok.mpr (.inr ⟨hcan, hne, merged, other, hmerge, rfl⟩)
      obtain ⟨links', hloop'⟩ := hloop.step hok
      refine ⟨_, hok, links', hloop', fun k hk hroot => ?_⟩
      obtain ⟨-, -, hlink⟩ := hloop.root_link merged other hne hj
      rw [hlink] at hroot ⊢
      show P _ (((s.dsStats.set (s.root j) other).set (s.root i) merged).getD k default)
      rw [List.getD_eq_getElem?_getD, List.getElem?_set, List.length_set]
      by_cases hki : k = s.root i
      · rw [hki, Clustered.cluster_link_left hri (.inl hri), if_pos rfl,
          if_pos (hloop.length_stats ▸ hi), hsame]
        exact hPm
      · have hkroot : s.root k ≠ s.root j := fun h => by
          rw [Clustered.linkRoot, if_pos h] at hroot
          exact hki hroot.symm
        have hkk : s.root k = k := by rwa [Clustered.linkRoot, if_neg hkroot] at hroot
        rw [Clustered.cluster_link_other (hkk.symm ▸ hki) hkroot, if_neg (Ne.symm hki), List.getElem?_set,
          if_neg fun h => hkroot (by rw [← h, hrj]), ← List.getD_eq_getElem?_getD]
        exact hP k hk hkk

end StatisticManager

end StarCE
