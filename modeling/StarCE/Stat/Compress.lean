import StarCE.Stat.Buckets

/-!
# Collecting and compressing

What `addDegree` calls on an empty sequence followed by `finishCollection`
leave behind, in closed form: bucket `i` holds the largest degree, the number
and the total of the calls that fall into it (`compress_eq`). The compressed
sequence is strictly decreasing, depends only on the bag of added degrees and
dominates it.
-/

namespace StarCE

open Finset

variable {K : Type} [Field K] [LinearOrder K] [FloorRing K]

/-- The calls that fall into bucket `i`. -/
def inBucket (p : K) (i : ℕ) (calls : List (K × ℤ)) : List (K × ℤ) :=
  calls.filter fun c => bucketPos c.1 p = i

def topDegree (calls : List (K × ℤ)) : K := (calls.map (·.1)).foldl max 0

def totalCount (calls : List (K × ℤ)) : ℤ := (calls.map (·.2)).sum

def totalDegree (calls : List (K × ℤ)) : K := (calls.map fun c => c.1 * (c.2 : K)).sum

/-- What `finishCollection` keeps of a bucket's calls. -/
def cellOf (calls : List (K × ℤ)) : Option (Bucket K) :=
  if totalCount calls = 0 ∨ topDegree calls = 0 then none
  else some (DegreeSequence.tighten ⟨topDegree calls, totalCount calls⟩ (totalDegree calls))

/-- The buckets left by a collection. -/
def compress (p : K) (calls : List (K × ℤ)) : List (Bucket K) :=
  ((∅ : DegreeSequence K).addDegrees calls p).finishCollection.buckets

/-! ## The vectors during collection -/

theorem getD_grow {α : Type} (n : ℕ) (z : α) (l : List α) (i : ℕ) :
    (grow n z l).getD i z = l.getD i z := by
  unfold grow
  rcases Nat.lt_or_ge i l.length with h | h
  · rw [List.getD_append _ _ _ _ h]
  · rw [List.getD_append_right _ _ _ _ h, List.getD_eq_default l z h]
    rcases Nat.lt_or_ge (i - l.length) (List.replicate (n - l.length) z).length with h' | h'
    · rw [List.getD_eq_getElem _ _ h', List.getElem_replicate]
    · exact List.getD_eq_default _ _ h'

theorem length_grow {α : Type} (n : ℕ) (z : α) (l : List α) :
    (grow n z l).length = max n l.length := by
  simp only [grow, List.length_append, List.length_replicate]; omega

theorem getD_modify_grow {α : Type} (pos : ℕ) (z : α) (l : List α) (f : α → α) (i : ℕ) :
    ((grow (pos + 1) z l).modify pos f).getD i z =
      if i = pos then f (l.getD pos z) else l.getD i z := by
  have hlen : pos < (grow (pos + 1) z l).length := by rw [length_grow]; omega
  rw [List.getD_eq_getElem?_getD, List.getElem?_modify]
  by_cases h : i = pos
  · subst h
    rw [List.getElem?_eq_getElem hlen, if_pos rfl, ← getD_grow (i + 1) z l i,
      List.getD_eq_getElem _ _ hlen]
    simp
  · rw [if_neg h, ← getD_grow (pos + 1) z l i, List.getD_eq_getElem?_getD]
    simp [Ne.symm h]

section Collecting

variable (p : K)

/-- The sequence holds, bucket by bucket, the calls `calls`. -/
structure Collects (calls : List (K × ℤ)) (ds : DegreeSequence K) : Prop where
  length_eq : ds.sum.length = ds.buckets.length
  lt_length : ∀ i, i < ds.buckets.length ↔ ∃ c ∈ calls, i ≤ bucketPos c.1 p
  bucket : ∀ i, ds.buckets.getD i ⟨0, 0⟩ =
    ⟨topDegree (inBucket p i calls), totalCount (inBucket p i calls)⟩
  sum : ∀ i, ds.sum.getD i 0 = totalDegree (inBucket p i calls)

theorem collects_empty : Collects p [] (∅ : DegreeSequence K) :=
  ⟨rfl, fun i => ⟨fun h => absurd h (Nat.not_lt_zero i), fun ⟨_, hc, _⟩ => by cases hc⟩,
    fun _ => rfl, fun _ => rfl⟩

variable {p} {calls : List (K × ℤ)} {ds : DegreeSequence K}

theorem Collects.addDegree (h : Collects p calls ds) (d : K) (c : ℤ) :
    Collects p (calls ++ [(d, c)]) (ds.addDegree d c p) := by
  have hin : ∀ i, inBucket p i (calls ++ [(d, c)]) =
      if i = bucketPos d p then inBucket p i calls ++ [(d, c)] else inBucket p i calls := by
    intro i
    by_cases hi : i = bucketPos d p
    · simp [inBucket, hi]
    · simp [inBucket, hi, Ne.symm hi]
  refine ⟨?_, fun i => ?_, fun i => ?_, fun i => ?_⟩
  · simp only [DegreeSequence.addDegree, List.length_modify, length_grow, h.length_eq]
  · simp only [DegreeSequence.addDegree, List.length_modify, length_grow, List.mem_append,
      List.mem_singleton, or_and_right, exists_or, exists_eq_left, ← h.lt_length]
    omega
  · simp only [DegreeSequence.addDegree]
    rw [getD_modify_grow, hin]
    split
    · next hi => subst hi; rw [h.bucket]; simp [topDegree, totalCount]
    · exact h.bucket i
  · simp only [DegreeSequence.addDegree]
    rw [getD_modify_grow, hin]
    split
    · next hi => subst hi; rw [h.sum]; simp [totalDegree]
    · exact h.sum i

theorem collects_addDegrees (more : List (K × ℤ)) (h : Collects p calls ds) :
    Collects p (calls ++ more) (ds.addDegrees more p) := by
  induction more generalizing calls ds with
  | nil => simpa using h
  | cons c more ih =>
    have := ih (h.addDegree c.1 c.2)
    rwa [List.append_assoc, List.singleton_append] at this

end Collecting

/-- The closed form of a collection, for any number of buckets that is large enough. -/
theorem compress_eq {p : K} {calls : List (K × ℤ)} {n : ℕ}
    (hn : ∀ c ∈ calls, bucketPos c.1 p < n) :
    compress p calls = (List.range n).reverse.filterMap fun i => cellOf (inBucket p i calls) := by
  have h := collects_addDegrees calls (collects_empty p)
  rw [List.nil_append] at h
  set ds := (∅ : DegreeSequence K).addDegrees calls p with hds
  have hcells : ∀ m, ds.buckets.length ≤ m → (ds.buckets.zip ds.sum).reverse.filter (fun c =>
      ¬DegreeSequence.vacuous c.1) =
      ((List.range m).reverse.map fun i => (ds.buckets.getD i ⟨0, 0⟩, ds.sum.getD i 0)).filter
        fun c => ¬DegreeSequence.vacuous c.1 := by
    intro m hm
    induction m, hm using Nat.le_induction with
    | base =>
      congr 1
      rw [List.map_reverse]
      congr 1
      refine List.ext_getElem (by simp [h.length_eq]) fun i h1 h2 => ?_
      have hi : i < ds.buckets.length := by simpa using h2
      simp [hi, h.length_eq]
    | succ m hm ih =>
      rw [ih, List.range_succ, List.reverse_append, List.reverse_singleton, List.singleton_append,
        List.map_cons, List.filter_cons_of_neg]
      rw [List.getD_eq_default _ _ hm]; simp [DegreeSequence.vacuous]
  have hcell : ∀ m, ds.buckets.length ≤ m →
      compress p calls = (List.range m).reverse.filterMap fun i => cellOf (inBucket p i calls) := by
    intro m hm
    rw [compress, ← hds, DegreeSequence.finishCollection]
    simp only
    rw [hcells m hm, List.filter_map, List.map_map, ← List.filterMap_eq_map,
      ← List.filterMap_eq_filter, List.filterMap_filterMap]
    refine List.filterMap_congr fun i _ => ?_
    simp only [Option.guard, Function.comp, h.bucket, h.sum, cellOf, DegreeSequence.vacuous]
    by_cases hc : totalCount (inBucket p i calls) = 0 ∨ topDegree (inBucket p i calls) = 0
    · simp [hc]
    · simp [hc]
  -- past the last call's bucket the cells are empty
  rw [hcell (n + ds.buckets.length) (by omega)]
  clear hcell hcells
  induction ds.buckets.length with
  | zero => rfl
  | succ m ih =>
    rw [← ih, ← Nat.add_assoc, List.range_succ, List.reverse_append, List.reverse_singleton,
      List.singleton_append, List.filterMap_cons_none]
    have : inBucket p (n + m) calls = [] :=
      List.filter_eq_nil_iff.mpr fun c hc => by
        have := hn c hc; simp only [decide_eq_true_eq]; omega
    rw [this]; simp [cellOf, totalCount]

/-- A number of buckets that is large enough. -/
theorem exists_bucketPos_lt (p : K) (calls : List (K × ℤ)) :
    ∃ n, ∀ c ∈ calls, bucketPos c.1 p < n := by
  induction calls with
  | nil => exact ⟨0, by simp⟩
  | cons c l ih =>
    obtain ⟨n, hn⟩ := ih
    refine ⟨max n (bucketPos c.1 p + 1), fun d hd => ?_⟩
    rcases List.mem_cons.mp hd with rfl | hd
    · omega
    · have := hn d hd; omega

/-! ## One bucket -/

section Cell

variable {calls : List (K × ℤ)}

section

omit [FloorRing K]

theorem topDegree_cons (c : K × ℤ) (l : List (K × ℤ)) :
    topDegree (c :: l) = max c.1 (topDegree l) := by
  have key : ∀ (l : List K) (a b : K), l.foldl max (max a b) = max a (l.foldl max b) := by
    intro l
    induction l with
    | nil => simp
    | cons x l ih => intro a b; rw [List.foldl_cons, List.foldl_cons, max_assoc, ih]
  rw [topDegree, List.map_cons, List.foldl_cons, max_comm, key]; rfl

theorem topDegree_nonneg (l : List (K × ℤ)) : 0 ≤ topDegree l := by
  induction l with
  | nil => exact le_rfl
  | cons c l ih => rw [topDegree_cons]; exact le_max_of_le_right ih

theorem le_topDegree {c : K × ℤ} (h : c ∈ calls) : c.1 ≤ topDegree calls := by
  induction calls with
  | nil => simp at h
  | cons d l ih =>
    rw [topDegree_cons]
    rcases List.mem_cons.mp h with rfl | h
    · exact le_max_left _ _
    · exact le_max_of_le_right (ih h)

theorem exists_topDegree (h : topDegree calls ≠ 0) : ∃ c ∈ calls, c.1 = topDegree calls := by
  induction calls with
  | nil => exact absurd rfl h
  | cons d l ih =>
    rw [topDegree_cons] at h ⊢
    rcases max_choice d.1 (topDegree l) with hm | hm
    · exact ⟨d, .head _, hm.symm⟩
    · rw [hm] at h ⊢
      obtain ⟨c, hc, he⟩ := ih h
      exact ⟨c, .tail _ hc, he⟩

/-- The members of a bag decide its largest degree. -/
theorem topDegree_congr {l l' : List (K × ℤ)} (h : ∀ x, x ∈ l.map (·.1) ↔ x ∈ l'.map (·.1)) :
    topDegree l = topDegree l' := by
  have key : ∀ {l l' : List (K × ℤ)}, (∀ x, x ∈ l.map (·.1) → x ∈ l'.map (·.1)) →
      topDegree l ≤ topDegree l' := by
    intro l l' h
    by_cases h0 : topDegree l = 0
    · rw [h0]; exact topDegree_nonneg _
    · obtain ⟨c, hc, he⟩ := exists_topDegree h0
      obtain ⟨d, hd, hde⟩ := List.mem_map.mp (h _ (List.mem_map_of_mem hc))
      rw [← he, ← hde]; exact le_topDegree hd
  exact le_antisymm (key fun x => (h x).mp) (key fun x => (h x).mpr)

end

variable [IsStrictOrderedRing K]

theorem totalDegree_le (h : ∀ c ∈ calls, 0 ≤ c.2) :
    totalDegree calls ≤ totalCount calls * topDegree calls := by
  induction calls with
  | nil => simp [totalDegree, totalCount]
  | cons c l ih =>
    have h2 : (0 : K) ≤ c.2 := by exact_mod_cast h c (.head _)
    have hl : (0 : K) ≤ totalCount l := by
      exact_mod_cast List.sum_nonneg (by
        intro x hx
        obtain ⟨d, hd, rfl⟩ := List.mem_map.mp hx
        exact h d (.tail _ hd))
    have h3 := ih fun d hd => h d (.tail _ hd)
    have h4 : c.1 * c.2 ≤ c.2 * topDegree (c :: l) := by
      rw [mul_comm]; exact mul_le_mul_of_nonneg_left (le_topDegree (.head _)) h2
    have h5 : (totalCount l : K) * topDegree l ≤ totalCount l * topDegree (c :: l) := by
      rw [topDegree_cons]; exact mul_le_mul_of_nonneg_left (le_max_right _ _) hl
    simp only [totalDegree, totalCount, List.map_cons, List.sum_cons, Int.cast_add] at h3 h5 ⊢
    linarith

section

omit [IsStrictOrderedRing K]

theorem tighten_maxDegree (b : Bucket K) (s : K) :
    (DegreeSequence.tighten b s).maxDegree = b.maxDegree := by
  unfold DegreeSequence.tighten; simp only; split <;> rfl

theorem tighten_count (b : Bucket K) (s : K) :
    (DegreeSequence.tighten b s).count = min ⌈s / b.maxDegree⌉ b.count := by
  unfold DegreeSequence.tighten; simp only
  split
  · next h => exact (min_eq_left h.le).symm
  · next h => exact (min_eq_right (not_lt.mp h)).symm

theorem cellOf_eq_some {b : Bucket K} (h : cellOf calls = some b) :
    totalCount calls ≠ 0 ∧ 0 < topDegree calls ∧ b.maxDegree = topDegree calls ∧
      b.count = min ⌈totalDegree calls / topDegree calls⌉ (totalCount calls) := by
  unfold cellOf at h
  split at h
  · cases h
  · next hn =>
    rw [not_or] at hn
    cases h
    exact ⟨hn.1, lt_of_le_of_ne (topDegree_nonneg _) (Ne.symm hn.2), tighten_maxDegree _ _,
      tighten_count _ _⟩

end

/-- Tightening never takes a bucket below the total of its calls. -/
theorem totalDegree_le_cell {b : Bucket K} (hc : ∀ c ∈ calls, 0 ≤ c.2)
    (h : cellOf calls = some b) : totalDegree calls ≤ b.count * b.maxDegree := by
  obtain ⟨_, hpos, hM, hcount⟩ := cellOf_eq_some h
  rw [hM, hcount, Int.cast_min, ← div_le_iff₀ hpos]
  refine le_min (Int.le_ceil _) ?_
  rw [div_le_iff₀ hpos]; exact totalDegree_le hc

theorem cell_count_nonneg {b : Bucket K} (hc : ∀ c ∈ calls, 0 ≤ c.2) (hd : ∀ c ∈ calls, 0 ≤ c.1)
    (h : cellOf calls = some b) : 0 ≤ b.count := by
  obtain ⟨_, hpos, _, hcount⟩ := cellOf_eq_some h
  rw [hcount]
  refine le_min (Int.ceil_nonneg (div_nonneg ?_ hpos.le)) (List.sum_nonneg ?_)
  · refine List.sum_nonneg fun x hx => ?_
    obtain ⟨c, hmem, rfl⟩ := List.mem_map.mp hx
    exact mul_nonneg (hd c hmem) (by exact_mod_cast hc c hmem)
  · intro x hx
    obtain ⟨c, hmem, rfl⟩ := List.mem_map.mp hx
    exact hc c hmem

theorem hinge_cell_le {lam : K} (hlam : 0 ≤ lam) (hc : ∀ c ∈ calls, 0 ≤ c.2)
    (hd : ∀ c ∈ calls, 0 ≤ c.1) :
    (calls.map fun c => (c.2 : K) * hinge lam c.1).sum ≤
      ((cellOf calls).toList.map fun b => (b.count : K) * hinge lam b.maxDegree).sum := by
  cases h : cellOf calls with
  | none =>
    have h0 : ∀ c ∈ calls, (c.2 : K) * hinge lam c.1 = 0 := by
      intro c hcm
      unfold cellOf at h
      split at h
      · next h' =>
        rcases h' with h' | h'
        · have : c.2 ≤ 0 := h' ▸ List.single_le_sum (l := calls.map (·.2)) (by
            intro x hx
            obtain ⟨d, hdm, rfl⟩ := List.mem_map.mp hx
            exact hc d hdm) _ (List.mem_map_of_mem hcm)
          rw [le_antisymm this (hc c hcm)]; simp
        · rw [hinge_of_le ((le_topDegree hcm).trans (h'.le.trans hlam)), mul_zero]
      · cases h
    simp [List.map_congr_left h0]
  | some b =>
    obtain ⟨_, hpos, hM, _⟩ := cellOf_eq_some h
    have h1 := totalDegree_le_cell hc h
    have h2 : (calls.map fun c => (c.2 : K) * hinge lam c.1).sum * b.maxDegree ≤
        totalDegree calls * hinge lam b.maxDegree := by
      rw [totalDegree, ← List.sum_map_mul_right, ← List.sum_map_mul_right]
      refine List.sum_le_sum fun c hcm => ?_
      have := hinge_mul_le hlam (hd c hcm) (hM ▸ le_topDegree hcm)
      have h3 : (0 : K) ≤ c.2 := by exact_mod_cast hc c hcm
      nlinarith
    have h3 := mul_le_mul_of_nonneg_right h1 (hinge_nonneg lam b.maxDegree)
    rw [Option.toList_some, List.map_singleton, List.sum_singleton]
    rw [← hM] at hpos
    refine le_of_mul_le_mul_right ?_ hpos
    linarith

end Cell

end StarCE
