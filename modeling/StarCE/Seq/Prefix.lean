import Mathlib

/-!
# Prefix sums and rank domination

A finite family `f` is dominated by a sequence `g` (`Dominates g f`) when no
choice of `k` members of `f` sums to more than the first `k` entries of `g`.
For a non-increasing `g` this is the comparison of sorted prefix sums, without
sorting `f`. Products of dominated families are dominated by the rank-wise
product (`Dominates.mul`), and cutting a family at a total weight by the
greedy fill of the sequence (`sum_mul_le_fill`).
-/

namespace StarCE

open Finset

variable {K : Type} [Field K] {ι : Type}

/-- The sum of the first `k` entries. -/
def pre (g : ℕ → K) (k : ℕ) : K := ∑ i ∈ range k, g i

/-- The `i`-th entry of a list, zero past its end. -/
def entry (l : List K) (i : ℕ) : K := l.getD i 0

@[simp] theorem pre_zero (g : ℕ → K) : pre g 0 = 0 := by simp [pre]

theorem pre_succ (g : ℕ → K) (k : ℕ) : pre g (k + 1) = pre g k + g k := sum_range_succ g k

theorem pre_add (g : ℕ → K) (m n : ℕ) : pre g (m + n) = pre g m + pre (fun i => g (m + i)) n :=
  sum_range_add g m n

theorem pre_congr {g g' : ℕ → K} {k : ℕ} (h : ∀ i < k, g i = g' i) : pre g k = pre g' k :=
  sum_congr rfl fun i hi => h i (mem_range.mp hi)

/-! ## Lists as sequences -/

@[simp] theorem entry_nil (i : ℕ) : entry ([] : List K) i = 0 := by simp [entry]

@[simp] theorem entry_cons_zero (a : K) (l : List K) : entry (a :: l) 0 = a := by simp [entry]

@[simp] theorem entry_cons_succ (a : K) (l : List K) (i : ℕ) :
    entry (a :: l) (i + 1) = entry l i := by simp [entry]

theorem entry_of_le {l : List K} {i : ℕ} (h : l.length ≤ i) : entry l i = 0 := by
  simp [entry, List.getElem?_eq_none h]

theorem entry_of_lt {l : List K} {i : ℕ} (h : i < l.length) : entry l i = l[i] := by
  simp [entry, h]

theorem pre_entry (l : List K) (k : ℕ) : pre (entry l) k = (l.take k).sum := by
  induction l generalizing k with
  | nil => simp [pre]
  | cons a l ih =>
    cases k with
    | zero => simp
    | succ k =>
      have := pre_add (entry (a :: l)) 1 k
      rw [Nat.add_comm] at this
      rw [this, List.take_succ_cons, List.sum_cons, ← ih]
      simp [pre, Nat.add_comm 1]

theorem pre_entry_length (l : List K) : pre (entry l) l.length = l.sum := by
  rw [pre_entry, List.take_length]

theorem pre_entry_of_le {l : List K} {k : ℕ} (h : l.length ≤ k) : pre (entry l) k = l.sum := by
  rw [pre_entry, List.take_of_length_le h]

theorem entry_map_mul (f g : ι → K) (l : List ι) (i : ℕ) :
    entry (l.map fun x => f x * g x) i = entry (l.map f) i * entry (l.map g) i := by
  rcases Nat.lt_or_ge i l.length with hi | hi
  · simp [entry_of_lt, hi]
  · simp [entry_of_le, hi]

theorem sum_toFinset_eq [DecidableEq ι] {l : List ι} (hl : l.Nodup) (f : ι → K) :
    ∑ i ∈ l.toFinset, f i = ∑ r ∈ range l.length, entry (l.map f) r := by
  rw [List.sum_toFinset f hl, ← pre_entry_length, List.length_map]; rfl

variable [LinearOrder K]

/-- No `k` members of `f` sum to more than the first `k` entries of `g`. -/
def Dominates (g : ℕ → K) (f : ι → K) : Prop := ∀ s : Finset ι, ∑ i ∈ s, f i ≤ pre g s.card

/-- The share of entry `r` when `x` is poured into the entries of `A` in order. -/
def fill (A : ℕ → K) (x : K) (r : ℕ) : K := min (pre A (r + 1)) x - min (pre A r) x

/-- What the first `x` units of the layout weigh: `A r` units of weight `B r`
for each rank `r < n`, in order of rank. -/
def layout (n : ℕ) (A B : ℕ → K) (x : K) : K := ∑ r ∈ range n, fill A x r * B r

theorem layout_congr {A A' B B' : ℕ → K} {n : ℕ} (hA : ∀ i < n, A i = A' i)
    (hB : ∀ i < n, B i = B' i) (x : K) : layout n A B x = layout n A' B' x := by
  refine sum_congr rfl fun r hr => ?_
  have hr := mem_range.mp hr
  rw [fill, fill, hB r hr, pre_congr (k := r) fun i hi => hA i (hi.trans hr),
    pre_congr (k := r + 1) fun i hi => hA i (by omega)]

theorem entry_nonneg {l : List K} (h : ∀ x ∈ l, 0 ≤ x) (i : ℕ) : 0 ≤ entry l i := by
  rcases Nat.lt_or_ge i l.length with hi | hi
  · rw [entry_of_lt hi]; exact h _ (List.getElem_mem hi)
  · rw [entry_of_le hi]

theorem entry_antitone {l : List K} (h0 : ∀ x ∈ l, 0 ≤ x) (h : l.Pairwise (· ≥ ·)) :
    Antitone (entry l) := by
  intro i j hij
  rcases Nat.lt_or_ge j l.length with hj | hj
  · rcases hij.eq_or_lt with rfl | hlt
    · exact le_rfl
    · rw [entry_of_lt hj, entry_of_lt (hlt.trans hj)]
      exact List.pairwise_iff_getElem.mp h i j _ hj hlt
  · rw [entry_of_le hj]; exact entry_nonneg h0 i

theorem Dominates.mono {g h : ℕ → K} {f : ι → K} (hf : Dominates g f)
    (hgh : ∀ k, pre g k ≤ pre h k) : Dominates h f := fun s => (hf s).trans (hgh _)

theorem pre_fill {A : ℕ → K} {x : K} (hx : 0 ≤ x) (k : ℕ) :
    pre (fill A x) k = min (pre A k) x := by
  induction k with
  | zero => simp [hx]
  | succ k ih => rw [pre_succ, ih, fill]; ring

variable [IsStrictOrderedRing K]

theorem pre_mono {g : ℕ → K} (hg : ∀ i, 0 ≤ g i) : Monotone (pre g) :=
  monotone_nat_of_le_succ fun k => by rw [pre_succ]; linarith [hg k]

theorem pre_nonneg {g : ℕ → K} (hg : ∀ i, 0 ≤ g i) (k : ℕ) : 0 ≤ pre g k :=
  sum_nonneg fun i _ => hg i

/-- The first entries of a non-increasing sequence are above its average. -/
theorem pre_mul_le_pre_mul {g : ℕ → K} (hg : Antitone g) {j n : ℕ} (h : j ≤ n) :
    pre g n * j ≤ pre g j * n := by
  obtain ⟨m, rfl⟩ := Nat.exists_eq_add_of_le h
  have hfirst : (j : K) * g j ≤ pre g j := by
    have := card_nsmul_le_sum (range j) g (g j) fun i hi => hg (mem_range.mp hi).le
    rwa [card_range, nsmul_eq_mul] at this
  have hrest : pre (fun i => g (j + i)) m ≤ m * g j := by
    have := sum_le_card_nsmul (range m) (fun i => g (j + i)) (g j) fun i _ =>
      hg (Nat.le_add_right j i)
    rwa [card_range, nsmul_eq_mul] at this
  have hj : (0 : K) ≤ j := Nat.cast_nonneg j
  have hm : (0 : K) ≤ m := Nat.cast_nonneg m
  rw [pre_add, Nat.cast_add]
  nlinarith [mul_le_mul_of_nonneg_right hrest hj, mul_le_mul_of_nonneg_left hfirst hm]

/-! ## Summation by parts -/

/-- Weighting by a non-increasing sequence keeps a comparison of prefix sums. -/
theorem sum_mul_le_of_pre_le {c x y : ℕ → K} {n : ℕ} (hc : Antitone c) (hc0 : ∀ i, 0 ≤ c i)
    (h : ∀ k ≤ n, pre x k ≤ pre y k) :
    ∑ i ∈ range n, c i * x i ≤ ∑ i ∈ range n, c i * y i := by
  -- the gap is kept at `c n` times the difference of the prefix sums
  have key : ∀ m ≤ n, c m * (pre y m - pre x m) ≤
      ∑ i ∈ range m, c i * y i - ∑ i ∈ range m, c i * x i := by
    intro m
    induction m with
    | zero => simp
    | succ m ih =>
      intro hm
      have h1 := ih (by omega)
      have h2 : 0 ≤ pre y (m + 1) - pre x (m + 1) := sub_nonneg.mpr (h _ hm)
      have h3 := mul_le_mul_of_nonneg_right (hc (Nat.le_succ m)) h2
      rw [sum_range_succ, sum_range_succ]
      rw [pre_succ, pre_succ] at h3 ⊢
      linarith
  have := mul_nonneg (hc0 n) (sub_nonneg.mpr (h n le_rfl))
  linarith [key n le_rfl]

/-! ## Domination -/

/-- A finite set, listed with a given weight non-increasing. -/
theorem exists_antitone_list {K : Type} [LinearOrder K] [DecidableEq ι] (s : Finset ι) (b : ι → K) :
    ∃ l : List ι, l.Nodup ∧ l.toFinset = s ∧ (l.map b).Pairwise (· ≥ ·) := by
  classical
  let r : ι → ι → Prop := fun i j => b j ≤ b i
  have : Std.Total r := ⟨fun i j => le_total (b j) (b i)⟩
  have : IsTrans ι r := ⟨fun _ _ _ h1 h2 => le_trans h2 h1⟩
  have hp := List.perm_insertionSort r s.toList
  refine ⟨s.toList.insertionSort r, hp.nodup_iff.mpr s.nodup_toList, ?_, ?_⟩
  · rw [List.toFinset_eq_of_perm _ _ hp, Finset.toList_toFinset]
  · exact List.pairwise_map.mpr (List.pairwise_insertionSort r _)

section List

variable [DecidableEq ι] {l : List ι}

/-- A listed part of a dominated family has dominated prefix sums. -/
theorem Dominates.pre_list {g : ℕ → K} {f : ι → K} (h : Dominates g f) (hg : ∀ i, 0 ≤ g i)
    (hl : l.Nodup) (k : ℕ) : pre (entry (l.map f)) k ≤ pre g k := by
  have hn : (l.take k).Nodup := hl.sublist (List.take_sublist k l)
  have h1 := h (l.take k).toFinset
  rw [List.sum_toFinset f hn, List.toFinset_card_of_nodup hn, List.map_take] at h1
  rw [pre_entry]
  exact h1.trans (pre_mono hg (by simp))

end List

/-- The rank-wise product bounds the sum of products of two dominated families. -/
theorem sum_mul_le_of_dominates {A B : ℕ → K} {a b : ι → K} (hA : Antitone A) (hB : ∀ i, 0 ≤ B i)
    (hA0 : ∀ i, 0 ≤ A i) (hb : ∀ i, 0 ≤ b i) (ha : Dominates A a) (hdb : Dominates B b)
    (s : Finset ι) : ∑ i ∈ s, a i * b i ≤ pre (fun r => A r * B r) s.card := by
  classical
  obtain ⟨l, hl, rfl, hs⟩ := exists_antitone_list s b
  have hb0 : ∀ x ∈ l.map b, (0 : K) ≤ x := by
    intro x hx; obtain ⟨i, _, rfl⟩ := List.mem_map.mp hx; exact hb i
  have hanti := entry_antitone hb0 hs
  rw [sum_toFinset_eq hl, List.toFinset_card_of_nodup hl]
  calc ∑ r ∈ range l.length, entry (l.map fun i => a i * b i) r
      = ∑ r ∈ range l.length, entry (l.map b) r * entry (l.map a) r :=
        sum_congr rfl fun r _ => by rw [entry_map_mul, mul_comm]
    _ ≤ ∑ r ∈ range l.length, entry (l.map b) r * A r :=
        sum_mul_le_of_pre_le hanti (entry_nonneg hb0) fun k _ => ha.pre_list hA0 hl k
    _ = ∑ r ∈ range l.length, A r * entry (l.map b) r := sum_congr rfl fun r _ => mul_comm _ _
    _ ≤ ∑ r ∈ range l.length, A r * B r :=
        sum_mul_le_of_pre_le hA hA0 fun k _ => hdb.pre_list hB hl k

theorem Dominates.mul {A B : ℕ → K} {a b : ι → K} (hA : Antitone A) (hA0 : ∀ i, 0 ≤ A i)
    (hB : ∀ i, 0 ≤ B i) (hb : ∀ i, 0 ≤ b i) (ha : Dominates A a) (hdb : Dominates B b) :
    Dominates (fun r => A r * B r) fun i => a i * b i :=
  sum_mul_le_of_dominates hA hB hA0 hb ha hdb

/-! ## Greedy fill -/

theorem fill_nonneg {A : ℕ → K} (hA0 : ∀ i, 0 ≤ A i) (x : K) (r : ℕ) : 0 ≤ fill A x r :=
  sub_nonneg.mpr (min_le_min_right x (pre_mono hA0 (Nat.le_succ r)))

theorem fill_le {A : ℕ → K} (hA0 : ∀ i, 0 ≤ A i) (x : K) (r : ℕ) : fill A x r ≤ A r := by
  have h0 := hA0 r
  simp only [fill, pre_succ]
  rcases le_total (pre A r) x with h | h
  · rw [min_eq_left h]; linarith [min_le_left (pre A r + A r) x]
  · rw [min_eq_right h]; linarith [min_le_right (pre A r + A r) x]

theorem fill_antitone {A : ℕ → K} (hA : Antitone A) (hA0 : ∀ i, 0 ≤ A i) (x : K) :
    Antitone (fill A x) := by
  refine antitone_nat_of_succ_le fun r => ?_
  have h1 := hA (Nat.le_succ r)
  have h0 := hA0 (r + 1)
  have h2 := fill_le hA0 x (r + 1)
  simp only [fill, pre_succ] at h2 ⊢
  rcases le_total (pre A r + A r) x with h | h
  · have : pre A r ≤ x := by linarith [hA0 r]
    rw [min_eq_left h, min_eq_left this] at *
    linarith
  · rw [min_eq_right h, min_eq_right (by linarith : x ≤ pre A r + A r + A (r + 1))]
    linarith [min_le_right (pre A r) x]

/-- A part `v` of a family dominated by `A`, of total weight at most `x`, weighted by a
family dominated by `B`, weighs at most the first `x` units of the layout. -/
theorem sum_mul_le_fill {A B : ℕ → K} {v b : ι → K} (hA : Antitone A) (hA0 : ∀ i, 0 ≤ A i)
    (hB : ∀ i, 0 ≤ B i) (hb : ∀ i, 0 ≤ b i) (hv : Dominates A v) (hv0 : ∀ i, 0 ≤ v i)
    (hdb : Dominates B b) {s : Finset ι} {x : K} (hx : ∑ i ∈ s, v i ≤ x) :
    ∑ i ∈ s, v i * b i ≤ pre (fun r => fill A x r * B r) s.card := by
  classical
  have hx0 : 0 ≤ x := (sum_nonneg fun i _ => hv0 i).trans hx
  have hd : Dominates (fill A x) fun i : s => v i := by
    intro t
    rw [pre_fill hx0]
    refine le_min ?_ ?_
    · simpa using hv (t.map (Function.Embedding.subtype _))
    · refine le_trans ?_ hx
      have h2 : ∑ i ∈ t, v i ≤ ∑ i : s, v i :=
        sum_le_univ_sum_of_nonneg fun i => hv0 i
      rwa [Finset.sum_coe_sort s v] at h2
  have hdb' : Dominates B fun i : s => b i := fun t => by
    simpa using hdb (t.map (Function.Embedding.subtype _))
  have h := sum_mul_le_of_dominates (b := fun i : s => b i) (fill_antitone hA hA0 x) hB
    (fill_nonneg hA0 x) (fun i => hb i) hd hdb' univ
  rwa [Finset.sum_coe_sort s fun i => v i * b i, card_univ, Fintype.card_coe] at h

end StarCE
