import StarCE.Seq.Hinge
import StarCE.Stat.DegreeSequence

/-!
# Buckets as sequences

A list of buckets stands for the sequence of its degrees, each repeated
`count` times (`expand`); `seq` reads that sequence by rank. `Descending` is
what every aligned sequence satisfies: degrees positive and non-increasing,
counts non-negative.
-/

namespace StarCE

open Finset

variable {K : Type}

/-- Each value repeated as often as its count says. -/
def spread (calls : List (K × ℤ)) : List K := calls.flatMap fun c => List.replicate c.2.toNat c.1

def Bucket.call (b : Bucket K) : K × ℤ := (b.maxDegree, b.count)

/-- The degrees a list of buckets stands for. -/
def expand (l : List (Bucket K)) : List K := spread (l.map Bucket.call)

@[simp] theorem spread_nil : spread ([] : List (K × ℤ)) = [] := rfl

@[simp] theorem spread_cons (c : K × ℤ) (l : List (K × ℤ)) :
    spread (c :: l) = List.replicate c.2.toNat c.1 ++ spread l := rfl

@[simp] theorem spread_append (l l' : List (K × ℤ)) : spread (l ++ l') = spread l ++ spread l' := by
  simp [spread]

@[simp] theorem expand_nil : expand ([] : List (Bucket K)) = [] := rfl

@[simp] theorem expand_cons (b : Bucket K) (l : List (Bucket K)) :
    expand (b :: l) = List.replicate b.count.toNat b.maxDegree ++ expand l := rfl

theorem mem_spread {x : K} {l : List (K × ℤ)} : x ∈ spread l ↔ ∃ c ∈ l, 0 < c.2 ∧ c.1 = x := by
  simp only [spread, List.mem_flatMap, List.mem_replicate, ne_eq]
  constructor
  · rintro ⟨c, hc, hn, rfl⟩; exact ⟨c, hc, by omega, rfl⟩
  · rintro ⟨c, hc, hn, rfl⟩; exact ⟨c, hc, by omega, rfl⟩

theorem mem_expand {x : K} {l : List (Bucket K)} :
    x ∈ expand l ↔ ∃ b ∈ l, 0 < b.count ∧ b.maxDegree = x := by
  simp [expand, mem_spread, Bucket.call]

theorem spread_map_one (l : List K) : spread (l.map fun x => (x, (1 : ℤ))) = l := by
  induction l with
  | nil => rfl
  | cons x l ih =>
    rw [List.map_cons, spread_cons, ih]
    rfl

theorem spread_flatMap_replicate (l : List (K × ℤ)) (n : ℕ) :
    spread (l.flatMap (List.replicate n)) = (spread l).flatMap (List.replicate n) := by
  have key : ∀ (m : ℕ) (c : K × ℤ), spread (List.replicate m c) =
      List.replicate (m * c.2.toNat) c.1 := by
    intro m c
    induction m with
    | zero => rw [Nat.zero_mul]; rfl
    | succ m ih =>
      rw [List.replicate_succ, spread_cons, ih, List.replicate_append_replicate]
      congr 1
      ring
  induction l with
  | nil => rfl
  | cons c l ih =>
    rw [List.flatMap_cons, spread_append, ih, spread_cons, List.flatMap_append, key,
      List.flatMap_replicate, List.flatten_replicate_replicate, Nat.mul_comm]

variable [Field K] [LinearOrder K] [IsStrictOrderedRing K]

/-- The degree at a rank, zero past the last one. -/
def seq (l : List (Bucket K)) : ℕ → K := entry (expand l)

structure Descending (l : List (Bucket K)) : Prop where
  sorted : l.Pairwise fun b c => c.maxDegree ≤ b.maxDegree
  degree_pos : ∀ b ∈ l, 0 < b.maxDegree
  count_nonneg : ∀ b ∈ l, 0 ≤ b.count

theorem toNat_cast {n : ℤ} (h : 0 ≤ n) : ((n.toNat : ℕ) : K) = (n : K) := by
  exact_mod_cast Int.toNat_of_nonneg h

theorem sum_map_spread (φ : K → K) {l : List (K × ℤ)} (h : ∀ c ∈ l, 0 ≤ c.2) :
    ((spread l).map φ).sum = (l.map fun c => (c.2 : K) * φ c.1).sum := by
  induction l with
  | nil => rfl
  | cons c l ih =>
    rw [spread_cons, List.map_append, List.sum_append, ih fun b hb => h b (.tail _ hb)]
    simp [toNat_cast (h c (.head _))]

theorem sum_spread {l : List (K × ℤ)} (h : ∀ c ∈ l, 0 ≤ c.2) :
    (spread l).sum = (l.map fun c => (c.2 : K) * c.1).sum := by
  simpa using sum_map_spread id h

theorem sum_map_expand (φ : K → K) {l : List (Bucket K)} (h : ∀ b ∈ l, 0 ≤ b.count) :
    ((expand l).map φ).sum = (l.map fun b => (b.count : K) * φ b.maxDegree).sum := by
  rw [expand, sum_map_spread φ (by simpa [Bucket.call] using h), List.map_map]; rfl

namespace Descending

variable {l : List (Bucket K)} {b : Bucket K}

section

omit [IsStrictOrderedRing K]

theorem nil : Descending ([] : List (Bucket K)) := ⟨.nil, by simp, by simp⟩

theorem tail (h : Descending (b :: l)) : Descending l :=
  ⟨(List.pairwise_cons.mp h.sorted).2, fun c hc => h.degree_pos c (.tail _ hc),
    fun c hc => h.count_nonneg c (.tail _ hc)⟩

theorem le_head (h : Descending (b :: l)) : ∀ c ∈ l, c.maxDegree ≤ b.maxDegree :=
  (List.pairwise_cons.mp h.sorted).1

theorem expand_pos (h : Descending l) : ∀ x ∈ expand l, 0 < x := by
  intro x hx
  obtain ⟨b, hb, _, rfl⟩ := mem_expand.mp hx
  exact h.degree_pos b hb

theorem seq_nonneg (h : Descending l) (i : ℕ) : 0 ≤ seq l i :=
  entry_nonneg (fun x hx => (h.expand_pos x hx).le) i

theorem expand_sorted (h : Descending l) : (expand l).Pairwise (· ≥ ·) := by
  induction l with
  | nil => exact .nil
  | cons b l ih =>
    rw [expand_cons, List.pairwise_append]
    refine ⟨List.pairwise_replicate.mpr (.inr le_rfl), ih h.tail, fun x hx y hy => ?_⟩
    obtain ⟨c, hc, _, rfl⟩ := mem_expand.mp hy
    obtain ⟨_, rfl⟩ := List.mem_replicate.mp hx
    exact h.le_head c hc

theorem seq_antitone (h : Descending l) : Antitone (seq l) :=
  entry_antitone (fun x hx => (h.expand_pos x hx).le) h.expand_sorted

end

end Descending

theorem getCard_eq_sum (ds : DegreeSequence K) (h : ∀ b ∈ ds.buckets, 0 ≤ b.count) :
    ds.getCard = (expand ds.buckets).sum := by
  simpa [DegreeSequence.getCard] using (sum_map_expand (id : K → K) h).symm

omit [Field K] [LinearOrder K] [IsStrictOrderedRing K] in
theorem getNDV_eq_length (ds : DegreeSequence K) (h : ∀ b ∈ ds.buckets, 0 ≤ b.count) :
    ds.getNDV = (expand ds.buckets).length := by
  obtain ⟨l, s⟩ := ds
  simp only [DegreeSequence.getNDV] at h ⊢
  induction l with
  | nil => rfl
  | cons b l ih =>
    have hb := h b (.head _)
    rw [List.map_cons, List.sum_cons, ih fun c hc => h c (.tail _ hc)]
    simp [Int.toNat_of_nonneg hb]

/-! ## Prefix sums by bucket -/

omit [LinearOrder K] [IsStrictOrderedRing K] in
theorem pre_seq_cons_of_le (b : Bucket K) (l : List (Bucket K)) {k : ℕ} (h : k ≤ b.count.toNat) :
    pre (seq (b :: l)) k = k * b.maxDegree := by
  rw [seq, pre_entry, expand_cons, List.take_append_of_le_length (by simpa using h)]
  simp [h]

theorem pre_seq_cons_of_ge (b : Bucket K) (l : List (Bucket K)) {k : ℕ} (hb : 0 ≤ b.count)
    (h : b.count.toNat ≤ k) :
    pre (seq (b :: l)) k = b.count * b.maxDegree + pre (seq l) (k - b.count.toNat) := by
  rw [seq, pre_entry, expand_cons, List.take_append, List.sum_append, seq, pre_entry]
  simp [h, toNat_cast hb]

omit [LinearOrder K] [IsStrictOrderedRing K] in
/-- Beyond the last rank the prefix sum is the total. -/
theorem pre_seq_of_le {l : List (Bucket K)} {k : ℕ} (h : (expand l).length ≤ k) :
    pre (seq l) k = (expand l).sum := pre_entry_of_le h

theorem pre_seq_le_sum {l : List (Bucket K)} (h : Descending l) (k : ℕ) :
    pre (seq l) k ≤ (expand l).sum := by
  rw [← pre_seq_of_le (l := l) (Nat.le_add_right _ k)]
  exact pre_mono h.seq_nonneg (by omega)

end StarCE
