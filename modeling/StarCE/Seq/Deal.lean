import StarCE.Seq.Prefix

/-!
# Dealing rows out

A feed brings rows in order, some at a time, each with a weight. `dealAll`
hands them out to a list of capacities, one capacity after the other, and
records what each capacity has received in weight. Its prefix sums are what
the feed weighs up to the prefix sums of the capacities (`pre_dealAll`).
-/

namespace StarCE

open Finset

variable {K : Type} [Field K] [LinearOrder K]

/-- The weight of the first `y` rows of a feed. -/
def poured : List (K × K) → K → K
  | [], _ => 0
  | (x, w) :: f, y => w * min x y + poured f (y - min x y)

/-- `x` rows of weight `w` for the capacities `caps`, the first of which already holds the
weight `cur`: what remains of the capacities, what the first one holds, the weights of those
that got full. -/
def deal (w : K) : List K → K → K → List K × K × List K
  | [], _, _ => ([], 0, [])
  | c :: cs, x, cur =>
    if x < c then ((c - x) :: cs, cur + x * w, [])
    else
      let (caps, cur', out) := deal w cs (x - c) 0
      (caps, cur', (cur + c * w) :: out)

/-- The weights of all capacities begun, the last one possibly not full. -/
def dealAll : List (K × K) → List K → K → List K
  | [], _, cur => [cur]
  | (x, w) :: f, caps, cur =>
    let (caps, cur, out) := deal w caps x cur
    out ++ dealAll f caps cur

variable {w x y cur : K} {f : List (K × K)} {caps : List K}

/-! ## The feed -/

theorem poured_zero (hf : ∀ c ∈ f, 0 ≤ c.1) : poured f 0 = 0 := by
  induction f with
  | nil => rfl
  | cons c f ih =>
    have h := ih fun d hd => hf d (.tail _ hd)
    simp [poured, min_eq_right (hf c (.head _)), h]

variable [IsStrictOrderedRing K]

theorem poured_cons_congr {f' : List (K × K)} (x w : K) {y : K} (h : ∀ z, 0 ≤ z → poured f z = poured f' z) :
    poured ((x, w) :: f) y = poured ((x, w) :: f') y := by
  rw [poured, poured, h _ (sub_nonneg.mpr (min_le_right x y))]

/-- Rows of one weight may come in two parts. -/
theorem poured_split {x' : K} (hx' : 0 ≤ x') :
    poured ((x, w) :: (x', w) :: f) y = poured ((x + x', w) :: f) y := by
  simp only [poured]
  rcases le_total x y with h | h
  · rw [min_eq_left h]
    rcases le_total x' (y - x) with h' | h'
    · rw [min_eq_left h', min_eq_left (by linarith : x + x' ≤ y)]
      ring_nf
    · rw [min_eq_right h', min_eq_right (by linarith : y ≤ x + x')]
      ring_nf
  · rw [min_eq_right h, min_eq_right (by linarith : y ≤ x + x'), sub_self, min_eq_right hx']
    ring_nf

theorem poured_replicate (hx : 0 ≤ x) (hy : 0 ≤ y) (n : ℕ) :
    poured (List.replicate n (x, w) ++ f) y = poured ((n * x, w) :: f) y := by
  induction n generalizing f with
  | zero => simp [poured, hy]
  | succ n ih =>
    rw [List.replicate_succ', List.append_assoc, List.singleton_append, ih, poured_split hx]
    push_cast
    ring_nf

/-- What is poured, rank by rank. -/
theorem poured_eq_layout (hf : ∀ c ∈ f, 0 ≤ c.1) (hy : 0 ≤ y) :
    poured f y = layout f.length (entry (f.map (·.1))) (entry (f.map (·.2))) y := by
  induction f generalizing y with
  | nil => rfl
  | cons c f ih =>
    obtain ⟨x, w⟩ := c
    have hx : 0 ≤ x := hf _ (.head _)
    have hf' : ∀ c ∈ f, 0 ≤ c.1 := fun d hd => hf d (.tail _ hd)
    have hA : ∀ i, 0 ≤ entry (f.map (·.1)) i :=
      entry_nonneg fun z hz => by obtain ⟨d, hd, rfl⟩ := List.mem_map.mp hz; exact hf' d hd
    have hpre : ∀ r, pre (entry (x :: f.map (·.1))) (r + 1) = x + pre (entry (f.map (·.1))) r :=
      fun r => by simp [pre_entry]
    rw [poured, ih hf' (sub_nonneg.mpr (min_le_right x y)), layout, layout, List.length_cons, sum_range_succ',
      add_comm]
    congr 1
    · refine sum_congr rfl fun r _ => ?_
      rw [List.map_cons, List.map_cons, entry_cons_succ]
      congr 1
      rw [fill, fill, hpre, hpre]
      have h0 := pre_nonneg hA r
      have h1 := pre_nonneg hA (r + 1)
      rcases le_total x y with h | h
      · have hmin : ∀ a, min (x + a) y = x + min a (y - x) := fun a => by
          rw [← min_add_add_left, add_sub_cancel]
        rw [min_eq_left h, hmin, hmin]
        ring
      · rw [min_eq_right h, sub_self, min_eq_right h0, min_eq_right h1,
          min_eq_right (by linarith), min_eq_right (by linarith)]
        ring
    · have hfill : fill (entry (x :: f.map (·.1))) y 0 = min x y := by
        rw [fill, hpre]; simp [hy]
      simp only [List.map_cons]
      rw [entry_cons_zero, hfill, mul_comm]

/-! ## The deal -/

section Step

variable {c cur' : K} {cs caps' : List K} {out : List K}

omit [IsStrictOrderedRing K] in
theorem deal_part (cs : List K) (cur : K) (h : x < c) : deal w (c :: cs) x cur = ((c - x) :: cs, cur + x * w, []) := by
  simp [deal, h]

/-- The first capacity gets full and `y` rows go to the others. -/
theorem deal_full (cur : K) (hy : 0 ≤ y) (h : deal w cs y 0 = (caps', cur', out)) :
    deal w (c :: cs) (c + y) cur = (caps', cur', (cur + c * w) :: out) := by
  simp [deal, hy, h]

theorem deal_replicate (hc : 0 ≤ c) (hy : 0 ≤ y) (h : deal w cs y 0 = (caps', cur', out)) (n : ℕ) :
    deal w (List.replicate n c ++ cs) (n * c + y) 0 =
      (caps', cur', List.replicate n (c * w) ++ out) := by
  induction n with
  | zero => simpa using h
  | succ n ih =>
    have hstep := deal_full (c := c) 0 (by positivity) ih
    have hrows : ((n + 1 : ℕ) : K) * c + y = c + (n * c + y) := by push_cast; ring
    rw [zero_add] at hstep
    rw [hrows, List.replicate_succ, List.replicate_succ, List.cons_append, hstep,
      List.cons_append]

omit [IsStrictOrderedRing K] in
theorem deal_zero (h : ∀ c ∈ caps, 0 < c) : deal w caps 0 0 = (caps, 0, []) := by
  cases caps with
  | nil => rfl
  | cons c cs => rw [deal_part cs 0 (h c (.head _))]; simp

end Step

omit [IsStrictOrderedRing K] in
theorem dealAll_nil_caps (f : List (K × K)) : dealAll f [] (0 : K) = [0] := by
  induction f with
  | nil => rfl
  | cons c f ih => simpa [dealAll, deal] using ih

/-- What the first capacities receive is what the feed weighs up to their sum. -/
theorem pre_dealAll_cur (hf : ∀ c ∈ f, 0 ≤ c.1) (hcaps : ∀ c ∈ caps, 0 < c) (hne : caps ≠ [])
    (k : ℕ) :
    pre (entry (dealAll f caps cur)) (k + 1) = cur + poured f (pre (entry caps) (k + 1)) := by
  induction f generalizing caps cur k with
  | nil => simp [dealAll, poured, pre_entry]
  | cons c f ihf =>
    obtain ⟨x, w⟩ := c
    have hx : 0 ≤ x := hf _ (.head _)
    have hf' : ∀ c ∈ f, 0 ≤ c.1 := fun d hd => hf d (.tail _ hd)
    clear hf
    induction caps generalizing x cur k with
    | nil => exact absurd rfl hne
    | cons c cs ihc =>
      have hc : 0 < c := hcaps c (.head _)
      have hcs : ∀ c ∈ cs, 0 < c := fun d hd => hcaps d (.tail _ hd)
      have hpre : ∀ (c : K) (l : List K) (r : ℕ), pre (entry (c :: l)) (r + 1) = c + pre (entry l) r :=
        fun c l r => by simp [pre_entry]
      have hP : 0 ≤ pre (entry cs) k := pre_nonneg (entry_nonneg fun z hz => (hcs z hz).le) k
      by_cases hlt : x < c
      · -- the first capacity does not get full
        have hstep : dealAll ((x, w) :: f) (c :: cs) cur =
            dealAll f ((c - x) :: cs) (cur + x * w) := by simp [dealAll, deal, hlt]
        rw [hstep, ihf hf' (by simpa using ⟨hlt, hcs⟩) (by simp), hpre, hpre, poured,
          min_eq_left (by linarith)]
        ring_nf
      · have hstep : dealAll ((x, w) :: f) (c :: cs) cur =
            (cur + c * w) :: dealAll ((x - c, w) :: f) cs 0 := by simp [dealAll, deal, hlt]
        have hxc : 0 ≤ x - c := by linarith
        have hfx : ∀ d ∈ (x - c, w) :: f, 0 ≤ d.1 := List.forall_mem_cons.mpr ⟨hxc, hf'⟩
        have hmin : ∀ a, min x (c + a) = c + min (x - c) a := fun a => by
          rw [← min_add_add_left, add_sub_cancel]
        rw [hstep, hpre, hpre]
        have hrest : pre (entry (dealAll ((x - c, w) :: f) cs 0)) k =
            poured ((x - c, w) :: f) (pre (entry cs) k) := by
          cases k with
          | zero => rw [pre_zero, pre_zero, poured_zero hfx]
          | succ k =>
            cases cs with
            | nil =>
              rw [dealAll_nil_caps]
              simp [pre_entry, poured_zero hfx]
            | cons c' cs => rw [ihc hcs (by simp) k (x - c) hxc, zero_add]
        rw [hrest, poured, poured, hmin]
        ring_nf

theorem pre_dealAll (hf : ∀ c ∈ f, 0 ≤ c.1) (hcaps : ∀ c ∈ caps, 0 < c) (k : ℕ) :
    pre (entry (dealAll f caps 0)) k = poured f (pre (entry caps) k) := by
  cases k with
  | zero => rw [pre_zero, pre_zero, poured_zero hf]
  | succ k =>
    by_cases hne : caps = []
    · subst hne; rw [dealAll_nil_caps]; simp [pre_entry, poured_zero hf]
    · rw [pre_dealAll_cur hf hcaps hne, zero_add]

/-! ## Row by row -/

/-- The weight of every row of a feed. -/
def rowWeights (f : List (ℕ × K)) : List K := f.flatMap fun c => List.replicate c.1 c.2

/-- Each tuple takes as many rows as its degree says; rows past the last one weigh nothing. -/
def tupleSums : List ℕ → List K → List K
  | [], _ => []
  | d :: ds, rows => (rows.take d).sum :: tupleSums ds (rows.drop d)

section Rows

variable {calls : List (ℕ × K)}

theorem poured_rows (calls : List (ℕ × K)) (n : ℕ) :
    poured (calls.map fun c => ((c.1 : K), c.2)) n = ((rowWeights calls).take n).sum := by
  induction calls generalizing n with
  | nil => simp [poured, rowWeights]
  | cons c calls ih =>
    obtain ⟨x, w⟩ := c
    have hmin : min (x : K) n = ((min x n : ℕ) : K) := (Nat.cast_min x n).symm
    have hrest : (n : K) - ((min x n : ℕ) : K) = ((n - x : ℕ) : K) := by
      rw [← Nat.cast_sub (min_le_right x n)]
      congr 1; omega
    have hcons : rowWeights ((x, w) :: calls) = List.replicate x w ++ rowWeights calls := rfl
    rw [List.map_cons, poured, hmin, hrest, ih, hcons, List.take_append, List.sum_append,
      List.take_replicate, List.sum_replicate, List.length_replicate, nsmul_eq_mul, mul_comm,
      min_comm]

omit [LinearOrder K] [IsStrictOrderedRing K] in
theorem sum_take_tupleSums (ds : List ℕ) (rows : List K) (k : ℕ) :
    ((tupleSums ds rows).take k).sum = (rows.take (ds.take k).sum).sum := by
  induction ds generalizing rows k with
  | nil => simp [tupleSums]
  | cons d ds ih =>
    cases k with
    | zero => simp
    | succ k =>
      rw [tupleSums, List.take_succ_cons, List.sum_cons, ih, List.take_succ_cons, List.sum_cons,
        List.take_add, List.sum_append]

/-- A feed of whole rows, dealt to whole degrees, is dealt row by row. -/
theorem entry_dealAll_rows {ds : List ℕ} (hds : ∀ d ∈ ds, 1 ≤ d) (i : ℕ) :
    entry (dealAll (calls.map fun c => ((c.1 : K), c.2)) (ds.map (Nat.cast : ℕ → K)) 0) i =
      entry (tupleSums ds (rowWeights calls)) i := by
  have hpre : ∀ k, pre (entry (dealAll (calls.map fun c => ((c.1 : K), c.2))
      (ds.map (Nat.cast : ℕ → K)) 0)) k = pre (entry (tupleSums ds (rowWeights calls))) k := by
    intro k
    rw [pre_dealAll, pre_entry, ← List.map_take, pre_entry, sum_take_tupleSums, ← poured_rows,
      Nat.cast_list_sum]
    · intro c hc
      obtain ⟨c', -, rfl⟩ := List.mem_map.mp hc
      exact Nat.cast_nonneg _
    · intro c hc
      obtain ⟨d, hd, rfl⟩ := List.mem_map.mp hc
      exact Nat.cast_pos.mpr (hds d hd)
  have h := hpre (i + 1)
  rw [pre_succ, pre_succ, hpre i] at h
  exact add_left_cancel h

end Rows

omit [IsStrictOrderedRing K] in
/-- Two lists that agree up to zeros at the end have the same positive members. -/
theorem filter_pos_eq {l l' : List K} (h : ∀ i, entry l i = entry l' i) :
    l.filter (0 < ·) = l'.filter (0 < ·) := by
  have hnil : ∀ l : List K, (∀ i, entry l i = 0) → l.filter (0 < ·) = [] := by
    intro l h
    refine List.filter_eq_nil_iff.mpr fun x hx => ?_
    obtain ⟨i, hi, rfl⟩ := List.mem_iff_getElem.mp hx
    rw [← entry_of_lt hi, h i]
    simp
  induction l generalizing l' with
  | nil => rw [hnil l' fun i => by rw [← h, entry_nil], List.filter_nil]
  | cons a l ih =>
    cases l' with
    | nil => rw [hnil (a :: l) fun i => by rw [h, entry_nil], List.filter_nil]
    | cons b l' =>
      obtain rfl : a = b := by simpa using h 0
      rw [List.filter_cons, List.filter_cons, ih fun i => by simpa using h (i + 1)]

end StarCE
