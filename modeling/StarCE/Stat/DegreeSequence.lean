import StarCE.Seq.Prefix

/-!
# Degree sequences

`class DegreeSequence` of `statistic.hpp`, over an ordered field `K` with a
floor: doubles are read as exact numbers, `int64_t` as integers. The vectors
`maxDegree` and `count` grow and shrink together and are one list of buckets;
`sum` is only used during collection and cleared after `finishCollection`.
-/

namespace StarCE

variable {K : Type}

/-- `maxDegree[i]` and `count[i]`. -/
structure Bucket (K : Type) where
  maxDegree : K
  count : ℤ
  deriving DecidableEq

@[ext] structure DegreeSequence (K : Type) where
  buckets : List (Bucket K)
  sum : List K
  deriving DecidableEq

instance : EmptyCollection (DegreeSequence K) := ⟨⟨[], []⟩⟩

instance : Inhabited (DegreeSequence K) := ⟨∅⟩

variable [Field K] [LinearOrder K] [FloorRing K]

/-! ## Buckets -/

/-- Counts up from `n`, where `power` is `precision ^ n`, until the power reaches `degree`. -/
def powSearch (precision degree : K) : ℕ → ℕ → K → ℕ
  | 0, n, _ => n
  | fuel + 1, n, power =>
    if degree ≤ power then n else powSearch precision degree fuel (n + 1) (power * precision)

/-- `ceil(log(degree) / log(precision))` for a degree above one: the least exponent whose
power reaches the degree. -/
def ceilLog (precision degree : K) : ℕ :=
  powSearch precision degree ⌈(degree - 1) / (precision - 1)⌉.toNat 0 1

/-- The bucket a degree is collected in. -/
def bucketPos (degree precision : K) : ℕ :=
  if 1 < degree then
    if precision ≤ 1 then 0 else ceilLog precision degree
  else 0

/-- `std::vector::resize` to at least `n` elements. -/
def grow {α : Type} (n : ℕ) (z : α) (l : List α) : List α := l ++ List.replicate (n - l.length) z

namespace DegreeSequence

def addDegree (ds : DegreeSequence K) (degree : K) (count : ℤ) (precision : K) :
    DegreeSequence K :=
  let pos := bucketPos degree precision
  { buckets := (grow (pos + 1) ⟨0, 0⟩ ds.buckets).modify pos fun b =>
      ⟨max b.maxDegree degree, b.count + count⟩
    sum := (grow (pos + 1) 0 ds.sum).modify pos fun s => s + degree * count }

/-- The sum correction: `count` is tightened to `ceil(sum / maxDegree)`. -/
def tighten (b : Bucket K) (sum : K) : Bucket K :=
  let adjusted := ⌈sum / b.maxDegree⌉
  if adjusted < b.count then { b with count := adjusted } else b

/-- `count[i] == 0 || maxDegree[i] == 0` -/
def vacuous (b : Bucket K) : Prop := b.count = 0 ∨ b.maxDegree = 0

instance (b : Bucket K) : Decidable (vacuous b) := inferInstanceAs (Decidable (_ ∨ _))

/-- Largest degrees first, empty buckets removed, counts tightened, `sum` cleared. -/
def finishCollection (ds : DegreeSequence K) : DegreeSequence K :=
  let cells := (ds.buckets.zip ds.sum).reverse.filter fun c => ¬vacuous c.1
  { buckets := cells.map fun c => tighten c.1 c.2, sum := [] }

/-- What `clear` leaves in the memory of `sum`: the cells of the kept buckets. -/
def clearedSums (ds : DegreeSequence K) : List K :=
  ((ds.buckets.zip ds.sum).reverse.filter fun c => ¬vacuous c.1).map (·.2)

/-- `finishCollection` on a sequence that is finished already. Nothing of the empty `sum` is
reversed or erased, and `sum[i]` reads what the first call left there. -/
def finishAgain (cleared : List K) (ds : DegreeSequence K) : DegreeSequence K :=
  { buckets := ((ds.buckets.reverse.filter fun b => ¬vacuous b).zip cleared).map fun c =>
      tighten c.1 c.2
    sum := [] }

/-- A call of `finishCollection`, given what an earlier call on the sequence left. -/
def finishCall (cleared : Option (List K)) (ds : DegreeSequence K) : DegreeSequence K :=
  match cleared with
  | none => ds.finishCollection
  | some cells => ds.finishAgain cells

/-- `n` calls of `finishCollection` in a row, given what an earlier call left. -/
def finishTimes (cleared : Option (List K)) (ds : DegreeSequence K) : ℕ → DegreeSequence K
  | 0 => ds
  | n + 1 => finishTimes (some (cleared.getD ds.clearedSums)) (ds.finishCall cleared) n

def getCard (ds : DegreeSequence K) : K := (ds.buckets.map fun b => (b.count : K) * b.maxDegree).sum

def getNDV (ds : DegreeSequence K) : ℤ := (ds.buckets.map (·.count)).sum

end DegreeSequence

/-! ## Aligning two sequences -/

/-- `count` ranks at which the first sequence has `degree1` and the second `degree2`. -/
structure Run (K : Type) where
  degree1 : K
  degree2 : K
  count : ℤ

/-- Load the next bucket once the current one is used up. -/
def nextBucket (count : ℤ) (degree : K) (rest : List (Bucket K)) :
    Option (ℤ × K × List (Bucket K)) :=
  if count = 0 then
    match rest with
    | [] => none
    | b :: rest => some (b.count, b.maxDegree, rest)
  else some (count, degree, rest)

/-- The `while (true)` loop of `dot` and `Merge`: the runs it goes through. Every iteration
but the first loads a bucket, which bounds their number. -/
def alignLoop : ℕ → ℤ → K → List (Bucket K) → ℤ → K → List (Bucket K) → List (Run K)
  | 0, _, _, _, _, _, _ => []
  | fuel + 1, count1, degree1, rest1, count2, degree2, rest2 =>
    match nextBucket count1 degree1 rest1 with
    | none => []
    | some (count1, degree1, rest1) =>
      match nextBucket count2 degree2 rest2 with
      | none => []
      | some (count2, degree2, rest2) =>
        let count := min count1 count2
        ⟨degree1, degree2, count⟩ ::
          alignLoop fuel (count1 - count) degree1 rest1 (count2 - count) degree2 rest2

def alignRuns (ds1 ds2 : DegreeSequence K) : List (Run K) :=
  alignLoop (ds1.buckets.length + ds2.buckets.length) 0 0 ds1.buckets 0 0 ds2.buckets

namespace DegreeSequence

def dot (ds other : DegreeSequence K) (precision : K) : DegreeSequence K :=
  ((alignRuns ds other).foldl
    (fun (result : DegreeSequence K) r => result.addDegree (r.degree1 * r.degree2) r.count precision) ∅).finishCollection

/-- Successive `addDegree` calls, given as degrees with counts. -/
def addDegrees (ds : DegreeSequence K) (calls : List (K × ℤ)) (precision : K) :
    DegreeSequence K :=
  calls.foldl (fun ds c => ds.addDegree c.1 c.2 precision) ds

@[simp] theorem addDegrees_nil (ds : DegreeSequence K) (p : K) : ds.addDegrees [] p = ds := rfl

theorem addDegrees_cons (ds : DegreeSequence K) (c : K × ℤ) (calls : List (K × ℤ)) (p : K) :
    ds.addDegrees (c :: calls) p = (ds.addDegree c.1 c.2 p).addDegrees calls p := rfl

theorem addDegrees_append (ds : DegreeSequence K) (c c' : List (K × ℤ)) (p : K) :
    ds.addDegrees (c ++ c') p = (ds.addDegrees c p).addDegrees c' p := List.foldl_append

theorem addDegrees_replicate (ds : DegreeSequence K) (d : K) (c : ℤ) (n : ℕ) (p : K) :
    ds.addDegrees (List.replicate n (d, c)) p = (fun ds => addDegree ds d c p)^[n] ds := by
  induction n generalizing ds with
  | zero => rfl
  | succ n ih => exact ih _

end DegreeSequence

/-! ## The bucket index -/

section Index

variable {p d : K}

omit [FloorRing K] in
theorem powSearch_spec (hp : 1 < p) : ∀ (fuel n : ℕ), (∀ m < n, p ^ m < d) →
    d ≤ p ^ (n + fuel) → IsLeast {m | d ≤ p ^ m} (powSearch p d fuel n (p ^ n))
  | 0, n, hlt, hle => ⟨by simpa [powSearch] using hle, fun m hm => by
      by_contra hmn
      exact absurd hm (not_le.mpr (hlt m (by simpa [powSearch] using hmn)))⟩
  | fuel + 1, n, hlt, hle => by
    unfold powSearch
    split
    · next h =>
      exact ⟨h, fun m hm => by
        by_contra hmn
        exact absurd hm (not_le.mpr (hlt m (not_le.mp hmn)))⟩
    · next h =>
      rw [← pow_succ]
      refine powSearch_spec hp fuel (n + 1) (fun m hm => ?_) (by rwa [Nat.add_right_comm])
      rcases Nat.lt_succ_iff_lt_or_eq.mp hm with hm | rfl
      · exact hlt m hm
      · exact not_le.mp h

variable [IsStrictOrderedRing K]

theorem ceilLog_spec (hp : 1 < p) : IsLeast {n | d ≤ p ^ n} (ceilLog p d) := by
  have hq : 0 < p - 1 := sub_pos.mpr hp
  have hle : d ≤ p ^ ⌈(d - 1) / (p - 1)⌉.toNat := by
    generalize hn : ⌈(d - 1) / (p - 1)⌉.toNat = n
    have h1 : (d - 1) / (p - 1) ≤ (n : K) :=
      (Int.le_ceil _).trans (by exact_mod_cast hn ▸ Int.self_le_toNat _)
    rw [div_le_iff₀ hq] at h1
    have h2 := one_add_mul_le_pow (a := p - 1) (by linarith) n
    rw [add_sub_cancel] at h2
    linarith
  simpa [ceilLog] using powSearch_spec (d := d) hp _ 0 (by simp) (by simpa using hle)

/-- With a precision above one the bucket of a degree is the least exponent reaching it. -/
theorem bucketPos_spec (hp : 1 < p) : IsLeast {n | d ≤ p ^ n} (bucketPos d p) := by
  unfold bucketPos
  split
  · rw [if_neg (not_le.mpr hp)]; exact ceilLog_spec hp
  · next h => exact ⟨by simpa using h, fun _ _ => Nat.zero_le _⟩

theorem le_pow_bucketPos (hp : 1 < p) : d ≤ p ^ bucketPos d p := (bucketPos_spec hp).1

theorem bucketPos_le_of_le_pow (hp : 1 < p) {n : ℕ} (h : d ≤ p ^ n) : bucketPos d p ≤ n :=
  (bucketPos_spec hp).2 h

theorem pow_lt_of_lt_bucketPos (hp : 1 < p) {n : ℕ} (h : n < bucketPos d p) : p ^ n < d :=
  not_le.mp fun hd => absurd (bucketPos_le_of_le_pow hp hd) (Nat.not_le.mpr h)

/-- Degrees are ordered as their buckets, whatever the precision. -/
theorem lt_of_bucketPos_lt {d e : K} (h : bucketPos d p < bucketPos e p) : d < e := by
  rcases le_or_gt p 1 with hp | hp
  · have h0 : bucketPos e p = 0 := by unfold bucketPos; split_ifs <;> rfl
    omega
  · exact (le_pow_bucketPos hp).trans_lt (pow_lt_of_lt_bucketPos hp h)

/-- Two degrees of one bucket, the smaller at least one, differ by less than the precision. -/
theorem lt_mul_of_bucketPos_eq (hp : 1 < p) {d e : K} (hd : 1 ≤ d)
    (h : bucketPos e p = bucketPos d p) : e < p * d := by
  have he := le_pow_bucketPos hp (d := e)
  rw [h] at he
  rcases Nat.eq_zero_or_pos (bucketPos d p) with h0 | h0
  · rw [h0, pow_zero] at he
    nlinarith
  · have := pow_lt_of_lt_bucketPos hp (d := d) (Nat.pred_lt h0.ne')
    calc e ≤ p ^ bucketPos d p := he
      _ = p * p ^ (bucketPos d p - 1) := by rw [← pow_succ', Nat.sub_add_cancel h0]
      _ < p * d := mul_lt_mul_of_pos_left this (by linarith)

end Index

end StarCE
