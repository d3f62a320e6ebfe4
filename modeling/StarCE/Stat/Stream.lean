import StarCE.Seq.Deal
import StarCE.Stat.Limit
import StarCE.Stat.Merge

/-!
# The stream of a table

`edgeLoop` hands rows out to the tuples of a table, bucket by bucket. It is a
deal of these rows to the degrees of the table (`edgeLoop_deal`): the tuple in
progress, then the untouched ones. Only a remainder below the tolerance may be
dropped, and none is when rows and degrees are integers.
-/

namespace StarCE

open Finset

variable {K : Type} [Field K] [LinearOrder K] [FloorRing K]

/-- What the tuples from the first bucket on still take. -/
def left : List (Bucket K) → EdgeState K → List K
  | [], _ => []
  | b :: rest, e =>
    (if 0 < e.remainRow then [e.remainRow] else []) ++
      (List.replicate (if 0 < e.remainRow ∨ 0 < e.remainCount then e.remainCount else b.count).toNat
        b.maxDegree ++ expand rest)

/-- The states the loop goes through, at the buckets `l`. -/
structure Live (l : List (Bucket K)) (e : EdgeState K) : Prop where
  row_nonneg : 0 ≤ e.remainRow
  count_nonneg : 0 ≤ e.remainCount
  cur : e.remainRow = 0 → e.curDegree = 0
  cur_nonneg : 0 ≤ e.curDegree
  nil : l = [] → e.remainRow = 0 ∧ e.remainCount = 0

omit [FloorRing K] in
theorem left_fresh {l : List (Bucket K)} {e : EdgeState K} (h : e.remainRow = 0)
    (hc : e.remainCount = 0) : left l e = expand l := by
  cases l with
  | nil => rfl
  | cons b rest => simp [left, h, hc]

variable [IsStrictOrderedRing K] {eps w x m : K} {count : ℤ} {e : EdgeState K} {cs : List K}

/-! ## Untouched tuples -/

/-- `takeRows` deals all rows but a remainder below the tolerance. -/
theorem takeRows_deal (heps : 0 ≤ eps) (hw : 0 ≤ w) (hm : 0 < m) (hx : 0 ≤ x) (hcount : x ≤ count * m)
    (hcs : ∀ c ∈ cs, 0 < c) (hrow : e.remainRow = 0) (hcur : e.curDegree = 0) :
    ∃ x', 0 ≤ x' ∧ x' ≤ x ∧ x ≤ x' + eps ∧
      deal w (List.replicate count.toNat m ++ cs) x' 0 =
        ((if 0 < (takeRows eps w m x count e).1.remainRow
            then [(takeRows eps w m x count e).1.remainRow] else []) ++
          (List.replicate (takeRows eps w m x count e).1.remainCount.toNat m ++ cs),
          (takeRows eps w m x count e).1.curDegree, spread (takeRows eps w m x count e).2) ∧
      0 ≤ (takeRows eps w m x count e).1.remainRow ∧
      0 ≤ (takeRows eps w m x count e).1.remainCount ∧
      ((takeRows eps w m x count e).1.remainRow = 0 →
        (takeRows eps w m x count e).1.curDegree = 0 ∧
          (x < count * m → 0 < (takeRows eps w m x count e).1.remainCount)) ∧
      0 ≤ (takeRows eps w m x count e).1.curDegree ∧
      (takeRows eps w m x count e).1.pos = e.pos ∧
      Calls (takeRows eps w m x count e).2 := by
  have hq0 : 0 ≤ ⌊x / m⌋ := Int.floor_nonneg.mpr (div_nonneg hx hm.le)
  have hqle : (⌊x / m⌋ : K) * m ≤ x := (le_div_iff₀ hm).mp (Int.floor_le _)
  have hqlt : x < (⌊x / m⌋ + 1 : K) * m := (div_lt_iff₀ hm).mp (Int.lt_floor_add_one _)
  have hqc : ⌊x / m⌋ ≤ count := by
    have : (⌊x / m⌋ : K) * m ≤ count * m := hqle.trans hcount
    exact_mod_cast le_of_mul_le_mul_right this hm
  generalize hq : ⌊x / m⌋ = q at *
  have hcalls : Calls (if 0 < q then [(m * w, q)] else []) := by
    split
    · exact Calls.nil.cons (mul_nonneg hm.le hw) hq0
    · exact .nil
  have hspread : spread (if 0 < q then [(m * w, q)] else []) = List.replicate q.toNat (m * w) := by
    split
    · simp
    · next h => simp [show q = 0 by omega]
  have hqK : ((q.toNat : ℕ) : K) = q := toNat_cast hq0
  have hsplit : List.replicate count.toNat m ++ cs =
      List.replicate q.toNat m ++ (List.replicate (count - q).toNat m ++ cs) := by
    rw [← List.append_assoc, ← List.replicate_add]
    congr 2; omega
  have hpos : ∀ c ∈ List.replicate (count - q).toNat m ++ cs, 0 < c := by
    intro c hc
    rcases List.mem_append.mp hc with hc | hc
    · rw [(List.mem_replicate.mp hc).2]; exact hm
    · exact hcs c hc
  unfold takeRows
  simp only [hq]
  split
  · next hrem =>
    -- one more tuple is begun
    have hu0 : 0 ≤ x - q * m := by linarith
    have hu : x - q * m < m := by linarith [hqlt, (by ring : ((q : K) + 1) * m = q * m + m)]
    have hlt : q < count := by
      by_contra h
      have : q = count := by omega
      rw [this] at hrem
      linarith
    refine ⟨x, hx, le_rfl, by linarith, ?_, by simp only; linarith, by simp only; omega,
      fun h => absurd h (by simp only; linarith), ?_, rfl, hcalls⟩
    swap
    · have := mul_nonneg hu0 hw
      simp only [hcur, zero_add]; exact this
    have hd := deal_replicate (w := w) hm.le hu0
      (deal_part (w := w) (List.replicate (count - q - 1).toNat m ++ cs) 0 hu) q.toNat
    rw [hqK, add_sub_cancel, ← List.cons_append, ← List.replicate_succ,
      show (count - q - 1).toNat + 1 = (count - q).toNat by omega, ← hsplit] at hd
    rw [hd, if_pos (by linarith), hspread, hcur]
    simp
  · next hrem =>
    refine ⟨q * m, mul_nonneg (by exact_mod_cast hq0) hm.le, hqle, by linarith, ?_, hrow.ge,
      by simp only; omega, fun _ => ⟨hcur, fun h => ?_⟩, hcur.ge, rfl, hcalls⟩
    swap
    · have h1 : (q : K) * m < count * m := hqle.trans_lt h
      have h2 : q < count := by exact_mod_cast lt_of_mul_lt_mul_right h1 hm.le
      simp only; omega
    have hd := deal_replicate (w := w) hm.le le_rfl (deal_zero (w := w) hpos) q.toNat
    rw [hqK, add_zero, ← hsplit] at hd
    rw [hd, hspread, hrow, hcur]
    simp

/-! ## The loop -/

/-- The loop has dealt `x` rows, up to the tolerance, to the capacities `caps`. -/
def Dealt (bs : List (Bucket K)) (eps w : K) (caps : List K) (cur x : K)
    (r : EdgeState K × List (K × ℤ)) : Prop :=
  ∃ x', 0 ≤ x' ∧ x' ≤ x ∧ x ≤ x' + eps ∧
    deal w caps x' cur = (left (bs.drop r.1.pos) r.1, r.1.curDegree, spread r.2) ∧
    Live (bs.drop r.1.pos) r.1 ∧ Calls r.2

section Loop

variable {bs rest : List (Bucket K)} {b : Bucket K} {cur c : K} {caps : List K}
  {r : EdgeState K × List (K × ℤ)}

omit [FloorRing K] in
theorem Dealt.full (h : Dealt bs eps w caps 0 x r) (hc : 0 ≤ c) (hw : 0 ≤ w) (hcur : 0 ≤ cur) :
    Dealt bs eps w (c :: caps) cur (c + x) (r.1, (cur + c * w, 1) :: r.2) := by
  obtain ⟨x', h0, hle, heps, hd, hlive, hcalls⟩ := h
  refine ⟨c + x', by linarith, by linarith, by linarith, ?_, hlive, ?_⟩
  · rw [deal_full cur h0 hd]; simp
  · exact hcalls.cons (add_nonneg hcur (mul_nonneg hc hw)) zero_le_one

theorem Dealt.replicate (h : Dealt bs eps w caps 0 x r) (hc : 0 ≤ c) (hw : 0 ≤ w)
    {n : ℤ} (hn : 0 ≤ n) :
    Dealt bs eps w (List.replicate n.toNat c ++ caps) 0 (n * c + x) (r.1, (c * w, n) :: r.2) := by
  obtain ⟨x', h0, hle, heps, hd, hlive, hcalls⟩ := h
  have hnc : 0 ≤ (n : K) * c := mul_nonneg (by exact_mod_cast hn) hc
  refine ⟨n * c + x', by linarith, by linarith, by linarith, ?_, hlive, ?_⟩
  · have := deal_replicate hc h0 hd n.toNat
    rw [toNat_cast hn] at this
    rw [this, spread_cons]
  · exact hcalls.cons (mul_nonneg hc hw) hn

/-- The part of the loop body after `if (remainRow > 0)`. -/
def afterFinish (eps w : K) (b : Bucket K) (rest : List (Bucket K)) (x : K) (e : EdgeState K) :
    EdgeState K × List (K × ℤ) :=
  match fillBucket eps w b x e with
  | (.brk e, calls) => (e, calls)
  | (.cont x e, calls) | (.fall x e, calls) =>
    ((edgeLoop eps w rest x { e with pos := e.pos + 1 }).1,
      calls ++ (edgeLoop eps w rest x { e with pos := e.pos + 1 }).2)

omit [IsStrictOrderedRing K] in
theorem edgeLoop_cons (eps w : K) (b : Bucket K) (rest : List (Bucket K)) (x : K)
    (e : EdgeState K) : edgeLoop eps w (b :: rest) x e =
      match finishTuple w x e with
      | (.brk e, calls) => (e, calls)
      | (.cont x e, calls) =>
        ((edgeLoop eps w rest x { e with pos := e.pos + 1 }).1,
          calls ++ (edgeLoop eps w rest x { e with pos := e.pos + 1 }).2)
      | (.fall x e, calls) =>
        ((afterFinish eps w b rest x e).1, calls ++ (afterFinish eps w b rest x e).2) := by
  rw [edgeLoop]
  rcases finishTuple w x e with ⟨_ | _ | _, calls⟩
  · rfl
  · rfl
  · simp only [afterFinish]
    rcases fillBucket eps w b _ _ with ⟨_ | _ | _, calls'⟩ <;> simp

omit [FloorRing K] [IsStrictOrderedRing K] in
/-- A bucket that is begun and not used up. -/
theorem live_taken {e' : EdgeState K} {d : List K × K × List K} {calls : List (K × ℤ)}
    (hpos : bs.drop e.pos = b :: rest) (hpe : e'.pos = e.pos) (hr : 0 ≤ e'.remainRow)
    (hc : 0 ≤ e'.remainCount) (hcur : e'.remainRow = 0 → e'.curDegree = 0)
    (hcn : 0 ≤ e'.curDegree) (hbegun : e'.remainRow = 0 → 0 < e'.remainCount)
    (hcalls : Calls calls)
    (hd : d = ((if 0 < e'.remainRow then [e'.remainRow] else []) ++
      (List.replicate e'.remainCount.toNat b.maxDegree ++ expand rest), e'.curDegree,
      spread calls)) :
    d = (left (bs.drop e'.pos) e', e'.curDegree, spread calls) ∧ Live (bs.drop e'.pos) e' ∧
      Calls calls := by
  have hb : 0 < e'.remainRow ∨ 0 < e'.remainCount := by
    rcases hr.eq_or_lt with h | h
    · exact .inr (hbegun h.symm)
    · exact .inl h
  rw [hpe, hpos]
  exact ⟨by rw [hd, left, if_pos hb], ⟨hr, hc, hcur, hcn, by simp⟩, hcalls⟩

/-- The untouched tuples of the bucket at `e.pos`, when no tuple is in progress. -/
theorem afterFinish_dealt (heps : 0 ≤ eps) (hw : 0 ≤ w)
    (hbs : ∀ b ∈ bs, 0 < b.maxDegree ∧ 0 ≤ b.count) (hpos : bs.drop e.pos = b :: rest)
    (hrow : e.remainRow = 0) (hlive : Live (b :: rest) e) (hx : 0 ≤ x)
    (ih : ∀ e x, bs.drop e.pos = rest → Live rest e → 0 ≤ x →
      Dealt bs eps w (left rest e) e.curDegree x (edgeLoop eps w rest x e)) :
    Dealt bs eps w (left (b :: rest) e) 0 x (afterFinish eps w b rest x e) := by
  obtain ⟨hm, hcount⟩ := hbs b (List.mem_of_mem_drop (hpos ▸ List.mem_cons_self))
  have hcur : e.curDegree = 0 := hlive.cur hrow
  have hdrop : bs.drop (e.pos + 1) = rest := by rw [← List.tail_drop, hpos]; rfl
  have hcs : ∀ c ∈ expand rest, 0 < c := by
    intro c hc
    obtain ⟨b', hb', -, rfl⟩ := mem_expand.mp hc
    exact (hbs b' (List.mem_of_mem_drop (hdrop ▸ hb'))).1
  -- the next bucket, once this one is used up
  have hnext : ∀ y, 0 ≤ y → ∀ e' : EdgeState K, e'.remainRow = 0 → e'.remainCount = 0 →
      e'.curDegree = 0 → e'.pos = e.pos + 1 →
      Dealt bs eps w (expand rest) 0 y (edgeLoop eps w rest y e') := by
    intro y hy e' h1 h2 h3 h4
    have := ih e' y (by rw [h4, hdrop]) ⟨h1.ge, h2.ge, fun _ => h3, h3.ge, fun _ => ⟨h1, h2⟩⟩ hy
    rwa [left_fresh h1 h2, h3] at this
  unfold afterFinish fillBucket
  by_cases hrc : 0 < e.remainCount
  · -- the bucket is begun
    have hleft : left (b :: rest) e =
        List.replicate e.remainCount.toNat b.maxDegree ++ expand rest := by
      simp [left, hrow, hrc]
    rw [if_pos hrc, hleft]
    by_cases hlt : (e.remainCount : K) * b.maxDegree < x
    · rw [if_pos hlt]
      have := (hnext (x - e.remainCount * b.maxDegree) (by linarith)
        ⟨e.pos + 1, e.curDegree, e.remainRow, 0⟩ hrow rfl hcur rfl).replicate hm.le hw hrc.le
      rwa [add_sub_cancel] at this
    · rw [if_neg hlt]
      obtain ⟨x', h0, hle, hxe, hd, hr0, hc0, hcur0, hcn, hpe, hcalls⟩ := takeRows_deal heps hw hm
        hx (not_lt.mp hlt) hcs hrow hcur
      generalize takeRows eps w b.maxDegree x e.remainCount e = r at *
      obtain ⟨e', calls⟩ := r
      simp only at hd hr0 hc0 hcur0 hcn hpe hcalls
      by_cases hdone : e'.remainCount = 0 ∧ e'.remainRow = 0
      · refine ⟨x', h0, hle, hxe, ?_⟩
        simp only [hdone, and_self, if_true, hpe, hdrop] at hd ⊢
        refine ⟨?_, ⟨le_rfl, le_rfl, fun _ => (hcur0 hdone.2).1, hcn, fun _ => ⟨rfl, rfl⟩⟩, hcalls⟩
        rw [hd, left_fresh rfl rfl]
        simp
      · simp only [hdone, if_false]
        exact ⟨x', h0, hle, hxe, live_taken hpos hpe hr0 hc0 (fun h => (hcur0 h).1) hcn
          (fun h => lt_of_le_of_ne hc0 fun hc => hdone ⟨hc.symm, h⟩) hcalls hd⟩
  · have hrc0 : e.remainCount = 0 := le_antisymm (not_lt.mp hrc) hlive.count_nonneg
    have hleft : left (b :: rest) e =
        List.replicate b.count.toNat b.maxDegree ++ expand rest := by
      simp [left, hrow, hrc]
    rw [if_neg hrc, hleft]
    by_cases hle : (b.count : K) * b.maxDegree ≤ x
    · rw [if_pos hle]
      have := (hnext (x - b.count * b.maxDegree) (by linarith)
        ⟨e.pos + 1, e.curDegree, e.remainRow, e.remainCount⟩ hrow hrc0 hcur rfl).replicate hm.le hw
        hcount
      rwa [add_sub_cancel] at this
    · rw [if_neg hle]
      obtain ⟨x', h0, hle', hxe, hd, hr0, hc0, hcur0, hcn, hpe, hcalls⟩ := takeRows_deal heps hw hm
        hx (not_le.mp hle).le hcs hrow hcur
      exact ⟨x', h0, hle', hxe, live_taken hpos hpe hr0 hc0 (fun h => (hcur0 h).1) hcn
        (fun h => (hcur0 h).2 (not_le.mp hle)) hcalls hd⟩

/-- The loop deals the rows, up to the tolerance, to what the tuples still take. -/
theorem edgeLoop_dealt (heps : 0 ≤ eps) (hw : 0 ≤ w)
    (hbs : ∀ b ∈ bs, 0 < b.maxDegree ∧ 0 ≤ b.count) {l : List (Bucket K)}
    (hpos : bs.drop e.pos = l) (hlive : Live l e) (hx : 0 ≤ x) :
    Dealt bs eps w (left l e) e.curDegree x (edgeLoop eps w l x e) := by
  induction l generalizing e x with
  | nil =>
    have h0 := (hlive.nil rfl)
    refine ⟨x, hx, le_rfl, by linarith, ?_, ?_, .nil⟩
    · simp [edgeLoop, hpos, left, deal, hlive.cur h0.1]
    · simpa [edgeLoop, hpos] using hlive
  | cons b rest ih =>
    have hdrop : bs.drop (e.pos + 1) = rest := by rw [← List.tail_drop, hpos]; rfl
    have hm : 0 < b.maxDegree := (hbs b (List.mem_of_mem_drop (hpos ▸ List.mem_cons_self))).1
    have hcs : ∀ c ∈ List.replicate e.remainCount.toNat b.maxDegree ++ expand rest, 0 < c := by
      intro c hc
      rcases List.mem_append.mp hc with hc | hc
      · rw [(List.mem_replicate.mp hc).2]; exact hm
      · obtain ⟨b', hb', -, rfl⟩ := mem_expand.mp hc
        exact (hbs b' (List.mem_of_mem_drop (hdrop ▸ hb'))).1
    rw [edgeLoop_cons, finishTuple]
    by_cases hrow : 0 < e.remainRow
    · have hleft : left (b :: rest) e = e.remainRow ::
          (List.replicate e.remainCount.toNat b.maxDegree ++ expand rest) := by
        simp [left, hrow]
      rw [if_pos hrow, hleft]
      by_cases hlt : e.remainRow < x
      · -- the tuple in progress gets full and rows are left
        rw [if_pos hlt]
        have hx' : 0 ≤ x - e.remainRow := by linarith
        by_cases hrc : e.remainCount = 0
        · have h := ih (e := ⟨e.pos + 1, 0, 0, e.remainCount⟩) (x := x - e.remainRow) hdrop
            ⟨le_rfl, hlive.count_nonneg, fun _ => rfl, le_rfl, fun _ => ⟨rfl, hrc⟩⟩ hx'
          have hfresh : left rest ⟨e.pos + 1, 0, 0, e.remainCount⟩ = expand rest :=
            left_fresh rfl hrc
          rw [hfresh] at h
          have h' := h.full hrow.le hw hlive.cur_nonneg
          rw [add_sub_cancel] at h'
          simpa [hrc] using h'
        · have hrc' : 0 < e.remainCount := lt_of_le_of_ne hlive.count_nonneg (Ne.symm hrc)
          have h := afterFinish_dealt (e := ⟨e.pos, 0, 0, e.remainCount⟩) heps hw hbs hpos rfl
            ⟨le_rfl, hlive.count_nonneg, fun _ => rfl, le_rfl, by simp⟩ hx'
            fun e' y hp hl hy => ih hp hl hy
          have h' := h.full hrow.le hw hlive.cur_nonneg
          rw [add_sub_cancel] at h'
          simp only [hrc, if_false]
          simpa [left, hrc'] using h'
      · rw [if_neg hlt]
        have hle : x ≤ e.remainRow := not_lt.mp hlt
        have hcur' : 0 ≤ e.curDegree + x * w := add_nonneg hlive.cur_nonneg (mul_nonneg hx hw)
        by_cases hend : e.remainRow - x = 0
        · -- it gets full with the last row
          have hxr : e.remainRow = x := sub_eq_zero.mp hend
          have hd := deal_full (w := w) (c := x) e.curDegree le_rfl (deal_zero (w := w) hcs)
          rw [add_zero] at hd
          refine ⟨x, hx, le_rfl, by linarith, ?_⟩
          by_cases hrc : e.remainCount = 0
          · simp only [hend, hrc, if_true, hdrop]
            refine ⟨?_, ⟨le_rfl, le_rfl, fun _ => rfl, le_rfl, fun _ => ⟨rfl, rfl⟩⟩,
              Calls.nil.cons hcur' zero_le_one⟩
            rw [hrc] at hd
            rw [hxr, hd, left_fresh rfl rfl]
            simp
          · have hrc' : 0 < e.remainCount := lt_of_le_of_ne hlive.count_nonneg (Ne.symm hrc)
            simp only [hend, hrc, if_true, if_false, hpos]
            refine ⟨?_, ⟨le_rfl, hlive.count_nonneg, fun _ => rfl, le_rfl, by simp⟩,
              Calls.nil.cons hcur' zero_le_one⟩
            rw [hxr, hd]
            simp [left, hrc']
        · have hlt' : x < e.remainRow := lt_of_le_of_ne hle fun h => hend (sub_eq_zero.mpr h.symm)
          refine ⟨x, hx, le_rfl, by linarith, ?_⟩
          simp only [hend, if_false, hpos]
          refine ⟨?_, ⟨(sub_pos.mpr hlt').le, hlive.count_nonneg, fun h => absurd h hend, hcur',
            by simp⟩, .nil⟩
          rw [deal_part _ _ hlt']
          simp [left, hlt']
    · have hrow0 : e.remainRow = 0 := le_antisymm (not_lt.mp hrow) hlive.row_nonneg
      rw [if_neg hrow, hlive.cur hrow0]
      simpa using afterFinish_dealt heps hw hbs hpos hrow0 hlive hx fun e' y hp hl hy => ih hp hl hy

end Loop

/-! ## A whole feed -/

/-- The feed `f'` is `f` less what the tolerance has dropped. -/
def Short (eps : K) (f f' : List (K × K)) : Prop :=
  List.Forall₂ (fun c c' => 0 ≤ c'.1 ∧ c'.1 ≤ c.1 ∧ c.1 ≤ c'.1 + eps ∧ c'.2 = c.2) f f'

section Feed

variable {ds : DegreeSequence K} {f f' : List (K × K)}

omit [FloorRing K] [IsStrictOrderedRing K] in
theorem Short.nonneg (h : Short eps f f') : ∀ c ∈ f', 0 ≤ c.1 := by
  induction h with
  | nil => simp
  | cons hc _ ih => exact List.forall_mem_cons.mpr ⟨hc.1, ih⟩

omit [FloorRing K] in
theorem Short.eq (h : Short 0 f f') : f' = f := by
  induction h with
  | nil => rfl
  | cons hc _ ih =>
    obtain ⟨_, h1, h2, h3⟩ := hc
    rw [ih, Prod.ext (le_antisymm h1 (by linarith)) h3]

/-- One item of a feed after another, from any state of the loop. -/
theorem feed_dealt (heps : 0 ≤ eps) (hds : ∀ b ∈ ds.buckets, 0 < b.maxDegree ∧ 0 ≤ b.count)
    (hf : ∀ c ∈ f, 0 ≤ c.1 ∧ 0 ≤ c.2) (hlive : Live (ds.buckets.drop e.pos) e)
    (calls : List (K × ℤ)) :
    ∃ f' more, Short eps f f' ∧ Calls more ∧
      (feedFrom eps ds (e, calls) f).2 = calls ++ more ∧
      0 ≤ (feedFrom eps ds (e, calls) f).1.curDegree ∧ spread more ++ [(feedFrom eps ds (e, calls) f).1.curDegree] =
        dealAll f' (left (ds.buckets.drop e.pos) e) e.curDegree := by
  induction f generalizing e calls with
  | nil => exact ⟨[], [], .nil, .nil, by simp [feedFrom], hlive.cur_nonneg, rfl⟩
  | cons c f ih =>
    obtain ⟨x, w⟩ := c
    obtain ⟨hx, hw⟩ := hf _ (.head _)
    obtain ⟨x', h0, hle, hxe, hd, hlive', hcalls⟩ := edgeLoop_dealt heps hw hds rfl hlive hx
    rw [← edgeStep] at hd hlive' hcalls
    obtain ⟨f', more, hs, hm, hcalls', hcur, hall⟩ := ih (fun c hc => hf c (.tail _ hc)) hlive'
      (calls ++ (edgeStep eps w ds x e).2)
    refine ⟨(x', w) :: f', (edgeStep eps w ds x e).2 ++ more, .cons ⟨h0, hle, hxe, rfl⟩ hs,
      hcalls.append hm, ?_, hcur, ?_⟩
    · rw [feedFrom, List.foldl_cons, ← feedFrom, hcalls', List.append_assoc]
    · rw [feedFrom, List.foldl_cons, ← feedFrom, dealAll, hd, spread_append, List.append_assoc, hall]

/-- The degrees a table's new sequence collects are a deal of the feed to its old degrees. -/
theorem edgeCalls_dealt (heps : 0 ≤ eps)
    (hds : ∀ b ∈ ds.buckets, 0 < b.maxDegree ∧ 0 ≤ b.count) (hf : ∀ c ∈ f, 0 ≤ c.1 ∧ 0 ≤ c.2) :
    ∃ f', Short eps f f' ∧ Calls (edgeCalls eps ds f) ∧
      spread (edgeCalls eps ds f) = dealAll f' (expand ds.buckets) 0 := by
  have hinit : Live (ds.buckets.drop (EdgeState.init : EdgeState K).pos) .init :=
    ⟨le_rfl, le_rfl, fun _ => rfl, le_rfl, fun _ => ⟨rfl, rfl⟩⟩
  obtain ⟨f', more, hs, hm, hcalls, hcur, hall⟩ := feed_dealt heps hds hf hinit []
  rw [left_fresh (e := (.init : EdgeState K)) rfl rfl] at hall
  refine ⟨f', hs, ?_, ?_⟩
  · rw [edgeCalls, feedRun, hcalls, List.nil_append]
    exact hm.append (Calls.nil.cons hcur zero_le_one)
  · rw [edgeCalls, spread_append, feedRun, hcalls, List.nil_append, spread_cons, spread_nil,
      List.append_nil]
    exact hall

/-- The sum of the first `k` new degrees is what the feed weighs up to the first `k` old ones. -/
theorem pre_edgeCalls (heps : 0 ≤ eps)
    (hds : ∀ b ∈ ds.buckets, 0 < b.maxDegree ∧ 0 ≤ b.count) (hf : ∀ c ∈ f, 0 ≤ c.1 ∧ 0 ≤ c.2) :
    ∃ f', Short eps f f' ∧ ∀ k, pre (entry (spread (edgeCalls eps ds f))) k =
      poured f' (pre (seq ds.buckets) k) := by
  obtain ⟨f', hs, -, hd⟩ := edgeCalls_dealt heps hds hf
  refine ⟨f', hs, fun k => ?_⟩
  rw [hd, pre_dealAll hs.nonneg, seq]
  intro c hc
  obtain ⟨b, hb, -, rfl⟩ := mem_expand.mp hc
  exact (hds b hb).1

end Feed

/-! ## Integer rows -/

section Integer

variable {l : List (Bucket K)} {ds : DegreeSequence K} {f : List (K × K)}

theorem takeRows_integral (count : ℤ) (hm : IsInt m) (hx : IsInt x) (he : IsInt e.remainRow) (h0 : 0 ≤ eps)
    (h1 : eps < 1) : takeRows eps w m x count e = takeRows 0 w m x count e ∧
      IsInt (takeRows eps w m x count e).1.remainRow := by
  have hu : IsInt (x - (⌊x / m⌋ : K) * m) := hx.sub ((IsInt.intCast _).mul hm)
  have hiff : eps < x - (⌊x / m⌋ : K) * m ↔ 0 < x - (⌊x / m⌋ : K) * m := by
    rw [← not_le, ← not_le, hu.le_eps_iff h0 h1]
  refine ⟨by simp only [takeRows, hiff], ?_⟩
  unfold takeRows
  simp only
  split
  · exact hm.sub hu
  · exact he

/-- The loop goes on with integers. -/
def Flow.IsInt : Flow K → Prop
  | .brk e => StarCE.IsInt e.remainRow
  | .cont x e | .fall x e => StarCE.IsInt x ∧ StarCE.IsInt e.remainRow

omit [FloorRing K] [IsStrictOrderedRing K] in
theorem finishTuple_integral (hx : IsInt x) (he : IsInt e.remainRow) :
    (finishTuple w x e).1.IsInt := by
  unfold finishTuple
  split
  · split
    · by_cases hrc : e.remainCount = 0
      · simp only [hrc, if_true]; exact ⟨hx.sub he, .zero⟩
      · simp only [hrc, if_false]; exact ⟨hx.sub he, .zero⟩
    · simp only
      split <;> exact he.sub hx
  · exact ⟨hx, he⟩

theorem fillBucket_integral {b : Bucket K} (hm : IsInt b.maxDegree) (hx : IsInt x)
    (he : IsInt e.remainRow) (h0 : 0 ≤ eps) (h1 : eps < 1) :
    fillBucket eps w b x e = fillBucket 0 w b x e ∧ (fillBucket eps w b x e).1.IsInt := by
  obtain ⟨heq, hint⟩ := takeRows_integral (w := w) e.remainCount hm hx he h0 h1
  obtain ⟨heq', hint'⟩ := takeRows_integral (w := w) b.count hm hx he h0 h1
  unfold fillBucket
  refine ⟨by rw [heq, heq'], ?_⟩
  split_ifs
  · exact ⟨hx.sub ((IsInt.intCast _).mul hm), he⟩
  · simp only [Flow.IsInt]
    split <;> exact hint
  · exact ⟨hx.sub ((IsInt.intCast _).mul hm), he⟩
  · exact hint'

/-- With integer rows and degrees the tolerance drops nothing. -/
theorem edgeLoop_integral (hl : Integral l) (hx : IsInt x) (he : IsInt e.remainRow) (h0 : 0 ≤ eps)
    (h1 : eps < 1) : edgeLoop eps w l x e = edgeLoop 0 w l x e ∧
      IsInt (edgeLoop eps w l x e).1.remainRow := by
  induction l generalizing x e with
  | nil => exact ⟨rfl, he⟩
  | cons b rest ih =>
    have hafter : ∀ y (e' : EdgeState K), IsInt y → IsInt e'.remainRow →
        afterFinish eps w b rest y e' = afterFinish 0 w b rest y e' ∧
          IsInt (afterFinish eps w b rest y e').1.remainRow := by
      intro y e' hy he'
      obtain ⟨heq, hint⟩ := fillBucket_integral (w := w) (hl b (.head _)) hy he' h0 h1
      rw [afterFinish, afterFinish, ← heq]
      generalize fillBucket eps w b y e' = r at hint ⊢
      rcases r with ⟨e'' | ⟨z, e''⟩ | ⟨z, e''⟩, calls⟩
      · exact ⟨rfl, hint⟩
      all_goals
        obtain ⟨h, hi⟩ := ih (e := { e'' with pos := e''.pos + 1 }) hl.tail hint.1 hint.2
        exact ⟨by simp only [h], hi⟩
    have hint := finishTuple_integral (w := w) hx he
    rw [edgeLoop_cons, edgeLoop_cons]
    generalize finishTuple w x e = r at hint ⊢
    rcases r with ⟨e' | ⟨z, e'⟩ | ⟨z, e'⟩, calls⟩
    · exact ⟨rfl, hint⟩
    · obtain ⟨h, hi⟩ := ih (e := { e' with pos := e'.pos + 1 }) hl.tail hint.1 hint.2
      exact ⟨by simp only [h], hi⟩
    · obtain ⟨h, hi⟩ := hafter z e' hint.1 hint.2
      exact ⟨by simp only [h], hi⟩

theorem edgeCalls_integral (hds : Integral ds.buckets) (hf : ∀ c ∈ f, IsInt c.1) (h0 : 0 ≤ eps)
    (h1 : eps < 1) : edgeCalls eps ds f = edgeCalls 0 ds f := by
  have key : ∀ (s : EdgeState K × List (K × ℤ)), IsInt s.1.remainRow →
      feedFrom eps ds s f = feedFrom 0 ds s f := by
    induction f with
    | nil => intro s _; rfl
    | cons c f ih =>
      intro s hs
      obtain ⟨heq, hint⟩ := edgeLoop_integral (w := c.2)
        (fun b hb => hds b (List.mem_of_mem_drop hb)) (hf c (.head _)) hs h0 h1
      rw [← edgeStep, ← edgeStep] at heq
      rw [← edgeStep] at hint
      rw [feedFrom, feedFrom, List.foldl_cons, List.foldl_cons, ← heq]
      exact ih (fun d hd => hf d (.tail _ hd)) _ hint
  rw [edgeCalls, edgeCalls, feedRun, feedRun, key _ .zero]

/-- With integers the new degrees sum up to what the feed itself weighs. -/
theorem pre_edgeCalls_integral (hds : ∀ b ∈ ds.buckets, 0 < b.maxDegree ∧ 0 ≤ b.count)
    (hi : Integral ds.buckets) (hf : ∀ c ∈ f, 0 ≤ c.1 ∧ 0 ≤ c.2) (hfi : ∀ c ∈ f, IsInt c.1)
    (h0 : 0 ≤ eps) (h1 : eps < 1) (k : ℕ) :
    pre (entry (spread (edgeCalls eps ds f))) k = poured f (pre (seq ds.buckets) k) := by
  obtain ⟨f', hs, h⟩ := pre_edgeCalls le_rfl hds hf
  rw [edgeCalls_integral hi hfi h0 h1, h, hs.eq]

end Integer

end StarCE
