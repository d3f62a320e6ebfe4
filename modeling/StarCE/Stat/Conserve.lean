import StarCE.Stat.Center
import StarCE.Stat.Sketch
import StarCE.Stat.Stream

/-!
# Rows are conserved

The rows that successive `mergeEdgeDegreeSequences` calls hand out reach the
tuples as if they were handed out one by one (`mergeEdges_rows`). With whole
degrees no row is lost in `merge`: every sequence of the result sums up to the
cardinality, the total of the rank-wise products (`merge_conserves`).
-/

namespace StarCE

variable {K : Type} [Field K] [LinearOrder K] [FloorRing K]

namespace DSStatistic

variable {old new new' : DSStatistic K} {tables : List Table} {edges : List (EdgeState K)}

/-- Successive `mergeEdgeDegreeSequences` calls, each with its rows and their weight, and
`addCurDegree`. -/
def mergeEdges (old : DSStatistic K) (tables : List Table) (calls : List (K × K))
    (new : DSStatistic K) : Except Error (DSStatistic K) := do
  let (new, edges) ← calls.foldlM
    (fun s c => mergeEdgeDegreeSequences old c.1 c.2 tables s.2 s.1)
    (new, tables.map fun _ => EdgeState.init)
  pure (addCurDegree tables edges new)

/-- The calls made on the sequences of the tables after the part `l` of the feed. -/
structure Fed (old new : DSStatistic K) (tables : List Table) (l : List (K × K))
    (s : DSStatistic K × List (EdgeState K)) : Prop where
  precision : s.1.precision = new.precision
  edges : s.2 = tables.map fun u => (feedRun rowEps (old.dsOf u) l).1
  ds : ∀ u ∈ tables, s.1.dsOf u =
    (new.dsOf u).addDegrees (feedRun rowEps (old.dsOf u) l).2 new.precision

theorem mergeEdges_ok (hn : tables.Nodup)
    (hold : ∀ u ∈ tables, old.ds.lookup u = .ok (old.dsOf u)) (calls : List (K × K))
    (new : DSStatistic K) :
    ∃ new', mergeEdges old tables calls new = .ok new' ∧ ∀ u ∈ tables, new'.dsOf u =
      (new.dsOf u).addDegrees (edgeCalls rowEps (old.dsOf u) calls) new.precision := by
  have hrun : ∃ s, calls.foldlM (fun s c => mergeEdgeDegreeSequences old c.1 c.2 tables s.2 s.1)
      (new, tables.map fun _ => EdgeState.init) = .ok s ∧ Fed old new tables calls s := by
    refine foldlM_inv (Fed old new tables) ⟨rfl, rfl, fun _ _ => rfl⟩ ?_
    rintro l c ⟨n, e⟩ - ⟨hp, he, hds⟩
    simp only at hp he hds
    obtain ⟨-, -, hp', -⟩ := onTables_fields (fun u ds => ds.addDegrees
      (edgeStep rowEps c.2 (old.dsOf u) c.1 (feedRun rowEps (old.dsOf u) l).1).2 n.precision) n tables
    refine ⟨_, by simp only [he]; exact mergeEdge_eq _ hold, hp'.trans hp, ?_, fun u hu => ?_⟩
    · simp only [feedRun_append]
    · rw [dsOf_onTables _ hn, if_pos hu, hds u hu, hp, ← DegreeSequence.addDegrees_append,
        feedRun_append]
  obtain ⟨⟨n, e⟩, hs, hp, he, hds⟩ := hrun
  simp only at hp he hds
  refine ⟨_, by rw [mergeEdges, hs]; rfl, fun u hu => ?_⟩
  rw [he, addCurDegree_eq, dsOf_onTables _ hn, if_pos hu, hds u hu, hp, edgeCalls,
    DegreeSequence.addDegrees_append]
  rfl

variable [IsStrictOrderedRing K]

/-- The degrees of the tuples, as numbers of rows. -/
def rowCounts (l : List (Bucket K)) : List ℕ := (expand l).map fun d => ⌊d⌋.toNat

theorem rowCounts_cast {l : List (Bucket K)} (h : ∀ b ∈ l, IsInt b.maxDegree ∧ 1 ≤ b.maxDegree) :
    (rowCounts l).map (Nat.cast : ℕ → K) = expand l ∧ ∀ d ∈ rowCounts l, 1 ≤ d := by
  have hfloor : ∀ x ∈ expand l, ((⌊x⌋.toNat : ℕ) : K) = x ∧ 1 ≤ ⌊x⌋.toNat := by
    intro x hx
    obtain ⟨b, hb, -, rfl⟩ := mem_expand.mp hx
    obtain ⟨⟨n, hn⟩, h1⟩ := h b hb
    rw [hn] at h1 ⊢
    have hn1 : 1 ≤ n := by exact_mod_cast h1
    rw [Int.floor_intCast]
    exact ⟨toNat_cast (by omega), by omega⟩
  refine ⟨?_, fun d hd => ?_⟩
  · rw [rowCounts, List.map_map]
    exact (List.map_congr_left fun x hx => (hfloor x hx).1).trans (List.map_id _)
  · obtain ⟨x, hx, rfl⟩ := List.mem_map.mp hd
    exact (hfloor x hx).2

/-- The positive degrees handed to a table are the positive sums of its tuples' rows. -/
theorem mergeEdges_rows (hn : tables.Nodup) (hold : ∀ u ∈ tables, (old.ds.find? u).isSome)
    {calls : List (ℕ × K)} (hcalls : ∀ c ∈ calls, 1 ≤ c.1 ∧ 0 ≤ c.2) (new : DSStatistic K) :
    ∃ new', mergeEdges old tables (calls.map fun c => ((c.1 : K), c.2)) new = .ok new' ∧
      ∀ u ∈ tables, (∀ b ∈ (old.dsOf u).buckets, IsInt b.maxDegree ∧ 1 ≤ b.maxDegree ∧ 1 ≤ b.count) →
        ∃ handed : List (K × ℤ),
          handed = edgeCalls rowEps (old.dsOf u) (calls.map fun c => ((c.1 : K), c.2)) ∧
          new'.dsOf u = (new.dsOf u).addDegrees handed new.precision ∧
          ((spread handed).filter (0 < ·)).Perm
            ((tupleSums (rowCounts (old.dsOf u).buckets) (rowWeights calls)).filter (0 < ·)) := by
  have hlook : ∀ u ∈ tables, old.ds.lookup u = .ok (old.dsOf u) := fun u hu => by
    obtain ⟨ds, hds⟩ := Option.isSome_iff_exists.mp (hold u hu)
    simp [OrdMap.lookup, dsOf, hds]
  obtain ⟨new', hok, hds⟩ := mergeEdges_ok hn hlook (calls.map fun c => ((c.1 : K), c.2)) new
  refine ⟨new', hok, fun u hu hb => ⟨_, rfl, hds u hu, ?_⟩⟩
  set f : List (K × K) := calls.map fun c => ((c.1 : K), c.2) with hf
  have hf0 : ∀ c ∈ f, 0 ≤ c.1 ∧ 0 ≤ c.2 := fun c hc => by
    obtain ⟨c', hc', rfl⟩ := List.mem_map.mp hc
    exact ⟨Nat.cast_nonneg _, (hcalls c' hc').2⟩
  have hfi : ∀ c ∈ f, IsInt c.1 := fun c hc => by
    obtain ⟨c', -, rfl⟩ := List.mem_map.mp hc
    exact ⟨c'.1, by simp⟩
  have heps : (0 : K) ≤ rowEps ∧ (rowEps : K) < 1 := by unfold rowEps; constructor <;> norm_num
  -- whole rows and degrees: the tolerance drops nothing, and the stream is a deal
  have hdeal : spread (edgeCalls rowEps (old.dsOf u) f) =
      dealAll f (expand (old.dsOf u).buckets) 0 := by
    obtain ⟨f', hs, -, hd⟩ := edgeCalls_dealt (le_refl (0 : K))
      (fun b hbm => ⟨zero_lt_one.trans_le (hb b hbm).2.1, zero_le_one.trans (hb b hbm).2.2⟩) hf0
    rw [edgeCalls_integral (fun b hbm => (hb b hbm).1) hfi heps.1 heps.2, hd, hs.eq]
  obtain ⟨hcast, hone⟩ := rowCounts_cast fun b hbm => ⟨(hb b hbm).1, (hb b hbm).2.1⟩
  rw [hdeal, ← hcast, filter_pos_eq (entry_dealAll_rows hone)]

/-- Two tuples of degree three and two of degree one. -/
def twoBuckets : DSStatistic ℚ :=
  { ofTables ["a", "b"] 2 with
    card := 8, ds := (∅ : OrdMap Table (DegreeSequence ℚ)).insert "b" ⟨[⟨3, 2⟩, ⟨1, 2⟩], []⟩ }

/-- Two rows of weight five and three of weight one reach the first two tuples. -/
theorem mergeEdges_rows_twoBuckets :
    ∃ new' handed, mergeEdges twoBuckets ["b"] [(2, 5), (3, 1)] (ofTables ["b"] 2) = .ok new' ∧
      new'.dsOf "b" = (∅ : DegreeSequence ℚ).addDegrees handed 2 ∧
      ((spread handed).filter (0 < ·)).Perm [11, 2] := by
  obtain ⟨new', hok, h⟩ := mergeEdges_rows (show ["b"].Nodup by decide)
    (show ∀ u ∈ ["b"], (twoBuckets.ds.find? u).isSome by decide)
    (show ∀ c ∈ [(2, (5 : ℚ)), (3, 1)], 1 ≤ c.1 ∧ 0 ≤ c.2 by decide) (ofTables ["b"] 2)
  have hint : ∀ b ∈ (twoBuckets.dsOf "b").buckets,
      IsInt b.maxDegree ∧ 1 ≤ b.maxDegree ∧ 1 ≤ b.count := by
    rintro b (_ | ⟨_, _ | ⟨_, ⟨⟩⟩⟩)
    · exact ⟨⟨3, rfl⟩, by decide, by decide⟩
    · exact ⟨⟨1, rfl⟩, by decide, by decide⟩
  obtain ⟨handed, -, hds, hperm⟩ := h "b" (.head _) hint
  refine ⟨new', handed, hok, hds, ?_⟩
  have hsums : (tupleSums (rowCounts (twoBuckets.dsOf "b").buckets)
      (rowWeights [(2, (5 : ℚ)), (3, 1)])).filter (0 < ·) = [11, 2] := by decide +kernel
  exact hsums ▸ hperm

end DSStatistic

/-! ## Whole weights -/

section Whole

variable [IsStrictOrderedRing K] {eps w x m : K} {count : ℤ} {e : EdgeState K}

/-- The loop goes on with whole rows and whole weights. -/
def Flow.Whole : Flow K → Prop
  | .brk e => StarCE.IsInt e.remainRow ∧ StarCE.IsInt e.curDegree
  | .cont x e | .fall x e => StarCE.IsInt x ∧ StarCE.IsInt e.remainRow ∧ StarCE.IsInt e.curDegree

omit [FloorRing K] [IsStrictOrderedRing K] in
theorem finishTuple_whole (hw : IsInt w) (hx : IsInt x) (he : IsInt e.remainRow)
    (hc : IsInt e.curDegree) :
    (finishTuple w x e).1.Whole ∧ ∀ c ∈ (finishTuple w x e).2, IsInt c.1 := by
  unfold finishTuple
  split
  · split
    · have hcall : IsInt (e.curDegree + e.remainRow * w) := hc.add (he.mul hw)
      refine ⟨?_, by simpa using hcall⟩
      by_cases hrc : e.remainCount = 0
      · simp only [hrc, if_true]; exact ⟨hx.sub he, .zero, .zero⟩
      · simp only [hrc, if_false]; exact ⟨hx.sub he, .zero, .zero⟩
    · have hcall : IsInt (e.curDegree + x * w) := hc.add (hx.mul hw)
      simp only
      split
      · exact ⟨⟨he.sub hx, .zero⟩, by simpa using hcall⟩
      · exact ⟨⟨he.sub hx, hcall⟩, by simp⟩
  · exact ⟨⟨hx, he, hc⟩, by simp⟩

section

omit [IsStrictOrderedRing K]

theorem takeRows_whole (eps : K) (count : ℤ) (hw : IsInt w) (hm : IsInt m) (hx : IsInt x) (he : IsInt e.remainRow)
    (hc : IsInt e.curDegree) :
    (IsInt (takeRows eps w m x count e).1.remainRow ∧
      IsInt (takeRows eps w m x count e).1.curDegree) ∧
      ∀ c ∈ (takeRows eps w m x count e).2, IsInt c.1 := by
  have hu : IsInt (x - (⌊x / m⌋ : K) * m) := hx.sub ((IsInt.intCast _).mul hm)
  have hcalls : ∀ c ∈ (if 0 < ⌊x / m⌋ then [(m * w, ⌊x / m⌋)] else []), IsInt c.1 := by
    split
    · simpa using hm.mul hw
    · simp
  unfold takeRows
  simp only
  split
  · exact ⟨⟨hm.sub hu, hc.add (hu.mul hw)⟩, hcalls⟩
  · exact ⟨⟨he, hc⟩, hcalls⟩

theorem fillBucket_whole (eps : K) {b : Bucket K} (hw : IsInt w) (hm : IsInt b.maxDegree) (hx : IsInt x)
    (he : IsInt e.remainRow) (hc : IsInt e.curDegree) :
    (fillBucket eps w b x e).1.Whole ∧ ∀ c ∈ (fillBucket eps w b x e).2, IsInt c.1 := by
  obtain ⟨hint, hcalls⟩ := takeRows_whole eps e.remainCount hw hm hx he hc
  obtain ⟨hint', hcalls'⟩ := takeRows_whole eps b.count hw hm hx he hc
  have hcall : ∀ n : ℤ, ∀ c ∈ [(b.maxDegree * w, n)], IsInt c.1 := fun n => by
    simpa using hm.mul hw
  unfold fillBucket
  split_ifs
  · exact ⟨⟨hx.sub ((IsInt.intCast _).mul hm), he, hc⟩, hcall _⟩
  · refine ⟨?_, hcalls⟩
    simp only [Flow.Whole]
    split <;> exact hint
  · exact ⟨⟨hx.sub ((IsInt.intCast _).mul hm), he, hc⟩, hcall _⟩
  · exact ⟨hint', hcalls'⟩

/-- Whole rows of whole weight give whole degrees. -/
theorem edgeLoop_whole (eps : K) {l : List (Bucket K)} (hl : Integral l) (hw : IsInt w) (hx : IsInt x)
    (he : IsInt e.remainRow) (hc : IsInt e.curDegree) :
    (IsInt (edgeLoop eps w l x e).1.remainRow ∧ IsInt (edgeLoop eps w l x e).1.curDegree) ∧
      ∀ c ∈ (edgeLoop eps w l x e).2, IsInt c.1 := by
  induction l generalizing x e with
  | nil => exact ⟨⟨he, hc⟩, by simp [edgeLoop]⟩
  | cons b rest ih =>
    have hafter : ∀ y (e' : EdgeState K), IsInt y → IsInt e'.remainRow → IsInt e'.curDegree →
        (IsInt (afterFinish eps w b rest y e').1.remainRow ∧
          IsInt (afterFinish eps w b rest y e').1.curDegree) ∧
          ∀ c ∈ (afterFinish eps w b rest y e').2, IsInt c.1 := by
      intro y e' hy he' hc'
      obtain ⟨hflow, hcalls⟩ := fillBucket_whole eps hw (hl b (.head _)) hy he' hc'
      rw [afterFinish]
      generalize fillBucket eps w b y e' = r at hflow hcalls ⊢
      rcases r with ⟨e'' | ⟨z, e''⟩ | ⟨z, e''⟩, calls⟩
      · exact ⟨hflow, hcalls⟩
      all_goals
        obtain ⟨h, hi⟩ := ih (e := { e'' with pos := e''.pos + 1 }) hl.tail hflow.1 hflow.2.1
          hflow.2.2
        exact ⟨h, List.forall_mem_append.mpr ⟨hcalls, hi⟩⟩
    obtain ⟨hflow, hcalls⟩ := finishTuple_whole hw hx he hc
    rw [edgeLoop_cons]
    generalize finishTuple w x e = r at hflow hcalls ⊢
    rcases r with ⟨e' | ⟨z, e'⟩ | ⟨z, e'⟩, calls⟩
    · exact ⟨hflow, hcalls⟩
    · obtain ⟨h, hi⟩ := ih (e := { e' with pos := e'.pos + 1 }) hl.tail hflow.1 hflow.2.1 hflow.2.2
      exact ⟨h, List.forall_mem_append.mpr ⟨hcalls, hi⟩⟩
    · obtain ⟨h, hi⟩ := hafter z e' hflow.1 hflow.2.1 hflow.2.2
      exact ⟨h, List.forall_mem_append.mpr ⟨hcalls, hi⟩⟩

theorem edgeCalls_whole {ds : DegreeSequence K} {f : List (K × K)} (hds : Integral ds.buckets)
    (hf : ∀ c ∈ f, IsInt c.1 ∧ IsInt c.2) : ∀ c ∈ edgeCalls eps ds f, IsInt c.1 := by
  have key : ∀ (s : EdgeState K × List (K × ℤ)), IsInt s.1.remainRow → IsInt s.1.curDegree →
      (∀ c ∈ s.2, IsInt c.1) → IsInt (feedFrom eps ds s f).1.curDegree ∧
        ∀ c ∈ (feedFrom eps ds s f).2, IsInt c.1 := by
    induction f with
    | nil => exact fun s _ h h' => ⟨h, h'⟩
    | cons c f ih =>
      intro s hr hc hcalls
      obtain ⟨⟨hr', hc'⟩, hcalls'⟩ := edgeLoop_whole eps (w := c.2)
        (fun b hb => hds b (List.mem_of_mem_drop hb)) (hf c (.head _)).2 (hf c (.head _)).1 hr hc
      exact ih (fun d hd => hf d (.tail _ hd)) _ hr' hc'
        (List.forall_mem_append.mpr ⟨hcalls, hcalls'⟩)
  obtain ⟨hcur, hcalls⟩ := key (.init, []) .zero .zero (by simp)
  exact List.forall_mem_append.mpr ⟨hcalls, by simpa [feedRun] using hcur⟩

end

end Whole

/-! ## No row is lost -/

section Total

variable [IsStrictOrderedRing K] {p card : K} {calls : List (K × ℤ)} {f : List (K × K)}
  {ds ds1 ds2 : DegreeSequence K}

omit [FloorRing K] in
theorem poured_of_le (hf : ∀ c ∈ f, 0 ≤ c.1) {y : K} (h : (f.map (·.1)).sum ≤ y) :
    poured f y = (f.map fun c => c.1 * c.2).sum := by
  induction f generalizing y with
  | nil => rfl
  | cons c f ih =>
    rw [List.map_cons, List.sum_cons] at h
    have hrest : 0 ≤ (f.map (·.1)).sum := List.sum_nonneg fun x hx => by
      obtain ⟨d, hd, rfl⟩ := List.mem_map.mp hx
      exact hf d (.tail _ hd)
    rw [poured, min_eq_left (by linarith), ih (fun d hd => hf d (.tail _ hd)) (by linarith),
      List.map_cons, List.sum_cons, mul_comm]

/-- A table that has as many rows as the feed, or more, receives all of them. -/
theorem sum_edgeCalls (hds : ∀ b ∈ ds.buckets, 0 < b.maxDegree ∧ 0 ≤ b.count)
    (hi : Integral ds.buckets) (hf : ∀ c ∈ f, 0 ≤ c.1 ∧ 0 ≤ c.2) (hfi : ∀ c ∈ f, IsInt c.1)
    (h : (f.map (·.1)).sum ≤ (expand ds.buckets).sum) :
    (spread (edgeCalls rowEps ds f)).sum = (f.map fun c => c.1 * c.2).sum := by
  have hpre := pre_edgeCalls_integral hds hi hf hfi rowEps_pos.le rowEps_lt_one
    (max (spread (edgeCalls rowEps ds f)).length (expand ds.buckets).length)
  rw [pre_entry_of_le (le_max_left _ _), pre_seq_of_le (le_max_right _ _)] at hpre
  rw [hpre, poured_of_le (fun c hc => (hf c hc).1) h]

/-- The cut sequence has exactly the cardinality. -/
theorem getCard_cutTwice (h : Calls calls) (hi : ∀ c ∈ calls, IsInt c.1) (h0 : 0 ≤ card)
    (hc : IsInt card) (hsum : card ≤ (spread calls).sum) :
    (DSStatistic.cutTwice p card calls).getCard = card := by
  have hd := compress_descending p h
  have hint : Integral (compress p calls) := compress_integral hi
  have h1 : (expand (DSStatistic.limitDsToCard ⟨compress p calls, []⟩ card).buckets).sum = card :=
    sum_limitDs hd hint h0 hc (hsum.trans (sum_spread_le_compress p h))
  have hd' : Descending (DSStatistic.limitDsToCard ⟨compress p calls, []⟩ card).buckets :=
    limitDs_descending hd
  have hint' : Integral (DSStatistic.limitDsToCard ⟨compress p calls, []⟩ card).buckets :=
    limitDs_integral hint hc
  rw [DSStatistic.cutTwice, getCard_eq_sum _ (limitDs_descending hd').count_nonneg]
  exact sum_limitDs hd' hint' h0 hc h1.ge

/-- Buckets of whole degrees, in descending order. -/
structure WholeBuckets (l : List (Bucket K)) : Prop where
  sorted : l.Pairwise fun b c => c.maxDegree ≤ b.maxDegree
  whole : ∀ b ∈ l, IsInt b.maxDegree ∧ 1 ≤ b.maxDegree ∧ 1 ≤ b.count

omit [IsStrictOrderedRing K] in
theorem WholeBuckets.descending {l : List (Bucket K)} (h : WholeBuckets l) : Descending l :=
  ⟨h.sorted, fun b hb => zero_lt_one.trans_le (h.whole b hb).2.1,
    fun b hb => zero_le_one.trans (h.whole b hb).2.2⟩

section

omit [FloorRing K] [IsStrictOrderedRing K]

theorem WholeBuckets.integral {l : List (Bucket K)} (h : WholeBuckets l) : Integral l :=
  fun b hb => (h.whole b hb).1

theorem whole_runs (h1 : WholeBuckets ds1.buckets) (h2 : WholeBuckets ds2.buckets) :
    ∀ r ∈ alignRuns ds1 ds2,
      (IsInt r.degree1 ∧ 1 ≤ r.degree1) ∧ IsInt r.degree2 ∧ 1 ≤ r.degree2 :=
  alignRuns_degrees (P := fun x : K => IsInt x ∧ 1 ≤ x) (Q := fun x : K => IsInt x ∧ 1 ≤ x)
    (fun b hb => ⟨(h1.whole b hb).1, (h1.whole b hb).2.1⟩)
    (fun b hb => ⟨(h2.whole b hb).1, (h2.whole b hb).2.1⟩)

end

theorem whole_products (h1 : WholeBuckets ds1.buckets) (h2 : WholeBuckets ds2.buckets) :
    Whole (spread (products (alignRuns ds1 ds2))) := by
  intro x hx
  obtain ⟨c, hc, -, rfl⟩ := mem_spread.mp hx
  obtain ⟨r, hr, rfl⟩ := List.mem_map.mp hc
  obtain ⟨⟨hi1, ho1⟩, hi2, ho2⟩ := whole_runs h1 h2 r hr
  exact ⟨one_le_mul_of_one_le_of_one_le ho1 ho2, hi1.mul hi2⟩

section

omit [FloorRing K]

theorem sum_map_pairs (φ : K × K → K) {runs : List (Run K)} (h : ∀ r ∈ runs, 0 ≤ r.count) :
    ((pairs runs).map φ).sum =
      (runs.map fun r => (r.count : K) * φ (r.degree1, r.degree2)).sum := by
  induction runs with
  | nil => rfl
  | cons r l ih =>
    rw [pairs_cons, List.map_append, List.sum_append, ih fun s hs => h s (.tail _ hs),
      List.map_replicate, List.sum_replicate, nsmul_eq_mul, toNat_cast (h r (.head _)),
      List.map_cons, List.sum_cons]

theorem sum_fst_zip_le {l : List K} (h : ∀ x ∈ l, 0 ≤ x) (l' : List K) :
    ((l.zip l').map (·.1)).sum ≤ l.sum := by
  induction l generalizing l' with
  | nil => simp
  | cons x l ih =>
    cases l' with
    | nil => simpa using List.sum_nonneg h
    | cons y l' => simpa using ih (fun z hz => h z (.tail _ hz)) l'

end

/-- Buckets from natural numbers, and what makes them whole. -/
def bucketsOf (l : List (ℕ × ℕ)) : List (Bucket K) := l.map fun b => ⟨(b.1 : K), (b.2 : ℤ)⟩

abbrev IsBuckets (l : List (ℕ × ℕ)) : Prop :=
  (l.Pairwise fun b c => c.1 ≤ b.1) ∧ ∀ b ∈ l, 1 ≤ b.1 ∧ 1 ≤ b.2

theorem wholeBuckets_of {l : List (ℕ × ℕ)} (h : IsBuckets l) :
    WholeBuckets (bucketsOf l : List (Bucket K)) := by
  refine ⟨List.pairwise_map.mpr (h.1.imp fun hbc => Nat.cast_le.mpr hbc), fun b hb => ?_⟩
  obtain ⟨c, hc, rfl⟩ := List.mem_map.mp hb
  obtain ⟨h1, h2⟩ := h.2 c hc
  exact ⟨⟨c.1, by simp⟩, Nat.one_le_cast.mpr h1, Int.ofNat_le.mpr h2⟩

/-- The ranks of the runs, as a feed for the tables of the left operand. -/
theorem leftFeed_spec (h1 : WholeBuckets ds1.buckets) (h2 : WholeBuckets ds2.buckets) :
    (∀ c ∈ leftFeed (alignRuns ds1 ds2), (0 ≤ c.1 ∧ 0 ≤ c.2) ∧ IsInt c.1 ∧ IsInt c.2) ∧
    ((leftFeed (alignRuns ds1 ds2)).map (·.1)).sum ≤ (expand ds1.buckets).sum ∧
    ((leftFeed (alignRuns ds1 ds2)).map fun c => c.1 * c.2).sum =
      (spread (products (alignRuns ds1 ds2))).sum := by
  have hcount := alignRuns_count_nonneg h1.descending.count_nonneg h2.descending.count_nonneg
  refine ⟨fun c hc => ?_, ?_, ?_⟩
  · obtain ⟨r, hr, rfl⟩ := List.mem_map.mp hc
    obtain ⟨⟨hi1, ho1⟩, hi2, ho2⟩ := whole_runs h1 h2 r hr
    have hr0 : (0 : K) ≤ r.count := by exact_mod_cast hcount r hr
    exact ⟨⟨mul_nonneg (zero_le_one.trans ho1) hr0, zero_le_one.trans ho2⟩,
      hi1.mul (.intCast _), hi2⟩
  · have hsum := sum_map_pairs (fun x : K × K => x.1) hcount
    rw [pairs_alignRuns h1.descending.count_nonneg h2.descending.count_nonneg] at hsum
    have hrows : (leftFeed (alignRuns ds1 ds2)).map (·.1) =
        (alignRuns ds1 ds2).map fun r => (r.count : K) * r.degree1 := by
      rw [leftFeed, List.map_map]
      exact List.map_congr_left fun r _ => mul_comm _ _
    rw [hrows, ← hsum]
    exact sum_fst_zip_le (fun x hx => (h1.descending.expand_pos x hx).le) _
  · rw [← DSStatistic.sum_products hcount, leftFeed, List.map_map]
    exact congrArg List.sum (List.map_congr_left fun r _ => by simp only [Function.comp]; ring)

end Total

namespace DSStatistic

variable [IsStrictOrderedRing K] {st other : DSStatistic K} {t : Table}

/-- A statistic of whole degrees in which every table has as many rows as the star. -/
structure Exact (st : DSStatistic K) : Prop where
  keyed : st.Keyed
  whole : ∀ u ∈ st.tables, WholeBuckets (st.dsOf u).buckets
  total : ∀ u ∈ st.tables, (st.dsOf u).getCard = st.card

theorem Exact.sum_eq (h : st.Exact) {u : Table} (hu : u ∈ st.tables) :
    (expand (st.dsOf u).buckets).sum = st.card := by
  rw [← getCard_eq_sum _ (h.whole u hu).descending.count_nonneg, h.total u hu]

/-- Every edge table of the left operand receives the rows of the result. -/
theorem getCard_edge (h : st.Exact) (ht : t ∈ st.tables) {ds : DegreeSequence K}
    (hds : WholeBuckets ds.buckets) {u : Table} (hu : u ∈ st.tables) (p : K) {card : K}
    (hcard : card = (spread (products (alignRuns (st.dsOf t) ds))).sum) (h0 : 0 ≤ card)
    (hc : IsInt card) :
    (cutTwice p card (edgeCalls rowEps (st.dsOf u) (leftFeed (alignRuns (st.dsOf t) ds)))).getCard =
      card := by
  obtain ⟨hfeed, hle, hsum⟩ := leftFeed_spec (h.whole t ht) hds
  have hu' := h.whole u hu
  have hb : ∀ b ∈ (st.dsOf u).buckets, 0 < b.maxDegree ∧ 0 ≤ b.count := fun b hb =>
    ⟨hu'.descending.degree_pos b hb, hu'.descending.count_nonneg b hb⟩
  obtain ⟨-, -, hcalls, -⟩ := edgeCalls_dealt rowEps_pos.le hb fun c hc => (hfeed c hc).1
  refine getCard_cutTwice hcalls (edgeCalls_whole hu'.integral fun c hc => (hfeed c hc).2) h0 hc ?_
  rw [sum_edgeCalls hb hu'.integral (fun c hc => (hfeed c hc).1) (fun c hc => (hfeed c hc).2.1)
    (hle.trans_eq ((h.sum_eq ht).trans (h.sum_eq hu).symm)), hsum, hcard]

/-- `merge` computes the rank-wise join, and every table keeps all its rows. -/
theorem merge_conserves (h1 : st.Exact) (h2 : other.Exact) (ht1 : t ∈ st.tables)
    (ht2 : t ∈ other.tables) (hcommon : ∀ u ∈ st.tables, u ∈ other.tables → u = t) :
    ∃ new, merge st other t = .ok new ∧
      new.tables = st.tables ++ other.tables.filter (· ∉ st.tables) ∧
      new.card = ∑ r ∈ Finset.range (min (expand (st.dsOf t).buckets).length
        (expand (other.dsOf t).buckets).length),
        seq (st.dsOf t).buckets r * seq (other.dsOf t).buckets r ∧
      ∀ u ∈ new.tables, (new.dsOf u).getCard = new.card := by
  have hm : Mergeable st other t := ⟨h1.keyed, h2.keyed, ht1, ht2, hcommon⟩
  have hw1 := h1.whole t ht1
  have hw2 := h2.whole t ht2
  obtain ⟨new, hok, hnew⟩ := merge_ok hm hw1.descending.count_nonneg hw2.descending.count_nonneg
  have hbag := whole_products hw1 hw2
  have hcount := alignRuns_count_nonneg hw1.descending.count_nonneg hw2.descending.count_nonneg
  have h0 : 0 ≤ new.card := hnew.card ▸ hbag.sum_nonneg
  have hc : IsInt new.card := hnew.card ▸ hbag.sum_isInt
  refine ⟨new, hok, ?_, ?_, fun u hu => ?_⟩
  · rw [hnew.tables, ← hm.tables, mergeTables_eq h2.keyed.nodup]
  · rw [hnew.card, sum_spread_products hw1.descending.count_nonneg hw2.descending.count_nonneg
      le_rfl]
    rfl
  · rw [hnew.tables] at hu
    by_cases hut : u = t
    · subst hut
      have hcalls : ∀ c ∈ products (alignRuns (st.dsOf u) (other.dsOf u)),
          0 ≤ c.1 ∧ 0 ≤ c.2 ∧ IsInt c.1 := fun c hc => by
        obtain ⟨r, hr, rfl⟩ := List.mem_map.mp hc
        obtain ⟨⟨hi1, ho1⟩, hi2, ho2⟩ := whole_runs hw1 hw2 r hr
        exact ⟨mul_nonneg (zero_le_one.trans ho1) (zero_le_one.trans ho2), hcount r hr, hi1.mul hi2⟩
      rw [hnew.mergeDs]
      exact getCard_cutTwice ⟨fun c hc => (hcalls c hc).1, fun c hc => (hcalls c hc).2.1⟩
        (fun c hc => (hcalls c hc).2.2) h0 hc hnew.card.le
    · rcases List.mem_append.mp hu with hu | hu
      · rw [hnew.leftDs u (mem_edgeTables.mpr ⟨hu, hut⟩)]
        exact getCard_edge h1 ht1 hw2 hu _ hnew.card h0 hc
      · rw [hnew.rightDs u hu, rightFeed_eq]
        refine getCard_edge h2 ht2 hw1 (mem_edgeTables.mp hu).1 _ ?_ h0 hc
        rw [hnew.card, alignRuns_comm (st.dsOf t), products_swap]

/-- Two tables, each with the degrees and counts of its buckets. -/
def twoTables (card : ℚ) (t u : Table) (l l' : List (ℕ × ℕ)) : DSStatistic ℚ :=
  { ((ofTables [t, u] 2).setDs t ⟨bucketsOf l, []⟩).setDs u ⟨bucketsOf l', []⟩ with card }

theorem exact_twoTables {card : ℚ} {t u : Table} (htu : t ≠ u) {l l' : List (ℕ × ℕ)}
    (h : IsBuckets l ∧ IsBuckets l')
    (hcard : (⟨bucketsOf l, []⟩ : DegreeSequence ℚ).getCard = card ∧
      (⟨bucketsOf l', []⟩ : DegreeSequence ℚ).getCard = card) :
    (twoTables card t u l l').Exact := by
  have hk : (((ofTables [t, u] (2 : ℚ)).setDs t ⟨bucketsOf l, []⟩).setDs u ⟨bucketsOf l', []⟩).Keyed :=
    ((keyed_ofTables (by simpa using htu) 2).setDs (by simp [ofTables]) _).setDs
      (by simp [ofTables]) _
  have hu : (twoTables card t u l l').dsOf u = ⟨bucketsOf l', []⟩ :=
    (dsOf_setDs _ _).trans (if_pos rfl)
  have ht : (twoTables card t u l l').dsOf t = ⟨bucketsOf l, []⟩ :=
    (dsOf_setDs _ _).trans ((if_neg htu).trans ((dsOf_setDs _ _).trans (if_pos rfl)))
  refine ⟨⟨hk.nodup, hk.isSome_iff⟩, ?_, ?_⟩
  all_goals
    rintro v (_ | ⟨_, _ | ⟨_, ⟨⟩⟩⟩)
  · exact ht ▸ wholeBuckets_of h.1
  · exact hu ▸ wholeBuckets_of h.2
  · exact ht ▸ hcard.1
  · exact hu ▸ hcard.2

/-- Rows of degrees `3, 1` meet rows of degrees `2, 2, 1` rank by rank. -/
theorem merge_conserves_twoTables :
    ∃ new, merge (twoTables 4 "a" "b" [(3, 1), (1, 1)] [(1, 4)])
        (twoTables 5 "a" "c" [(2, 2), (1, 1)] [(5, 1)]) "a" = .ok new ∧
      new.tables = ["a", "b", "c"] ∧ new.card = 8 ∧
      ∀ u ∈ new.tables, (new.dsOf u).getCard = 8 := by
  obtain ⟨new, hok, htables, hcard, htotal⟩ := merge_conserves
    (show (twoTables 4 "a" "b" [(3, 1), (1, 1)] [(1, 4)]).Exact from
      exact_twoTables (by decide) (by decide) (by decide +kernel))
    (show (twoTables 5 "a" "c" [(2, 2), (1, 1)] [(5, 1)]).Exact from
      exact_twoTables (by decide) (by decide) (by decide +kernel))
    (t := "a") (by decide) (by decide) (by decide)
  have hsum : new.card = 8 := hcard.trans (by decide +kernel)
  exact ⟨new, hok, htables.trans (by decide), hsum, fun u hu => (htotal u hu).trans hsum⟩

/-- Of a table that is listed twice the left operand loses a row, and of the right operand's two
entries one stays. -/
theorem merge_conserves_listedTwice :
    (∀ st ∈ [listedTwice, listedOnce], ∀ u ∈ st.tables,
      WholeBuckets (st.dsOf u).buckets ∧ (st.dsOf u).getCard = st.card) ∧
    (∀ u ∈ listedTwice.tables, u ∈ listedOnce.tables → u = "t") ∧
    (merge listedTwice listedOnce "t").toOption.map (fun new => (new.card, (new.dsOf "u").getCard)) =
      some (5, 4) ∧
    (merge listedOnce listedTwice "t").toOption.map (·.tables) = some ["t", "v", "u"] := by
  refine ⟨?_, by decide +kernel, by decide +kernel, by decide +kernel⟩
  have hbuckets : ∀ st ∈ [listedTwice, listedOnce], ∀ u ∈ st.tables,
      IsBuckets ((st.dsOf u).buckets.map fun b => (b.maxDegree.num.toNat, b.count.toNat)) ∧
        (st.dsOf u).buckets = bucketsOf ((st.dsOf u).buckets.map fun b =>
          (b.maxDegree.num.toNat, b.count.toNat)) ∧
        (st.dsOf u).getCard = st.card := by decide +kernel
  intro st hst u hu
  obtain ⟨hl, hb, hcard⟩ := hbuckets st hst u hu
  exact ⟨hb ▸ wholeBuckets_of hl, hcard⟩

end DSStatistic

end StarCE
