import StarCE.Manager.Counts
import StarCE.Seq.Hinge

/-!
# Star joins

What the statistics are about: the rows of the inner equi-join of the columns
of an equal set on one common non-NULL key value. `starJoin` lists them as
choices of one row for each entry. Their number is a sum of products over the
key values (`card_starJoin`), and the number containing one row of a table is
the product of the other tables' counts at its key (`card_starJoin_row`).
-/

namespace StarCE

open Finset

variable {V : Type} [DecidableEq V]

namespace EqualSet

def finset (s : EqualSet) : Finset TableColumn := s.entries.toList.toFinset

theorem mem_finset {s : EqualSet} {c : TableColumn} : c ∈ s.finset ↔ c ∈ s.entries := by
  rw [finset, List.mem_toFinset]; rfl

theorem prod_finset {M : Type} [CommMonoid M] (s : EqualSet) (f : TableColumn → M) :
    ∏ c ∈ s.finset, f c = (s.entries.toList.map f).prod := List.prod_toFinset f s.entries.nodup

end EqualSet

/-- One row for each entry. -/
abbrev StarRow (db : Database V) (s : EqualSet) : Type :=
  (c : s.finset) → Fin (db c.1.tableName).length

/-- The key of a row. -/
def keyAt (db : Database V) (c : TableColumn) (i : Fin (db c.tableName).length) : Option V :=
  ((db c.tableName).get i) c.columnName

/-- The rows with key `v`. -/
def rowsAt (db : Database V) (c : TableColumn) (v : V) : Finset (Fin (db c.tableName).length) :=
  {i | keyAt db c i = some v}

open scoped Classical in
/-- The rows of the star join. -/
noncomputable def starJoin (db : Database V) (s : EqualSet) : Finset (StarRow db s) :=
  {ρ | ∃ v, ∀ c : s.finset, keyAt db c.1 (ρ c) = some v}

/-- The number of star rows with key `v`. -/
def starCount (db : Database V) (s : EqualSet) (v : V) : ℕ := ∏ c ∈ s.finset, columnCount db c v

/-- The key values at which every table has a row. -/
def live (db : Database V) (s : EqualSet) : List V :=
  (keys db s.entries.toList).filter fun v => starCount db s v ≠ 0

variable {db : Database V} {s : EqualSet} {v : V}

omit [DecidableEq V] in
theorem columnValues_eq (db : Database V) (c : TableColumn) :
    columnValues db c = (List.finRange _).filterMap (keyAt db c) := by
  conv_lhs => rw [columnValues, ← List.map_get_finRange (db c.tableName), List.filterMap_map]
  rfl

theorem card_rowsAt (c : TableColumn) (v : V) : (rowsAt db c v).card = columnCount db c v := by
  have h : ∀ l : List (Fin (db c.tableName).length),
      (l.filterMap (keyAt db c)).count v = (l.filter fun i => keyAt db c i = some v).length := by
    intro l
    induction l with
    | nil => rfl
    | cons i l ih =>
      rw [List.filterMap_cons, List.filter_cons]
      cases hk : keyAt db c i with
      | none => simpa [hk] using ih
      | some u => by_cases hu : u = v <;> simp [hu, ih]
  rw [columnCount, columnValues_eq, h, rowsAt, card_def, filter_val, Fin.univ_def,
    Multiset.filter_coe, Multiset.coe_card]

theorem mem_rowsAt {c : TableColumn} {i : Fin (db c.tableName).length} :
    i ∈ rowsAt db c v ↔ keyAt db c i = some v := by simp [rowsAt]

omit [DecidableEq V] in
theorem mem_starJoin {ρ : StarRow db s} :
    ρ ∈ starJoin db s ↔ ∃ v, ∀ c : s.finset, keyAt db c.1 (ρ c) = some v := by
  simp [starJoin]

theorem nodup_live : (live db s).Nodup := nodup_keys.filter _

theorem starCount_pos : 0 < starCount db s v ↔ ∀ c ∈ s.entries, 0 < columnCount db c v := by
  simp only [starCount, Nat.pos_iff_ne_zero, ne_eq, prod_eq_zero_iff, EqualSet.mem_finset]
  push Not
  rfl

theorem mem_live (hs : s.entries.toList ≠ []) : v ∈ live db s ↔ 0 < starCount db s v := by
  rw [live, List.mem_filter, decide_eq_true_eq, ← Nat.pos_iff_ne_zero]
  refine ⟨And.right, fun h => ⟨?_, h⟩⟩
  obtain ⟨c, hc⟩ := List.exists_mem_of_ne_nil _ hs
  exact mem_keys.mpr ⟨c, hc, columnCount_pos.mp (starCount_pos.mp h c hc)⟩

/-- A sum over all keys is one over the live keys. -/
theorem sum_live {M : Type} [AddCommMonoid M] (hs : s.entries.toList ≠ []) {ks : List V}
    (hk : ks.Nodup) (hsub : ∀ v ∈ live db s, v ∈ ks) (w : V → M)
    (h0 : ∀ v, starCount db s v = 0 → w v = 0) :
    (ks.map w).sum = ((live db s).map w).sum := by
  rw [← List.sum_toFinset w hk, ← List.sum_toFinset w nodup_live]
  symm
  refine sum_subset (fun v hv => ?_) fun v _ hv => h0 v ?_
  · exact List.mem_toFinset.mpr (hsub v (List.mem_toFinset.mp hv))
  · rw [List.mem_toFinset, mem_live hs] at hv
    omega

/-! ## The number of star rows -/

/-- The star rows with one key, possibly with the row of one entry given. -/
theorem starJoin_eq_biUnion (hs : s.entries.toList ≠ []) :
    starJoin db s = (live db s).toFinset.biUnion fun v =>
      Fintype.piFinset fun c : s.finset => rowsAt db c.1 v := by
  ext ρ
  simp only [mem_starJoin, mem_biUnion, List.mem_toFinset, Fintype.mem_piFinset, mem_rowsAt]
  refine ⟨fun ⟨v, hv⟩ => ⟨v, (mem_live hs).mpr (starCount_pos.mpr fun c hc => ?_), hv⟩,
    fun ⟨v, _, hv⟩ => ⟨v, hv⟩⟩
  rw [← card_rowsAt]
  exact card_pos.mpr ⟨_, mem_rowsAt.mpr (hv ⟨c, EqualSet.mem_finset.mpr hc⟩)⟩

omit [DecidableEq V] in
theorem pairwiseDisjoint_key (hs : s.entries.toList ≠ []) (t : Set V)
    (P : V → Finset (StarRow db s)) (hP : ∀ v, ∀ ρ ∈ P v, ∀ c, keyAt db c.1 (ρ c) = some v) :
    t.PairwiseDisjoint P := by
  obtain ⟨c, hc⟩ := List.exists_mem_of_ne_nil _ hs
  intro v _ w _ hvw
  refine disjoint_left.mpr fun ρ h1 h2 => hvw ?_
  have hc' : c ∈ s.finset := EqualSet.mem_finset.mpr hc
  exact Option.some.inj ((hP v ρ h1 ⟨c, hc'⟩).symm.trans (hP w ρ h2 ⟨c, hc'⟩))

theorem card_starJoin (hs : s.entries.toList ≠ []) :
    (starJoin db s).card = ((live db s).map (starCount db s)).sum := by
  rw [starJoin_eq_biUnion hs, card_biUnion]
  · rw [← List.sum_toFinset _ nodup_live]
    refine sum_congr rfl fun v _ => ?_
    rw [Fintype.card_piFinset, starCount, ← prod_coe_sort s.finset fun c => columnCount db c v]
    refine prod_congr rfl fun c _ => ?_
    exact card_rowsAt _ v
  · refine pairwiseDisjoint_key hs _ _ fun v ρ h c => ?_
    exact mem_rowsAt.mp (Fintype.mem_piFinset.mp h c)

/-- The number of star rows that contain row `i` of the entry `c`. -/
def rowDegree (db : Database V) (s : EqualSet) (c : TableColumn)
    (i : Fin (db c.tableName).length) : ℕ :=
  match keyAt db c i with
  | none => 0
  | some v => ∏ d ∈ s.finset.erase c, columnCount db d v

open scoped Classical in
theorem card_starJoin_row (c : s.finset) (i : Fin (db c.1.tableName).length) :
    {ρ ∈ starJoin db s | ρ c = i}.card = rowDegree db s c.1 i := by
  have hs : s.entries.toList ≠ [] := List.ne_nil_of_mem (EqualSet.mem_finset.mp c.2)
  unfold rowDegree
  cases hk : keyAt db c.1 i with
  | none =>
    refine card_eq_zero.mpr (filter_eq_empty_iff.mpr fun ρ hρ he => ?_)
    obtain ⟨v, hv⟩ := mem_starJoin.mp hρ
    have := hv c
    rw [he, hk] at this
    cases this
  | some v =>
    -- the row fixes the key, and its own entry
    have : {ρ ∈ starJoin db s | ρ c = i} = Fintype.piFinset fun d : s.finset =>
        if h : d = c then {h ▸ i} else rowsAt db d.1 v := by
      ext ρ
      simp only [mem_filter, mem_starJoin, Fintype.mem_piFinset]
      constructor
      · rintro ⟨⟨u, hu⟩, rfl⟩ d
        have huv : u = v := Option.some.inj ((hu c).symm.trans hk)
        split
        · next h => subst h; simp
        · exact mem_rowsAt.mpr (huv ▸ hu d)
      · intro h
        have hc : ρ c = i := by simpa using h c
        refine ⟨⟨v, fun d => ?_⟩, hc⟩
        by_cases hd : d = c
        · subst hd; rw [hc, hk]
        · have := h d
          rw [dif_neg hd] at this
          exact mem_rowsAt.mp this
    rw [this, Fintype.card_piFinset, ← prod_erase univ (a := c) (by simp)]
    have hprod : ∏ d ∈ univ.erase c, (if h : d = c then {h ▸ i} else rowsAt db d.1 v).card =
        ∏ d ∈ univ.erase c, columnCount db d.1 v :=
      prod_congr rfl fun d hd => by rw [dif_neg (ne_of_mem_erase hd), card_rowsAt]
    rw [hprod]
    refine prod_bij (fun d _ => d.1) (fun d hd => ?_) (fun d _ e _ => Subtype.ext)
      (fun d hd => ?_) fun d _ => rfl
    · exact mem_erase.mpr ⟨fun h => ne_of_mem_erase hd (Subtype.ext h), d.2⟩
    · obtain ⟨hne, hd⟩ := mem_erase.mp hd
      exact ⟨⟨d, hd⟩, mem_erase.mpr ⟨fun h => hne (congrArg Subtype.val h), mem_univ _⟩, rfl⟩

end StarCE
