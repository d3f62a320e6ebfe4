import StarCE.Manager.Independent
import StarCE.Stat.Bounds

/-!
# The rows of a query

What an estimate is about: the rows of the join of some relations, one tuple of
each, that pass their filters and agree in a value that is not NULL wherever a
join class has attributes of two of them (`joinRows`). The part of such a row
in some join classes fits these (`Fits`), and a statistic bounds the parts in
some relations if it bounds every choice of them (`BoundsRows`). That holds of
the statistic of a class once its filters are applied
(`readyClass_boundsRows`).
-/

namespace StarCE

variable {K V : Type} [Field K] [LinearOrder K] [FloorRing K] [DecidableEq V]

namespace StatisticManager

variable {sm sm0 sm1 : StatisticManager K} {db : Database V} {pass : ℕ → Row V → Bool}
  {A : List AttrEset} {E : AttrEset} {C D : Set ℕ} {ρ : ℕ → ℕ} {rels : List ℕ} {rel : ℕ}

/-- The table of a relation. -/
def tableAt (sm : StatisticManager K) (rel : ℕ) : Table := (sm.tableName.find? rel).getD ""

/-- One tuple of each relation. -/
abbrev QueryRow (db : Database V) (sm : StatisticManager K) (rels : List ℕ) : Type :=
  (r : {r // r ∈ rels}) → Fin (db (sm.tableAt r)).length

open scoped Classical in
/-- The rows of the join of `rels` that pass the filters. -/
noncomputable def joinRows (db : Database V) (sm : StatisticManager K) (rels : List ℕ)
    (pass : ℕ → Row V → Bool) : Finset (QueryRow db sm rels) :=
  {ρ | (∀ r : {r // r ∈ rels}, pass r ((db (sm.tableAt r)).get (ρ r)) = true) ∧
    ∀ E ∈ sm.attrEsets, ∀ a ∈ E, ∀ b ∈ E, a ≠ b →
      ∀ (ha : (ofLex a).1 ∈ rels) (hb : (ofLex b).1 ∈ rels),
        ∃ v, keyAt db (sm.columnOf a) (ρ ⟨_, ha⟩) = some v ∧ keyAt db (sm.columnOf b) (ρ ⟨_, hb⟩) = some v}

/-! ## Parts of rows -/

/-- The value of a column in the tuple with the number `i`. -/
def valueAt (db : Database V) (c : TableColumn) (i : ℕ) : Option V :=
  (db c.tableName)[i]?.bind fun row => row c.columnName

def Passes (sm : StatisticManager K) (db : Database V) (pass : ℕ → Row V → Bool) (rel i : ℕ) : Prop :=
  ∃ row, (db (sm.tableAt rel))[i]? = some row ∧ pass rel row = true

/-- The tuples of the relations of a class agree. -/
def Agree (sm : StatisticManager K) (db : Database V) (E : AttrEset) (ρ : ℕ → ℕ) : Prop :=
  ∀ a ∈ E, ∀ b ∈ E, ∃ v, valueAt db (sm.columnOf a) (ρ (ofLex a).1) = some v ∧
    valueAt db (sm.columnOf b) (ρ (ofLex b).1) = some v

/-- The tuples pass, and agree in the classes `C`. -/
def Fits (sm : StatisticManager K) (db : Database V) (pass : ℕ → Row V → Bool) (A : List AttrEset)
    (C : Set ℕ) (ρ : ℕ → ℕ) : Prop :=
  ∀ k ∈ C, sm.Agree db (A.getD k ∅) ρ ∧ ∀ r ∈ relsAt A k, sm.Passes db pass r (ρ r)

/-- The relations of the classes `C`. -/
def relsOf (A : List AttrEset) (C : Set ℕ) : Set ℕ := {r | ∃ k ∈ C, r ∈ relsAt A k}

theorem relsOf_union : relsOf A (C ∪ D) = relsOf A C ∪ relsOf A D := by
  ext r
  constructor
  · rintro ⟨k, hk | hk, hr⟩
    · exact .inl ⟨k, hk, hr⟩
    · exact .inr ⟨k, hk, hr⟩
  · rintro (⟨k, hk, hr⟩ | ⟨k, hk, hr⟩)
    · exact ⟨k, .inl hk, hr⟩
    · exact ⟨k, .inr hk, hr⟩

theorem relsOf_singleton (A : List AttrEset) (k : ℕ) : relsOf A {k} = relsAt A k := by
  ext r
  constructor
  · rintro ⟨k', rfl, hr⟩
    exact hr
  · exact fun hr => ⟨k, rfl, hr⟩

section

omit [DecidableEq V]

theorem valueAt_lt {c : TableColumn} {i : ℕ} {v : V} (h : valueAt db c i = some v) :
    i < (db c.tableName).length := by
  by_contra hi
  rw [valueAt, List.getElem?_eq_none (not_lt.mp hi)] at h
  cases h

theorem keyAt_eq (c : TableColumn) (i : Fin (db c.tableName).length) :
    keyAt db c i = valueAt db c i := by
  rw [valueAt, List.getElem?_eq_getElem i.2]
  rfl

end

section

omit [Field K] [LinearOrder K] [FloorRing K] [DecidableEq V]

/-- Only the relations of the classes matter. -/
theorem Fits.indicator (h : sm.Fits db pass A C ρ) : sm.Fits db pass A C ((relsOf A C).indicator ρ) := by
  intro k hk
  obtain ⟨hagree, hpass⟩ := h k hk
  have hsame : ∀ r ∈ relsAt A k, (relsOf A C).indicator ρ r = ρ r := fun r hr =>
    Set.indicator_of_mem (show r ∈ relsOf A C from ⟨k, hk, hr⟩) ρ
  refine ⟨fun a ha b hb => ?_, fun r hr => ?_⟩
  · rw [hsame _ (mem_relsAt.mpr ⟨a, ha, rfl⟩), hsame _ (mem_relsAt.mpr ⟨b, hb, rfl⟩)]
    exact hagree a ha b hb
  · rw [hsame r hr]
    exact hpass r hr

theorem Fits.mono (h : sm.Fits db pass A D ρ) (hCD : C ⊆ D) : sm.Fits db pass A C ρ := fun k hk =>
  h k (hCD hk)

end

/-- A tuple's number, read off the text of its relation. -/
def rowKey (u : Table) (ρ : ℕ → ℕ) : ℕ := ρ (u.toNat?.getD 0)

@[simp] theorem rowKey_toString (r : ℕ) : rowKey (toString r) ρ = ρ r := by
  have h : (toString r : String).toNat? = some r := Nat.toNat?_repr r
  rw [rowKey, h, Option.getD_some]

/-! ## Statistics that bound parts -/

/-- The tables are the relations `S`, and every choice of parts with `P` is bounded. -/
structure BoundsRows (st : DSStatistic K) (S : Set ℕ) (P : (ℕ → ℕ) → Prop) : Prop where
  tables : ∀ u, u ∈ st.tables ↔ ∃ r ∈ S, u = toString r
  bounds : ∀ R : Finset (ℕ → ℕ), (∀ ρ ∈ R, P ρ ∧ ∀ r ∉ S, ρ r = 0) → st.Bounds R rowKey

section Bounds

variable {st other : DSStatistic K} {S T : Set ℕ} {P Q : (ℕ → ℕ) → Prop}
  {ndv : OrdMap String ℤ}

omit [FloorRing K] in
theorem BoundsRows.mono (h : BoundsRows st S P) (hQ : ∀ ρ, (∀ r ∉ S, ρ r = 0) → Q ρ → P ρ) :
    BoundsRows st S Q :=
  ⟨h.tables, fun R hR => h.bounds R fun ρ hρ => ⟨hQ ρ (hR ρ hρ).2 (hR ρ hρ).1, (hR ρ hρ).2⟩⟩

variable [IsStrictOrderedRing K]

theorem BoundsRows.adjusted (h : BoundsRows st S P) (ndv : OrdMap String ℤ) :
    BoundsRows (st.averaged ndv 1).limitAllDsToCard S P := by
  have htables : (st.averaged ndv 1).limitAllDsToCard.tables = st.tables :=
    (DSStatistic.keeps_limitAllDsToCard _).tables.trans (DSStatistic.keeps_averaged st ndv 1).tables
  exact ⟨fun u => by rw [htables, h.tables], fun R hR => (h.bounds R hR).adjusted ndv⟩

theorem BoundsRows.ready (h : BoundsRows st S P) (ndv : OrdMap String ℤ) :
    BoundsRows (st.ready ndv 1) S P :=
  ⟨fun u => by rw [DSStatistic.ready_tables, h.tables], fun R hR => (h.bounds R hR).ready ndv⟩

/-- At one common relation the parts on both sides are joined. -/
theorem BoundsRows.merge (h1 : BoundsRows st S P) (h2 : BoundsRows other T Q) (hS : rel ∈ S)
    (hT : rel ∈ T) (honly : ∀ r ∈ S, r ∈ T → r = rel) :
    ∃ new, DSStatistic.merge st other (toString rel) = .ok new ∧
      BoundsRows new (S ∪ T) fun ρ => P (S.indicator ρ) ∧ Q (T.indicator ρ) := by
  classical
  have hmem1 : toString rel ∈ st.tables := (h1.tables _).mpr ⟨rel, hS, rfl⟩
  have hmem2 : toString rel ∈ other.tables := (h2.tables _).mpr ⟨rel, hT, rfl⟩
  have hcommon : ∀ u ∈ st.tables, u ∈ other.tables → u = toString rel := by
    intro u hu1 hu2
    obtain ⟨r, hr, rfl⟩ := (h1.tables u).mp hu1
    obtain ⟨r', hr', heq⟩ := (h2.tables _).mp hu2
    rw [honly r hr (toString_injective heq ▸ hr')]
  have hzero : ∀ (S : Set ℕ) (ρ : ℕ → ℕ), ∀ r ∉ S, S.indicator ρ r = 0 := fun S ρ r hr =>
    Set.indicator_of_notMem hr ρ
  have hmerge : ∀ R : Finset (ℕ → ℕ), (∀ ρ ∈ R, P (S.indicator ρ) ∧ Q (T.indicator ρ)) →
      ∃ new, DSStatistic.merge st other (toString rel) = .ok new ∧
        (∀ u, u ∈ new.tables ↔ u ∈ st.tables ∨ u ∈ other.tables) ∧
        new.Bounds (joinOn (R.image S.indicator) (R.image T.indicator) (rowKey (toString rel))
          (rowKey (toString rel))) (DSStatistic.joinKey st rowKey rowKey) := by
    intro R hR
    have hb1 : st.Bounds (R.image S.indicator) rowKey := h1.bounds _ fun σ hσ => by
      obtain ⟨ρ, hρ, rfl⟩ := Finset.mem_image.mp hσ
      exact ⟨(hR ρ hρ).1, hzero S ρ⟩
    have hb2 : other.Bounds (R.image T.indicator) rowKey := h2.bounds _ fun σ hσ => by
      obtain ⟨ρ, hρ, rfl⟩ := Finset.mem_image.mp hσ
      exact ⟨(hR ρ hρ).2, hzero T ρ⟩
    exact hb1.merge hb2 hmem1 hmem2 hcommon
  obtain ⟨new, hok, htables, -⟩ := hmerge ∅ (by simp)
  refine ⟨new, hok, fun u => ?_, fun R hR => ?_⟩
  · rw [htables, h1.tables, h2.tables]
    constructor
    · rintro (⟨r, hr, rfl⟩ | ⟨r, hr, rfl⟩)
      · exact ⟨r, .inl hr, rfl⟩
      · exact ⟨r, .inr hr, rfl⟩
    · rintro ⟨r, hr | hr, rfl⟩
      · exact .inl ⟨r, hr, rfl⟩
      · exact .inr ⟨r, hr, rfl⟩
  · obtain ⟨new', hok', -, hb⟩ := hmerge R fun ρ hρ => (hR ρ hρ).1
    obtain rfl := Except.ok.inj (hok'.symm.trans hok)
    -- a row is known from its parts in `S` and in `T`
    apply hb.of_injOn (f := fun ρ => (S.indicator ρ, T.indicator ρ))
    · intro ρ hρ
      refine mem_joinOn.mpr ⟨⟨Finset.mem_image_of_mem _ hρ, Finset.mem_image_of_mem _ hρ⟩, ?_⟩
      rw [rowKey_toString, rowKey_toString]
      show S.indicator ρ rel = T.indicator ρ rel
      rw [Set.indicator_of_mem hS, Set.indicator_of_mem hT]
    · intro ρ hρ ρ' hρ' heq
      obtain ⟨heqS, heqT⟩ := Prod.mk.inj heq
      funext r
      by_cases hr : r ∈ S ∪ T
      · rcases hr with hr | hr
        · have := congrFun heqS r
          rwa [Set.indicator_of_mem hr, Set.indicator_of_mem hr] at this
        · have := congrFun heqT r
          rwa [Set.indicator_of_mem hr, Set.indicator_of_mem hr] at this
      · rw [(hR ρ hρ).2 r hr, (hR ρ' hρ').2 r hr]
    · intro u hu ρ _
      rw [DSStatistic.joinKey]
      split
      · next hu1 =>
        obtain ⟨r, hr, rfl⟩ := (h1.tables u).mp hu1
        rw [rowKey_toString, rowKey_toString]
        exact Set.indicator_of_mem hr ρ
      · next hu1 =>
        obtain ⟨r, hr, rfl⟩ := (h2.tables u).mp (((htables u).mp hu).resolve_left hu1)
        rw [rowKey_toString, rowKey_toString]
        exact Set.indicator_of_mem hr ρ

/-! ## A filter -/

/-- The numbers of the members with `p`. -/
theorem card_le_countP {α : Type} (l : List α) (p : α → Bool) {T : Finset ℕ}
    (hT : ∀ i ∈ T, ∃ x, l[i]? = some x ∧ p x = true) : T.card ≤ l.countP p := by
  induction l using List.reverseRecOn generalizing T with
  | nil =>
    have hempty : T = ∅ := Finset.eq_empty_of_forall_notMem fun i hi => by
      obtain ⟨x, hx, -⟩ := hT i hi
      cases hx
    simp [hempty]
  | append_singleton l x ih =>
    have hrest : ∀ i ∈ T.erase l.length, ∃ y, l[i]? = some y ∧ p y = true := by
      intro i hi
      obtain ⟨hne, hi⟩ := Finset.mem_erase.mp hi
      obtain ⟨y, hy, hpy⟩ := hT i hi
      have hlt : i < l.length := by
        have := (List.getElem?_eq_some_iff.mp hy).1
        rw [List.length_append, List.length_singleton] at this
        omega
      rw [List.getElem?_append_left hlt] at hy
      exact ⟨y, hy, hpy⟩
    have hle := ih hrest
    rw [List.countP_append]
    by_cases hmem : l.length ∈ T
    · obtain ⟨y, hy, hpy⟩ := hT _ hmem
      rw [List.getElem?_concat_length] at hy
      obtain rfl := Option.some.inj hy
      have hone : [x].countP p = 1 := by simp [hpy]
      have := Finset.card_erase_add_one hmem
      omega
    · rw [Finset.erase_eq_of_notMem hmem] at hle
      omega

omit [DecidableEq V] in
/-- As many ones as tuples pass. -/
theorem single_boundsRows {F : ℤ} (p : K)
    (hF : ((db (sm.tableAt rel)).countP (pass rel) : ℤ) ≤ F) :
    BoundsRows (.single (toString rel) (F : K) p) {rel} fun ρ => sm.Passes db pass rel (ρ rel) := by
  classical
  refine ⟨fun u => ?_, fun R hR => ?_⟩
  · show u ∈ [toString rel] ↔ _
    simp
  · have hcard : (R.image fun ρ => ρ rel).card ≤ (db (sm.tableAt rel)).countP (pass rel) := by
      refine card_le_countP _ _ fun i hi => ?_
      obtain ⟨ρ, hρ, rfl⟩ := Finset.mem_image.mp hi
      exact (hR ρ hρ).1
    have hb := DSStatistic.bounds_single (toString rel) p (T := R.image fun ρ => ρ rel)
      (le_trans (by exact_mod_cast hcard) hF)
    apply hb.of_injOn (f := fun ρ => ρ rel)
    · exact fun ρ hρ => Finset.mem_image_of_mem _ hρ
    · intro ρ hρ ρ' hρ' heq
      funext r
      by_cases hr : r = rel
      · rw [hr]
        exact heq
      · rw [(hR ρ hρ).2 r hr, (hR ρ' hρ').2 r hr]
    · intro u hu ρ _
      rw [List.mem_singleton.mp hu, rowKey_toString]

/-- What is known of the filter of a relation: at least the tuples that pass are reported. -/
def FilterBound (sm : StatisticManager K) (db : Database V) (pass : ℕ → Row V → Bool) (rel : ℕ) : Prop :=
  ∃ filter, sm.filterString.find? rel = some filter ∧ (filter ≠ "" →
    ∃ F, sm.getTableCard rel = .ok F ∧ ((db (sm.tableAt rel)).countP (pass rel) : ℤ) ≤ F)

/-- A relation that has been entered. -/
def EnteredRel (sm : StatisticManager K) (rel : ℕ) : Prop :=
  ∃ table n, sm.tableName.find? rel = some table ∧ sm.relNDV.find? (toString rel) = some n ∧
    sm.getNDV table = .ok n

omit [DecidableEq V] in
theorem filterRows_boundsRows (h : BoundsRows st S P) {a : Attribute} (ha : (ofLex a).1 ∈ S)
    (hfilter : sm.FilterBound db pass (ofLex a).1) (hrel : sm.EnteredRel (ofLex a).1)
    (hk : sm.predicateAdjustRate = 1) : ∃ new, sm.filterRows st a = .ok new ∧
      BoundsRows new S fun ρ => P ρ ∧ sm.Passes db pass (ofLex a).1 (ρ (ofLex a).1) := by
  obtain ⟨filter, hfind, hF⟩ := hfilter
  by_cases hempty : filter = ""
  · rw [hempty] at hfind
    exact ⟨st, filterRows_unfiltered hfind, h.mono fun _ _ => And.left⟩
  · obtain ⟨F, hcard, hle⟩ := hF hempty
    obtain ⟨table, n, htable, hrelNDV, hndv⟩ := hrel
    have hsingle : BoundsRows (((DSStatistic.single (toString (ofLex a).1) (F : K)
        sm.compressPrecision).averaged sm.relNDV 1).limitAllDsToCard) {(ofLex a).1}
        fun ρ => sm.Passes db pass (ofLex a).1 (ρ (ofLex a).1) :=
      (single_boundsRows sm.compressPrecision hle).adjusted sm.relNDV
    have hadjust : (DSStatistic.single (toString (ofLex a).1) (F : K) sm.compressPrecision).adjustToAverage
        sm.relNDV sm.predicateAdjustRate = .ok ((DSStatistic.single (toString (ofLex a).1) (F : K)
          sm.compressPrecision).averaged sm.relNDV 1).limitAllDsToCard := by
      rw [hk]
      refine DSStatistic.adjustToAverage_eq_ok.mpr ⟨fun u hu => ?_, rfl⟩
      rw [List.mem_singleton.mp hu, hrelNDV]
      rfl
    obtain ⟨new, hok, hnew⟩ := h.merge hsingle ha (Set.mem_singleton _) fun r _ hr => hr
    refine ⟨new, ?_, ?_⟩
    · rw [filterRows, OrdMap.lookup, hfind]
      simp only [bind, Except.bind, if_neg hempty, hcard, OrdMap.lookup, htable, hndv, hadjust]
      exact hok
    · rw [Set.union_eq_left.mpr (Set.singleton_subset_iff.mpr ha)] at hnew
      refine hnew.mono fun ρ h0 hρ => ⟨?_, ?_⟩
      · have hsame : S.indicator ρ = ρ := Set.indicator_eq_self.mpr fun r hr => by
          by_contra hn
          exact hr (h0 r hn)
        rw [hsame]
        exact hρ.1
      · rw [Set.indicator_of_mem (Set.mem_singleton _)]
        exact hρ.2

end Bounds

end StatisticManager

end StarCE
