import StarCE.Manager.Estimate
import StarCE.Join.StarSplit

/-!
# The order of the relations

Two queries that differ in the ids of their relations. `getSubquery` sorts the
tables, the join conditions and the filters, but chains the attributes of a
join class by relation id: the text is the same exactly when the renaming keeps
the order of the relations inside every class (`getSubquery_renamed`).
-/

namespace StarCE

variable {K : Type} [Field K] [LinearOrder K] [FloorRing K]

/-! ## Sorting -/

theorem sortStrings_perm (l : List String) : (sortStrings l).Perm l := List.mergeSort_perm _ _

theorem pairwise_sortStrings (l : List String) : (sortStrings l).Pairwise (· ≤ ·) := by
  have h := @List.pairwise_mergeSort _ (fun s t : String => decide (s ≤ t))
    (fun a b c hab hbc => by
      simp only [decide_eq_true_eq] at *
      exact le_trans hab hbc)
    (fun a b => by
      simp only [Bool.or_eq_true, decide_eq_true_eq]
      exact le_total a b) l
  exact h.imp fun hab => of_decide_eq_true hab

theorem sortStrings_of_pairwise {l : List String} (h : l.Pairwise (· ≤ ·)) : sortStrings l = l :=
  List.Perm.eq_of_pairwise (fun _ _ _ _ h1 h2 => le_antisymm h1 h2) (pairwise_sortStrings l) h
    (sortStrings_perm l)

/-- Sorting forgets the order. -/
theorem sortStrings_congr {l l' : List String} (h : l.Perm l') : sortStrings l = sortStrings l' :=
  List.Perm.eq_of_pairwise (fun _ _ _ _ h1 h2 => le_antisymm h1 h2) (pairwise_sortStrings l)
    (pairwise_sortStrings l') ((sortStrings_perm l).trans (h.trans (sortStrings_perm l').symm))

namespace StatisticManager

variable {sm sm' : StatisticManager K} {rels rels' : List ℕ} {classes classes' : List AttrEset}
  {σ : Equiv.Perm ℕ} {A : AttrEset}

/-! ## The text -/

def tableText (sm : StatisticManager K) (rel : ℕ) : String := (sm.tableName.find? rel).getD ""

/-- The alias of the only relation of a table. -/
def aliasText (sm : StatisticManager K) (rel : ℕ) : String := sm.tableText rel ++ toString 1

def attrText (sm : StatisticManager K) (a : Attribute) : String :=
  sm.aliasText (ofLex a).1 ++ "." ++ (sm.columnName.find? a).getD ""

def chain (l : List String) : List String := (l.zip l.tail).map fun c => c.1 ++ "=" ++ c.2

def joinTexts (sm : StatisticManager K) (A : AttrEset) : List String :=
  if A.size = 1 then [] else chain (A.toList.map sm.attrText)

def filterTexts (sm : StatisticManager K) (rel : ℕ) : List String :=
  let filter := (sm.filterString.find? rel).getD ""
  if filter = "" then [] else splitFilter (filter.replace "__table_name" (sm.aliasText rel))

def fromText (sm : StatisticManager K) (rel : ℕ) : String :=
  sm.tableText rel ++ " AS " ++ sm.aliasText rel

/-- The text built from sorted lists. -/
def subqueryText (sm : StatisticManager K) (rels : List ℕ) (classes : List AttrEset) : String :=
  let sql := "SELECT COUNT(*) FROM " ++ ",".intercalate (sortStrings (rels.map sm.fromText))
  let (sql, first) := joinConditions true sql (sortStrings (classes.map sm.joinTexts).flatten)
  let (sql, _) := joinConditions first sql (sortStrings (rels.map sm.filterTexts).flatten)
  sql ++ ";"

/-- What `getSubquery` asks for is there, and each table occurs at most once. -/
structure Simple (sm : StatisticManager K) (rels : List ℕ) (classes : List AttrEset) : Prop where
  tables : ∀ rel ∈ rels, (sm.tableName.find? rel).isSome
  filters : ∀ rel ∈ rels, (sm.filterString.find? rel).isSome
  named : ∀ A ∈ classes, sm.Named A
  within : ∀ A ∈ classes, ∀ a ∈ A, (ofLex a).1 ∈ rels
  once : ∀ rel ∈ rels, ∀ rel' ∈ rels, sm.tableText rel = sm.tableText rel' → rel = rel'

section

omit [Field K] [LinearOrder K] [FloorRing K]

theorem aliasIds_simple (hn : rels.Nodup) (ht : ∀ rel ∈ rels, (sm.tableName.find? rel).isSome)
    (honce : ∀ rel ∈ rels, ∀ rel' ∈ rels, sm.tableText rel = sm.tableText rel' → rel = rel') :
    ∃ ids, sm.aliasIds rels = .ok ids ∧ ∀ rel ∈ rels, ids.find? rel = some 1 := by
  have hrun : ∃ s, rels.foldlM (fun (s : OrdMap ℕ ℕ × OrdMap String ℕ) rel => do
      let table ← sm.tableName.lookup rel
      let id := (s.2.find? table).getD 0 + 1
      pure (s.1.insert rel id, s.2.insert table id)) (∅, ∅) = .ok s ∧
      (∀ rel ∈ rels, s.1.find? rel = some 1) ∧
      ∀ table, (s.2.find? table).isSome → ∃ rel ∈ rels, sm.tableText rel = table := by
    induction rels using List.reverseRecOn with
    | nil => exact ⟨_, rfl, by simp, by simp⟩
    | append_singleton l rel ih =>
      have hl : ∀ r ∈ l, r ∈ l ++ [rel] := fun r hr => List.mem_append_left _ hr
      have hrel : rel ∈ l ++ [rel] := by simp
      have hnot : rel ∉ l := fun hm => (List.nodup_append.mp hn).2.2 rel hm rel (.head _) rfl
      obtain ⟨s, hs, hone, htables⟩ := ih (List.nodup_append.mp hn).1 (fun r hr => ht r (hl r hr))
        fun r hr r' hr' => honce r (hl r hr) r' (hl r' hr')
      have hlookup : sm.tableName.lookup rel = .ok (sm.tableText rel) :=
        OrdMap.lookup_of_isSome "" (ht rel hrel)
      have hnone : s.2.find? (sm.tableText rel) = none := by
        rw [← Option.not_isSome_iff_eq_none]
        intro hsome
        obtain ⟨r, hr, he⟩ := htables _ hsome
        exact hnot (honce r (hl r hr) rel hrel he ▸ hr)
      refine ⟨(s.1.insert rel 1, s.2.insert (sm.tableText rel) 1), ?_, fun r hr => ?_, fun t h => ?_⟩
      · rw [List.foldlM_append, hs]
        simp only [bind, Except.bind, List.foldlM_cons, hlookup, hnone]
        rfl
      · show (s.1.insert rel 1).find? r = some 1
        rw [OrdMap.find?_insert]
        split
        · rfl
        · next hne => exact hone r ((List.mem_append.mp hr).resolve_right (by simpa using hne))
      · change ((s.2.insert (sm.tableText rel) 1).find? t).isSome at h
        rw [OrdMap.find?_insert] at h
        split at h
        · next he => exact ⟨rel, hrel, he.symm⟩
        · obtain ⟨r, hr, he⟩ := htables t h
          exact ⟨r, hl r hr, he⟩
  obtain ⟨s, hs, hfind, -⟩ := hrun
  exact ⟨s.1, by rw [aliasIds, hs]; rfl, hfind⟩

theorem getSubquery_simple (hn : rels.Nodup) (h : sm.Simple rels classes) :
    sm.getSubquery rels classes = .ok (sm.subqueryText rels classes) := by
  obtain ⟨ids, hids, hone⟩ := aliasIds_simple hn h.tables h.once
  have htable : ∀ rel ∈ rels, sm.tableName.lookup rel = .ok (sm.tableText rel) := fun rel hrel =>
    OrdMap.lookup_of_isSome "" (h.tables rel hrel)
  have halias : ∀ rel ∈ rels, sm.toAlias ids rel = .ok (sm.aliasText rel) := fun rel hrel => by
    rw [toAlias, htable rel hrel, hone rel hrel]
    rfl
  have hfrom : (rels.mapM fun rel => do
      let table ← sm.tableName.lookup rel
      let name ← sm.toAlias ids rel
      pure (table ++ " AS " ++ name)) = Except.ok (rels.map sm.fromText) :=
    mapM_eq_map fun rel hrel => by
      rw [htable rel hrel, halias rel hrel]
      rfl
  have hjoins : classes.mapM (sm.joinConditionsOf ids) = .ok (classes.map sm.joinTexts) :=
    mapM_eq_map fun A hA => by
      unfold joinConditionsOf joinTexts
      split
      · rfl
      · next hs =>
        have hattrs : (A.toList.mapM fun attr => do
            let table ← sm.toAlias ids (ofLex attr).1
            let column ← sm.columnName.lookup attr
            pure (table ++ "." ++ column)) = Except.ok (A.toList.map sm.attrText) :=
          mapM_eq_map fun a ha => by
            rw [halias _ (h.within A hA a ha),
              OrdMap.lookup_of_isSome "" ((h.named A hA a ha).2 hs)]
            rfl
        rw [hattrs]
        rfl
  have hfilters : rels.mapM (sm.filtersOf ids) = .ok (rels.map sm.filterTexts) :=
    mapM_eq_map fun rel hrel => by
      unfold filtersOf filterTexts
      rw [OrdMap.lookup_of_isSome "" (h.filters rel hrel)]
      show (if _ then _ else _) = _
      split
      · next he => rw [if_pos he]; rfl
      · next he =>
        rw [if_neg he, halias rel hrel]
        rfl
  exact bind_eq_ok.mpr ⟨ids, hids, bind_eq_ok.mpr ⟨_, hfrom, bind_eq_ok.mpr
    ⟨_, hjoins, bind_eq_ok.mpr ⟨_, hfilters, rfl⟩⟩⟩⟩

end

/-! ## Renamed relations -/

def renameAttr (σ : Equiv.Perm ℕ) (a : Attribute) : Attribute := toLex (σ (ofLex a).1, (ofLex a).2)

def rename (σ : Equiv.Perm ℕ) (A : AttrEset) : AttrEset := .ofList (A.toList.map (renameAttr σ))

theorem renameAttr_injective (σ : Equiv.Perm ℕ) : Function.Injective (renameAttr σ) :=
  fun a b h => by
    have h : (σ (ofLex a).1, (ofLex a).2) = (σ (ofLex b).1, (ofLex b).2) := toLex.injective h
    obtain ⟨h1, h2⟩ := Prod.mk.inj h
    exact ofLex.injective (Prod.ext (σ.injective h1) h2)

theorem mem_rename {b : Attribute} : b ∈ rename σ A ↔ ∃ a ∈ A, renameAttr σ a = b := by
  rw [rename, OrdSet.mem_ofList, List.mem_map]
  rfl

theorem toList_rename : (rename σ A).toList.Perm (A.toList.map (renameAttr σ)) := by
  apply (List.perm_ext_iff_of_nodup (OrdSet.nodup _)
    (A.nodup.map (renameAttr_injective σ))).mpr
  intro b
  exact mem_rename.trans List.mem_map.symm

theorem size_rename : (rename σ A).size = A.size := by
  show (rename σ A).toList.length = A.toList.length
  rw [toList_rename.length_eq, List.length_map]

/-- A query and the query with the relations renamed. -/
structure Renamed (σ : Equiv.Perm ℕ) (sm sm' : StatisticManager K) : Prop where
  tables : ∀ rel, sm'.tableName.find? (σ rel) = sm.tableName.find? rel
  columns : ∀ a, sm'.columnName.find? (renameAttr σ a) = sm.columnName.find? a
  filters : ∀ rel, sm'.filterString.find? (σ rel) = sm.filterString.find? rel
  classes : sm'.attrEsets.Perm (sm.attrEsets.map (rename σ))

theorem restrict_rename (hrels : rels'.Perm (rels.map σ)) :
    restrict (rename σ A) rels' = rename σ (restrict A rels) := by
  apply OrdSet.ext_mem
  intro b
  rw [mem_restrict, mem_rename, mem_rename]
  have hmem : ∀ a : Attribute, (ofLex (renameAttr σ a)).1 ∈ rels' ↔ (ofLex a).1 ∈ rels := fun a => by
    rw [hrels.mem_iff]
    exact List.mem_map_of_injective σ.injective
  constructor
  · rintro ⟨⟨a, ha, rfl⟩, hb⟩
    exact ⟨a, mem_restrict.mpr ⟨ha, (hmem a).mp hb⟩, rfl⟩
  · rintro ⟨a, ha, rfl⟩
    obtain ⟨ha, hr⟩ := mem_restrict.mp ha
    exact ⟨⟨a, ha, rfl⟩, (hmem a).mpr hr⟩

theorem restrictions_rename {l l' : List AttrEset} (hl : l'.Perm (l.map (rename σ)))
    (hrels : rels'.Perm (rels.map σ)) :
    (restrictions l' rels').Perm ((restrictions l rels).map (rename σ)) := by
  have hcut : (l.map (rename σ)).map (restrict · rels') = (l.map (restrict · rels)).map (rename σ) := by
    rw [List.map_map, List.map_map]
    exact List.map_congr_left fun A _ => restrict_rename hrels
  have hfilter : (((l.map (restrict · rels)).map (rename σ)).filter fun eset => 1 < eset.size) =
      (restrictions l rels).map (rename σ) := by
    rw [restrictions, List.filter_map]
    congr 1
    apply List.filter_congr
    intro A _
    show decide (1 < (rename σ A).size) = decide (1 < A.size)
    rw [size_rename]
  rw [← hfilter, ← hcut]
  exact (hl.map _).filter _

theorem leftOut_rename {l l' : List AttrEset} (hl : l'.Perm (l.map (rename σ)))
    (hrels : rels'.Perm (rels.map σ)) : (leftOut l' rels').Perm ((leftOut l rels).map σ) := by
  have hvis : ∀ rel, ((restrictions l' rels').any fun eset => σ rel ∈ AttrEset.rels eset) =
      (restrictions l rels).any fun eset => rel ∈ AttrEset.rels eset := fun rel => by
    rw [(restrictions_rename hl hrels).any_eq, List.any_map]
    congr 1
    funext A
    apply decide_eq_decide.mpr
    rw [mem_rels, mem_rels]
    constructor
    · rintro ⟨b, hb, hrel⟩
      obtain ⟨a, ha, rfl⟩ := mem_rename.mp hb
      exact ⟨a, ha, σ.injective hrel⟩
    · rintro ⟨a, ha, rfl⟩
      exact ⟨_, mem_rename.mpr ⟨a, ha, rfl⟩, rfl⟩
  have hfilter : ((rels.map σ).filter fun rel =>
      ¬(restrictions l' rels').any fun eset => rel ∈ AttrEset.rels eset) = (leftOut l rels).map σ := by
    rw [leftOut, List.filter_map]
    congr 1
    apply List.filter_congr
    intro rel _
    show decide (¬_ = true) = decide (¬_ = true)
    rw [hvis]
  rw [← hfilter]
  exact hrels.filter _

section

omit [Field K] [LinearOrder K] [FloorRing K]

theorem Renamed.getAttrEsetFromRels (h : Renamed σ sm sm') (hrels : rels'.Perm (rels.map σ)) :
    (sm'.getAttrEsetFromRels rels').Perm ((sm.getAttrEsetFromRels rels).map (rename σ)) := by
  rw [getAttrEsetFromRels_eq, getAttrEsetFromRels_eq, List.map_append]
  apply (restrictions_rename h.classes hrels).append
  have hone : ((leftOut sm.attrEsets rels).map fun rel => (.ofList [toLex (rel, 0)] : AttrEset)).map
      (rename σ) = ((leftOut sm.attrEsets rels).map σ).map fun rel => .ofList [toLex (rel, 0)] := by
    rw [List.map_map, List.map_map]
    exact List.map_congr_left fun rel _ => rfl
  rw [hone]
  exact (leftOut_rename h.classes hrels).map _

theorem Renamed.tableText (h : Renamed σ sm sm') (rel : ℕ) :
    sm'.tableText (σ rel) = sm.tableText rel := by
  rw [StatisticManager.tableText, h.tables]
  rfl

theorem Renamed.aliasText (h : Renamed σ sm sm') (rel : ℕ) :
    sm'.aliasText (σ rel) = sm.aliasText rel := by
  rw [StatisticManager.aliasText, h.tableText]
  rfl

theorem Renamed.attrText (h : Renamed σ sm sm') (a : Attribute) :
    sm'.attrText (renameAttr σ a) = sm.attrText a := by
  show sm'.aliasText (σ (ofLex a).1) ++ "." ++ _ = _
  rw [h.aliasText, h.columns]
  rfl

theorem Renamed.fromText (h : Renamed σ sm sm') (rel : ℕ) :
    sm'.fromText (σ rel) = sm.fromText rel := by
  rw [StatisticManager.fromText, h.tableText, h.aliasText]
  rfl

theorem Renamed.filterTexts (h : Renamed σ sm sm') (rel : ℕ) :
    sm'.filterTexts (σ rel) = sm.filterTexts rel := by
  rw [StatisticManager.filterTexts, h.filters, h.aliasText]
  rfl

theorem Renamed.simple (h : Renamed σ sm sm') (hrels : rels'.Perm (rels.map σ))
    (hclasses : classes'.Perm (classes.map (rename σ))) (hs : sm.Simple rels classes) :
    sm'.Simple rels' classes' := by
  have hback : ∀ rel' ∈ rels', ∃ rel ∈ rels, σ rel = rel' := fun rel' hrel' =>
    List.mem_map.mp (hrels.mem_iff.mp hrel')
  have hclass : ∀ A' ∈ classes', ∃ A ∈ classes, rename σ A = A' := fun A' hA' =>
    List.mem_map.mp (hclasses.mem_iff.mp hA')
  constructor
  · intro rel' hrel'
    obtain ⟨rel, hrel, rfl⟩ := hback rel' hrel'
    rw [h.tables]
    exact hs.tables rel hrel
  · intro rel' hrel'
    obtain ⟨rel, hrel, rfl⟩ := hback rel' hrel'
    rw [h.filters]
    exact hs.filters rel hrel
  · intro A' hA' b hb
    obtain ⟨A, hA, rfl⟩ := hclass A' hA'
    obtain ⟨a, ha, rfl⟩ := mem_rename.mp hb
    obtain ⟨htable, hcolumn⟩ := hs.named A hA a ha
    rw [size_rename, h.columns]
    refine ⟨?_, hcolumn⟩
    show (sm'.tableName.find? (σ _)).isSome
    rw [h.tables]
    exact htable
  · intro A' hA' b hb
    obtain ⟨A, hA, rfl⟩ := hclass A' hA'
    obtain ⟨a, ha, rfl⟩ := mem_rename.mp hb
    exact hrels.mem_iff.mpr (List.mem_map_of_mem (hs.within A hA a ha))
  · intro rel1 h1 rel2 h2 he
    obtain ⟨r1, hr1, rfl⟩ := hback rel1 h1
    obtain ⟨r2, hr2, rfl⟩ := hback rel2 h2
    rw [h.tableText, h.tableText] at he
    rw [hs.once r1 hr1 r2 hr2 he]

end

/-! ## The order inside a class -/

/-- The relations of a class come in the same order under their new ids. -/
def OrderKept (σ : Equiv.Perm ℕ) (A : AttrEset) : Prop :=
  ∀ a ∈ A, ∀ b ∈ A, (ofLex a).1 < (ofLex b).1 → σ (ofLex a).1 < σ (ofLex b).1

theorem renameAttr_lt_of_orderKept (h : OrderKept σ A) {a b : Attribute} (ha : a ∈ A) (hb : b ∈ A)
    (hab : a < b) : renameAttr σ a < renameAttr σ b := by
  rw [Prod.Lex.lt_iff] at hab ⊢
  rcases hab with hlt | ⟨he, hlt⟩
  · exact .inl (h a ha b hb hlt)
  · exact .inr ⟨congrArg σ he, hlt⟩

theorem toList_rename_of_orderKept (h : OrderKept σ A) :
    (rename σ A).toList = A.toList.map (renameAttr σ) := by
  apply OrdSet.toList_ofList
  apply List.pairwise_map.mpr
  exact A.sorted.imp_of_mem fun ha hb hab => renameAttr_lt_of_orderKept h ha hb hab

section

omit [Field K] [LinearOrder K] [FloorRing K]

theorem joinTexts_of_orderKept (h : Renamed σ sm sm') (hkept : OrderKept σ A) :
    sm'.joinTexts (rename σ A) = sm.joinTexts A := by
  have hattrs : (A.toList.map (renameAttr σ)).map sm'.attrText = A.toList.map sm.attrText := by
    rw [List.map_map]
    exact List.map_congr_left fun a _ => h.attrText a
  unfold joinTexts
  rw [size_rename, toList_rename_of_orderKept hkept, hattrs]

/-- The texts of the tables, and those of the filters, do not depend on the numbering. -/
theorem Renamed.texts (h : Renamed σ sm sm') (hrels : rels'.Perm (rels.map σ)) :
    sortStrings (rels'.map sm'.fromText) = sortStrings (rels.map sm.fromText) ∧
      sortStrings (rels'.map sm'.filterTexts).flatten =
        sortStrings (rels.map sm.filterTexts).flatten := by
  constructor
  · apply sortStrings_congr
    have hmap : (rels.map σ).map sm'.fromText = rels.map sm.fromText := by
      rw [List.map_map]
      exact List.map_congr_left fun rel _ => h.fromText rel
    exact hmap ▸ hrels.map _
  · apply sortStrings_congr
    have hmap : (rels.map σ).map sm'.filterTexts = rels.map sm.filterTexts := by
      rw [List.map_map]
      exact List.map_congr_left fun rel _ => h.filterTexts rel
    exact (hmap ▸ hrels.map _).flatten

theorem subqueryText_of_orderKept (h : Renamed σ sm sm') (hrels : rels'.Perm (rels.map σ))
    (hclasses : classes'.Perm (classes.map (rename σ))) (hkept : ∀ A ∈ classes, OrderKept σ A) :
    sm'.subqueryText rels' classes' = sm.subqueryText rels classes := by
  obtain ⟨hfrom, hfilters⟩ := h.texts hrels
  have hjoins : sortStrings (classes'.map sm'.joinTexts).flatten =
      sortStrings (classes.map sm.joinTexts).flatten := by
    apply sortStrings_congr
    have hmap : (classes.map (rename σ)).map sm'.joinTexts = classes.map sm.joinTexts := by
      rw [List.map_map]
      exact List.map_congr_left fun A hA => joinTexts_of_orderKept h (hkept A hA)
    exact (hmap ▸ hclasses.map _).flatten
  unfold subqueryText
  rw [hfrom, hjoins, hfilters]

end

/-! ## Entered queries -/

omit [Field K] [LinearOrder K] [FloorRing K] in
theorem Entered.simple {relations : List Relation} (he : Entered relations sm)
    (honce : (relations.map (·.1)).Nodup) (hrels : ∀ rel ∈ rels, rel < relations.length)
    (hfilters : ∀ rel ∈ rels, (sm.filterString.find? rel).isSome)
    (hwithin : ∀ A ∈ classes, ∀ a ∈ A, (ofLex a).1 ∈ rels)
    (hcolumns : ∀ A ∈ classes, A.size ≠ 1 → ∀ a ∈ A, ∀ r ∈ relations[(ofLex a).1]?,
      (ofLex a).2 < r.2.1.length) : sm.Simple rels classes := by
  have htable : ∀ rel ∈ rels, ∃ r, relations[rel]? = some r := fun rel hrel =>
    ⟨_, List.getElem?_eq_getElem (hrels rel hrel)⟩
  have hsome : ∀ rel ∈ rels, (sm.tableName.find? rel).isSome := fun rel hrel => by
    obtain ⟨r, hr⟩ := htable rel hrel
    rw [he.tables, hr]
    rfl
  refine ⟨hsome, hfilters, fun A hA a ha => ⟨hsome _ (hwithin A hA a ha), fun hs => ?_⟩, hwithin,
    fun r hr r' hr' heq => ?_⟩
  · obtain ⟨r, hr⟩ := htable _ (hwithin A hA a ha)
    show (sm.columnName.find? (toLex ((ofLex a).1, (ofLex a).2))).isSome
    rw [he.columns, hr, Option.bind_some, List.getElem?_eq_getElem (hcolumns A hA hs a ha r hr)]
    rfl
  · have hlt := hrels r hr
    have hlt' := hrels r' hr'
    unfold tableText at heq
    rw [he.tables, he.tables, List.getElem?_eq_getElem hlt, List.getElem?_eq_getElem hlt'] at heq
    apply (List.Nodup.getElem_inj_iff honce).mp _
    · rwa [List.length_map]
    · rwa [List.length_map]
    · rw [List.getElem_map, List.getElem_map]
      exact heq

/-! ## Reading the join conditions back -/

/-- What `joinConditions` appends. -/
def conditionsText (first : Bool) : List String → String
  | [] => ""
  | c :: rest => (if first then " WHERE " else " AND ") ++ c ++ conditionsText false rest

theorem joinConditions_eq (first : Bool) (sql : String) (l : List String) :
    joinConditions first sql l = (sql ++ conditionsText first l, first && l.isEmpty) := by
  induction l generalizing first sql with
  | nil => simp [joinConditions, conditionsText]
  | cons c rest ih =>
    rw [joinConditions, ih, conditionsText]
    simp only [String.append_assoc, List.isEmpty_cons, Bool.and_false, Bool.false_and]

/-- Two texts cut at their first `s`. -/
theorem append_cons_inj {α : Type} {s : α} {c c' x x' : List α} (hc : s ∉ c) (hc' : s ∉ c')
    (h : c ++ s :: x = c' ++ s :: x') : c = c' ∧ x = x' := by
  induction c generalizing c' with
  | nil =>
    cases c' with
    | nil => exact ⟨rfl, (List.cons.inj h).2⟩
    | cons d c' => exact absurd (List.cons.inj h).1 fun he => hc' (he ▸ .head _)
  | cons d c ih =>
    cases c' with
    | nil => exact absurd (List.cons.inj h).1 fun he => hc (he ▸ .head _)
    | cons d' c' =>
      obtain ⟨rfl, htail⟩ := List.cons.inj h
      obtain ⟨rfl, rfl⟩ := ih (fun hm => hc (.tail _ hm)) (fun hm => hc' (.tail _ hm)) htail
      exact ⟨rfl, rfl⟩

/-- A blank follows every condition when one follows the last. -/
theorem conditionsText_blank (l : List String) :
    ∃ x, (conditionsText false l).toList ++ [' '] = ' ' :: x := by
  cases l with
  | nil => exact ⟨[], rfl⟩
  | cons c rest =>
    rw [conditionsText]
    simp only [String.toList_append]
    exact ⟨_, rfl⟩

theorem conditionsText_injective {first : Bool} {l l' : List String}
    (hl : ∀ c ∈ l, ' ' ∉ c.toList) (hl' : ∀ c ∈ l', ' ' ∉ c.toList)
    (h : conditionsText first l = conditionsText first l') : l = l' := by
  have hpos : ∀ (first : Bool) (c : String) (rest : List String),
      (conditionsText first (c :: rest)).toList ≠ [] := by
    intro first c rest he
    rw [conditionsText, String.toList_append, String.toList_append] at he
    cases first <;> simp at he
  induction l generalizing first l' with
  | nil =>
    cases l' with
    | nil => rfl
    | cons c' rest' => exact absurd (congrArg String.toList h).symm (hpos first c' rest')
  | cons c rest ih =>
    cases l' with
    | nil => exact absurd (congrArg String.toList h) (hpos first c rest)
    | cons c' rest' =>
      rw [conditionsText, conditionsText, String.append_assoc, String.append_assoc] at h
      have hchars := congrArg String.toList h
      simp only [String.toList_append] at hchars
      have hchars := congrArg (· ++ [' ']) (List.append_cancel_left hchars)
      simp only [List.append_assoc] at hchars
      obtain ⟨x, hx⟩ := conditionsText_blank rest
      obtain ⟨x', hx'⟩ := conditionsText_blank rest'
      rw [hx, hx'] at hchars
      obtain ⟨hcc, hxx⟩ := append_cons_inj (hl c (.head _)) (hl' c' (.head _)) hchars
      have hrest : conditionsText false rest = conditionsText false rest' := by
        apply String.toList_injective
        exact List.append_cancel_right (hx.trans ((congrArg _ hxx).trans hx'.symm))
      rw [String.toList_injective hcc, ih (fun d hd => hl d (.tail _ hd))
        (fun d hd => hl' d (.tail _ hd)) hrest]

/-! ## Texts that give the order away -/

/-- The columns of the joined classes have texts of their own, with no blank or equals sign. -/
structure Legible (sm : StatisticManager K) (classes : List AttrEset) : Prop where
  blank : ∀ A ∈ classes, A.size ≠ 1 → ∀ a ∈ A, ' ' ∉ (sm.attrText a).toList
  equals : ∀ A ∈ classes, A.size ≠ 1 → ∀ a ∈ A, '=' ∉ (sm.attrText a).toList
  distinct : ∀ A ∈ classes, A.size ≠ 1 → ∀ B ∈ classes, B.size ≠ 1 → ∀ a ∈ A, ∀ b ∈ B,
    sm.attrText a = sm.attrText b → a = b

theorem isChain_iff_zip {α : Type} {R : α → α → Prop} {l : List α} :
    l.IsChain R ↔ ∀ p ∈ l.zip l.tail, R p.1 p.2 := by
  induction l with
  | nil => simp
  | cons a l ih =>
    cases l with
    | nil => simp
    | cons b l =>
      rw [List.isChain_cons_cons, ih]
      simp only [List.tail_cons, List.zip_cons_cons, List.forall_mem_cons]

omit [Field K] [LinearOrder K] [FloorRing K] in
theorem mem_joinTexts {c : String} : c ∈ sm.joinTexts A ↔ A.size ≠ 1 ∧
    ∃ p ∈ A.toList.zip A.toList.tail, sm.attrText p.1 ++ "=" ++ sm.attrText p.2 = c := by
  unfold joinTexts
  split
  · next h => simp [h]
  · next h =>
    rw [chain, ← List.map_tail, List.zip_map, List.map_map, List.mem_map]
    exact ⟨fun hc => ⟨h, hc⟩, fun hc => hc.2⟩

theorem mem_of_mem_zip_tail {α : Type} {l : List α} {p : α × α} (hp : p ∈ l.zip l.tail) :
    p.1 ∈ l ∧ p.2 ∈ l :=
  ⟨(List.of_mem_zip hp).1, List.mem_of_mem_tail (List.of_mem_zip hp).2⟩

section

omit [Field K] [LinearOrder K] [FloorRing K]

theorem blank_not_mem_joinTexts (h : sm.Legible classes) {c : String}
    (hc : c ∈ (classes.map sm.joinTexts).flatten) : ' ' ∉ c.toList := by
  obtain ⟨l, hl, hc⟩ := List.mem_flatten.mp hc
  obtain ⟨A, hA, rfl⟩ := List.mem_map.mp hl
  obtain ⟨hs, p, hp, rfl⟩ := mem_joinTexts.mp hc
  have hblank := h.blank A hA hs
  obtain ⟨h1, h2⟩ := mem_of_mem_zip_tail hp
  rw [String.toList_append, String.toList_append, List.mem_append, List.mem_append]
  rintro ((hm | hm) | hm)
  · exact hblank p.1 h1 hm
  · exact absurd hm (by decide)
  · exact hblank p.2 h2 hm

theorem Renamed.legible (h : Renamed σ sm sm') (hclasses : classes'.Perm (classes.map (rename σ)))
    (hl : sm.Legible classes) : sm'.Legible classes' := by
  have hclass : ∀ A' ∈ classes', ∃ A ∈ classes, rename σ A = A' := fun A' hA' =>
    List.mem_map.mp (hclasses.mem_iff.mp hA')
  constructor
  · intro A' hA' hs b hb
    obtain ⟨A, hA, rfl⟩ := hclass A' hA'
    obtain ⟨a, ha, rfl⟩ := mem_rename.mp hb
    rw [size_rename] at hs
    rw [h.attrText]
    exact hl.blank A hA hs a ha
  · intro A' hA' hs b hb
    obtain ⟨A, hA, rfl⟩ := hclass A' hA'
    obtain ⟨a, ha, rfl⟩ := mem_rename.mp hb
    rw [size_rename] at hs
    rw [h.attrText]
    exact hl.equals A hA hs a ha
  · intro A' hA' hs B' hB' ht a' ha' b' hb' he
    obtain ⟨A, hA, rfl⟩ := hclass A' hA'
    obtain ⟨B, hB, rfl⟩ := hclass B' hB'
    obtain ⟨a, ha, rfl⟩ := mem_rename.mp ha'
    obtain ⟨b, hb, rfl⟩ := mem_rename.mp hb'
    rw [size_rename] at hs ht
    rw [h.attrText, h.attrText] at he
    rw [hl.distinct A hA hs B hB ht a ha b hb he]

/-- The join conditions can be read off the text. -/
theorem joinTexts_of_subqueryText (h : Renamed σ sm sm') (hrels : rels'.Perm (rels.map σ))
    (hclasses : classes'.Perm (classes.map (rename σ))) (hl : sm.Legible classes)
    (he : sm'.subqueryText rels' classes' = sm.subqueryText rels classes) :
    sortStrings (classes'.map sm'.joinTexts).flatten =
      sortStrings (classes.map sm.joinTexts).flatten := by
  obtain ⟨hfrom, hfilters⟩ := h.texts hrels
  have hlen : ((classes'.map sm'.joinTexts).flatten).length =
      ((classes.map sm.joinTexts).flatten).length := by
    have hone : ∀ A, (sm'.joinTexts (rename σ A)).length = (sm.joinTexts A).length := fun A => by
      unfold joinTexts chain
      rw [size_rename]
      split
      · rfl
      · simp [toList_rename.length_eq]
    rw [List.length_flatten, List.length_flatten, List.map_map, List.map_map,
      (hclasses.map _).sum_eq, List.map_map]
    exact congrArg List.sum (List.map_congr_left fun A _ => hone A)
  have hempty : (sortStrings (classes'.map sm'.joinTexts).flatten).isEmpty =
      (sortStrings (classes.map sm.joinTexts).flatten).isEmpty := by
    rw [Bool.eq_iff_iff, List.isEmpty_iff_length_eq_zero, List.isEmpty_iff_length_eq_zero,
      (sortStrings_perm _).length_eq, (sortStrings_perm _).length_eq, hlen]
  unfold subqueryText at he
  simp only [joinConditions_eq, hfrom, hfilters, hempty] at he
  have hchars := congrArg String.toList he
  simp only [String.toList_append] at hchars
  have hjoins := List.append_cancel_left
    (List.append_cancel_right (List.append_cancel_right hchars))
  apply conditionsText_injective _ _ (String.toList_injective hjoins)
  · intro c hc
    exact blank_not_mem_joinTexts (h.legible hclasses hl) ((sortStrings_perm _).mem_iff.mp hc)
  · intro c hc
    exact blank_not_mem_joinTexts hl ((sortStrings_perm _).mem_iff.mp hc)

theorem orderKept_of_joinTexts (h : Renamed σ sm sm')
    (hclasses : classes'.Perm (classes.map (rename σ))) (hl : sm.Legible classes)
    (he : sortStrings (classes'.map sm'.joinTexts).flatten =
      sortStrings (classes.map sm.joinTexts).flatten) : ∀ A ∈ classes, OrderKept σ A := by
  intro A hA
  by_cases hs : A.size = 1
  · intro a ha b hb hlt
    obtain ⟨c, hc⟩ := List.length_eq_one_iff.mp hs
    have hone : ∀ d ∈ A, d = c := fun d hd => List.mem_singleton.mp (hc ▸ hd)
    rw [hone a ha, hone b hb] at hlt
    exact absurd hlt (lt_irrefl _)
  -- two neighbours of `A` are neighbours in a renamed class, and so renamed in order
  have hnext : ∀ p ∈ A.toList.zip A.toList.tail, renameAttr σ p.1 < renameAttr σ p.2 := by
    intro p hp
    have hin : sm.attrText p.1 ++ "=" ++ sm.attrText p.2 ∈
        (classes'.map sm'.joinTexts).flatten := by
      apply (sortStrings_perm _).mem_iff.mp
      rw [he]
      apply (sortStrings_perm _).mem_iff.mpr
      exact List.mem_flatten.mpr ⟨_, List.mem_map_of_mem hA, mem_joinTexts.mpr ⟨hs, p, hp, rfl⟩⟩
    obtain ⟨l, hl', hin⟩ := List.mem_flatten.mp hin
    obtain ⟨B', hB', rfl⟩ := List.mem_map.mp hl'
    obtain ⟨B, hB, rfl⟩ := List.mem_map.mp (hclasses.mem_iff.mp hB')
    obtain ⟨ht, q, hq, hqp⟩ := mem_joinTexts.mp hin
    rw [size_rename] at ht
    have hlt : q.1 < q.2 :=
      isChain_iff_zip.mp ((List.isChain_iff_pairwise).mpr (rename σ B).sorted) q hq
    obtain ⟨hq1, hq2⟩ := mem_of_mem_zip_tail hq
    obtain ⟨hp1, hp2⟩ := mem_of_mem_zip_tail hp
    obtain ⟨b1, hb1, hqb1⟩ := mem_rename.mp hq1
    obtain ⟨b2, hb2, hqb2⟩ := mem_rename.mp hq2
    rw [← hqb1, ← hqb2, h.attrText, h.attrText] at hqp
    have hchars := congrArg String.toList hqp
    simp only [String.toList_append, List.append_assoc] at hchars
    obtain ⟨h1, h2⟩ := append_cons_inj (hl.equals B hB ht b1 hb1) (hl.equals A hA hs p.1 hp1) hchars
    obtain rfl := hl.distinct B hB ht A hA hs b1 hb1 p.1 hp1 (String.toList_injective h1)
    obtain rfl := hl.distinct B hB ht A hA hs b2 hb2 p.2 hp2 (String.toList_injective h2)
    rw [hqb1, hqb2]
    exact hlt
  have hsorted : (A.toList.map (renameAttr σ)).Pairwise (· < ·) := by
    apply List.isChain_iff_pairwise.mp
    apply isChain_iff_zip.mpr
    rw [← List.map_tail, List.zip_map]
    intro q hq
    obtain ⟨p, hp, rfl⟩ := List.mem_map.mp hq
    exact hnext p hp
  intro a ha b hb hlt
  obtain ⟨i, hi, rfl⟩ := List.mem_iff_getElem.mp ha
  obtain ⟨j, hj, rfl⟩ := List.mem_iff_getElem.mp hb
  have hij : i < j := by
    by_contra hji
    rcases (Nat.le_of_not_lt hji).lt_or_eq with h | rfl
    · have hle := (List.pairwise_iff_getElem.mp A.sorted j i hj hi h).le
      exact absurd (Prod.Lex.monotone_fst _ _ hle) (not_le.mpr hlt)
    · exact lt_irrefl _ hlt
  have hab := List.pairwise_iff_getElem.mp (List.pairwise_map.mp hsorted) i j hi hj hij
  rcases Prod.Lex.lt_iff.mp hab with h | ⟨h, -⟩
  · exact h
  · exact absurd (σ.injective h) hlt.ne

end

/-! ## Entering the renamed query -/

def renameCall (σ : Equiv.Perm ℕ) (p : JoinPredicate) : JoinPredicate :=
  ⟨σ p.table1, σ p.table2, p.column1, p.column2⟩

theorem renameAttr_mem_rename {a : Attribute} : renameAttr σ a ∈ rename σ A ↔ a ∈ A := by
  rw [mem_rename]
  constructor
  · rintro ⟨b, hb, he⟩
    rwa [← renameAttr_injective σ he]
  · exact fun h => ⟨a, h, rfl⟩

theorem findAttrs_rename (a b : Attribute) (l : List AttrEset) :
    findAttrs (renameAttr σ a) (renameAttr σ b) (l.map (rename σ)) = findAttrs a b l := by
  unfold findAttrs
  rw [List.zipIdx_map, List.foldl_map]
  simp only [Prod.map_fst, Prod.map_snd, renameAttr_mem_rename, id_eq]

theorem rename_insert (a : Attribute) :
    rename σ (A.insert a) = (rename σ A).insert (renameAttr σ a) := by
  apply OrdSet.ext_mem
  intro b
  simp only [mem_rename, OrdSet.mem_insert]
  constructor
  · rintro ⟨c, rfl | hc, rfl⟩
    · exact .inl rfl
    · exact .inr ⟨c, hc, rfl⟩
  · rintro (rfl | ⟨c, hc, rfl⟩)
    · exact ⟨a, .inl rfl, rfl⟩
    · exact ⟨c, .inr hc, rfl⟩

theorem rename_union (B : AttrEset) : rename σ (A.union B) = (rename σ A).union (rename σ B) := by
  apply OrdSet.ext_mem
  intro b
  simp only [mem_rename, OrdSet.mem_union]
  constructor
  · rintro ⟨c, hc | hc, rfl⟩
    · exact .inl ⟨c, hc, rfl⟩
    · exact .inr ⟨c, hc, rfl⟩
  · rintro (⟨c, hc, rfl⟩ | ⟨c, hc, rfl⟩)
    · exact ⟨c, .inl hc, rfl⟩
    · exact ⟨c, .inr hc, rfl⟩

theorem joinAttrs_rename (a b : Attribute) (l : List AttrEset) :
    joinAttrs (renameAttr σ a) (renameAttr σ b) (l.map (rename σ)) =
      (joinAttrs a b l).map (rename σ) := by
  have hmodify : ∀ (f g : AttrEset → AttrEset) (i : ℕ), (∀ A, rename σ (f A) = g (rename σ A)) →
      (l.map (rename σ)).modify i g = (l.modify i f).map (rename σ) := by
    intro f g i hfg
    apply List.ext_getElem?
    intro j
    rw [List.getElem?_modify, List.getElem?_map, List.getElem?_map, List.getElem?_modify]
    cases l[j]? with
    | none => rfl
    | some A =>
      show some _ = some _
      split
      · rw [hfg]
      · rfl
  unfold joinAttrs
  rw [findAttrs_rename]
  rcases findAttrs a b l with ⟨_ | i, _ | j⟩
  · show _ ++ [_] = List.map _ (_ ++ [((∅ : AttrEset).insert a).insert b])
    rw [List.map_append, List.map_singleton, rename_insert, rename_insert]
    rfl
  · exact hmodify _ _ j fun A => rename_insert a
  · exact hmodify _ _ i fun A => rename_insert b
  · show ((l.map (rename σ)).modify i _).eraseIdx j = ((l.modify i _).eraseIdx j).map (rename σ)
    have hget : (l.map (rename σ)).getD j ∅ = rename σ (l.getD j ∅) := by
      rw [List.getD_eq_getElem?_getD, List.getD_eq_getElem?_getD, List.getElem?_map]
      cases l[j]? <;> rfl
    rw [hget, hmodify (·.union (l.getD j ∅)) _ i fun A => rename_union _, List.eraseIdx_map]

/-- The same query with another order of its relations. -/
theorem renamed_enterQuery {sm0 : StatisticManager K} {relations relations' : List Relation}
    {filters filters' : OrdMap ℕ String} {calls : List JoinPredicate}
    (hrelations : ∀ i, relations'[σ i]? = relations[i]?)
    (hfilters : ∀ i, filters'.find? (σ i) = filters.find? i)
    (h : sm0.enterQuery relations filters calls = .ok sm)
    (h' : sm0.enterQuery relations' filters' (calls.map (renameCall σ)) = .ok sm') :
    Renamed σ sm sm' := by
  obtain ⟨he, hf, hclasses⟩ := entered_enterQuery h
  obtain ⟨he', hf', hclasses'⟩ := entered_enterQuery h'
  constructor
  · intro rel
    rw [he'.tables, he.tables, hrelations]
  · intro a
    show sm'.columnName.find? (toLex (σ (ofLex a).1, (ofLex a).2)) =
      sm.columnName.find? (toLex ((ofLex a).1, (ofLex a).2))
    rw [he'.columns, he.columns, hrelations]
  · intro rel
    rw [hf, hf', hfilters]
  · have hfold : ∀ l : List AttrEset,
        (calls.map (renameCall σ)).foldl (fun l p => joinAttrs p.attr1 p.attr2 l)
          (l.map (rename σ)) =
        (calls.foldl (fun l p => joinAttrs p.attr1 p.attr2 l) l).map (rename σ) := by
      clear h h' hclasses hclasses'
      induction calls with
      | nil => exact fun l => rfl
      | cons p calls ih =>
        intro l
        rw [List.map_cons, List.foldl_cons, List.foldl_cons, ← ih]
        congr 1
        exact joinAttrs_rename p.attr1 p.attr2 l
    rw [hclasses, hclasses']
    exact (hfold []) ▸ List.Perm.refl _

/-! ## The text and the order -/

omit [Field K] [LinearOrder K] [FloorRing K] in
/-- The text of a renamed query is the same when the order inside the classes is, and only then
when the texts of the columns can be told apart. -/
theorem getSubquery_renamed (h : Renamed σ sm sm') (hn : rels.Nodup)
    (hrels : rels'.Perm (rels.map σ)) (hsimple : sm.Simple rels (sm.getAttrEsetFromRels rels)) :
    ((∀ A ∈ sm.getAttrEsetFromRels rels, OrderKept σ A) →
      sm'.getSubquery rels' (sm'.getAttrEsetFromRels rels') =
        sm.getSubquery rels (sm.getAttrEsetFromRels rels)) ∧
    (sm.Legible (sm.getAttrEsetFromRels rels) →
      (sm'.getSubquery rels' (sm'.getAttrEsetFromRels rels') =
          sm.getSubquery rels (sm.getAttrEsetFromRels rels) ↔
        ∀ A ∈ sm.getAttrEsetFromRels rels, OrderKept σ A)) := by
  have hclasses := h.getAttrEsetFromRels hrels
  have hn' : rels'.Nodup := hrels.nodup_iff.mpr (hn.map σ.injective)
  rw [getSubquery_simple hn hsimple, getSubquery_simple hn' (h.simple hrels hclasses hsimple)]
  have hsame : (∀ A ∈ sm.getAttrEsetFromRels rels, OrderKept σ A) →
      Except.ok (ε := Error) (sm'.subqueryText rels' (sm'.getAttrEsetFromRels rels')) =
        .ok (sm.subqueryText rels (sm.getAttrEsetFromRels rels)) := fun hkept =>
    congrArg _ (subqueryText_of_orderKept h hrels hclasses hkept)
  refine ⟨hsame, fun hl => ⟨fun he => ?_, hsame⟩⟩
  exact orderKept_of_joinTexts h hclasses hl
    (joinTexts_of_subqueryText h hrels hclasses hl (Except.ok.inj he))

section Example

def threeTables : EqualSet := ⟨.ofList (["t", "u", "v"].map fun t => ⟨t, "x"⟩)⟩

/-- A query over three relations with no filters. -/
def threeQuery (tables : List Table) (calls : List JoinPredicate) :
    Except Error (StatisticManager ℚ) := do
  let sm ← collectStatistics (fun x _ => x) everyTable initial [threeTables]
  sm.enterQuery (tables.map fun t => (t, ["x"], 1)) (.ofKeys [0, 1, 2] fun _ => "") calls

/-- The attributes `x` of the first two relations. -/
def pairAttrs : AttrEset := .ofList [toLex (0, 0), toLex (1, 0)]

theorem entered_threeQuery {sm : StatisticManager ℚ} {tables : List Table}
    {calls : List JoinPredicate} (h : threeQuery tables calls = .ok sm) :
    Entered (tables.map fun t => (t, ["x"], 1)) sm ∧
      sm.filterString = .ofKeys [0, 1, 2] fun _ => "" := by
  obtain ⟨sm1, -, h⟩ := bind_eq_ok.mp h
  obtain ⟨he, hf, -⟩ := entered_enterQuery h
  exact ⟨he, hf⟩

theorem renamed_threeQuery {sm sm' : StatisticManager ℚ} {tables tables' : List Table}
    {calls calls' : List JoinPredicate} (hcalls : calls' = calls.map (renameCall σ))
    (hlen : tables.length = 3 ∧ tables'.length = 3) (hout : ∀ i, σ (i + 3) = i + 3)
    (hin : ∀ i < 3, σ i < 3 ∧ tables'[σ i]? = tables[i]?)
    (h : threeQuery tables calls = .ok sm) (h' : threeQuery tables' calls' = .ok sm') :
    Renamed σ sm sm' := by
  obtain ⟨sm1, h1, h⟩ := bind_eq_ok.mp h
  obtain ⟨sm2, h2, h'⟩ := bind_eq_ok.mp h'
  obtain rfl := Except.ok.inj (h1.symm.trans h2)
  rw [hcalls] at h'
  apply renamed_enterQuery _ _ h h'
  · intro i
    rw [List.getElem?_map, List.getElem?_map]
    by_cases hi : i < 3
    · rw [(hin i hi).2]
    · obtain ⟨j, rfl⟩ := Nat.exists_eq_add_of_le' (Nat.le_of_not_lt hi)
      rw [hout, List.getElem?_eq_none (by omega), List.getElem?_eq_none (by omega)]
  · intro i
    have hmem : ∀ j, j ∈ [0, 1, 2] ↔ j < 3 := fun j => by
      simp only [List.mem_cons, List.not_mem_nil, or_false]
      omega
    rw [OrdMap.find?_ofKeys, OrdMap.find?_ofKeys]
    apply if_congr _ rfl rfl
    rw [hmem, hmem]
    by_cases hi : i < 3
    · simp only [hi, (hin i hi).1]
    · obtain ⟨j, rfl⟩ := Nat.exists_eq_add_of_le' (Nat.le_of_not_lt hi)
      rw [hout]

theorem simple_threeQuery {sm : StatisticManager ℚ} {calls : List JoinPredicate}
    (h : threeQuery ["t", "u", "v"] calls = .ok sm) : sm.Simple [0, 1] [pairAttrs] := by
  obtain ⟨he, hf⟩ := entered_threeQuery h
  apply he.simple (by decide) (by decide) (by rw [hf]; decide)
  · decide
  · decide

omit [Field K] [LinearOrder K] [FloorRing K] in
theorem legible_of_texts {l : List String} (h : A.toList.map sm.attrText = l)
    (hl : l.Nodup ∧ ∀ s ∈ l, ' ' ∉ s.toList ∧ '=' ∉ s.toList) : sm.Legible [A] := by
  have hmem : ∀ a ∈ A, sm.attrText a ∈ l := fun a ha => h ▸ List.mem_map_of_mem ha
  constructor
  · intro B hB _ a ha
    obtain rfl := List.mem_singleton.mp hB
    exact (hl.2 _ (hmem a ha)).1
  · intro B hB _ a ha
    obtain rfl := List.mem_singleton.mp hB
    exact (hl.2 _ (hmem a ha)).2
  · intro B hB _ C hC _ a ha b hb he
    obtain rfl := List.mem_singleton.mp hB
    obtain rfl := List.mem_singleton.mp hC
    exact List.inj_on_of_nodup_map (h ▸ hl.1) ha hb he

/-- The third relation takes the number of the second: the order of the class is kept. -/
theorem getSubquery_renamed_lastTwo : ∃ sm sm' : StatisticManager ℚ,
    Renamed (Equiv.swap 1 2) sm sm' ∧
    sm'.getSubquery [0, 2] (sm'.getAttrEsetFromRels [0, 2]) =
      sm.getSubquery [0, 1] (sm.getAttrEsetFromRels [0, 1]) ∧
    (sm'.getSubquery [0, 2] (sm'.getAttrEsetFromRels [0, 2]) =
        sm.getSubquery [0, 1] (sm.getAttrEsetFromRels [0, 1]) ↔
      ∀ A ∈ sm.getAttrEsetFromRels [0, 1], OrderKept (Equiv.swap 1 2) A) := by
  have hrun : (do
      let sm ← threeQuery ["t", "u", "v"] [⟨0, 1, 0, 0⟩]
      let _ ← threeQuery ["t", "v", "u"] [⟨0, 2, 0, 0⟩]
      pure (decide (sm.getAttrEsetFromRels [0, 1] = [pairAttrs] ∧
        pairAttrs.toList.map sm.attrText = ["t1.x", "u1.x"]))) = .ok true := by
    decide +kernel
  obtain ⟨sm, h, hrun⟩ := bind_eq_ok.mp hrun
  obtain ⟨sm', h', hrun⟩ := bind_eq_ok.mp hrun
  obtain ⟨hclasses, htexts⟩ := of_decide_eq_true (Except.ok.inj hrun)
  have hrenamed : Renamed (Equiv.swap 1 2) sm sm' := by
    apply renamed_threeQuery (by decide) (by decide) _ (by decide) h h'
    exact fun i => Equiv.swap_apply_of_ne_of_ne (by omega) (by omega)
  have hkept : ∀ A ∈ sm.getAttrEsetFromRels [0, 1], OrderKept (Equiv.swap 1 2) A := by
    rw [hclasses]
    unfold OrderKept
    decide
  have hlegible : sm.Legible (sm.getAttrEsetFromRels [0, 1]) := by
    rw [hclasses]
    exact legible_of_texts htexts (by decide)
  have hiff := getSubquery_renamed hrenamed (show [0, 1].Nodup by decide)
    (show [0, 2].Perm ([0, 1].map (Equiv.swap 1 2)) by decide) (hclasses ▸ simple_threeQuery h)
  exact ⟨sm, sm', hrenamed, hiff.1 hkept, hiff.2 hlegible⟩

theorem getSubquery_pair {s : StatisticManager ℚ} {c : String} (hn : rels.Nodup)
    (hs : s.Simple rels [pairAttrs]) (hfrom : rels.map s.fromText = ["t AS t1", "u AS u1"])
    (hjoin : s.joinTexts pairAttrs = [c]) (hfilter : rels.map s.filterTexts = [[], []]) :
    s.getSubquery rels [pairAttrs] =
      .ok ("SELECT COUNT(*) FROM t AS t1,u AS u1" ++ " WHERE " ++ c ++ ";") := by
  rw [getSubquery_simple hn hs]
  unfold subqueryText
  rw [hfrom, hfilter, List.map_singleton, hjoin, List.flatten_singleton,
    sortStrings_of_pairwise (by decide), sortStrings_of_pairwise (List.pairwise_singleton _ _),
    sortStrings_of_pairwise (by decide)]
  rfl

/-- The two relations of a join change places, and so do the sides of the join condition. -/
theorem getSubquery_swapped : ∃ sm sm' : StatisticManager ℚ,
    Renamed (Equiv.swap 0 1) sm sm' ∧ sm.Simple [0, 1] (sm.getAttrEsetFromRels [0, 1]) ∧
    sm.getSubquery [0, 1] (sm.getAttrEsetFromRels [0, 1]) =
      .ok "SELECT COUNT(*) FROM t AS t1,u AS u1 WHERE t1.x=u1.x;" ∧
    sm'.getSubquery [1, 0] (sm'.getAttrEsetFromRels [1, 0]) =
      .ok "SELECT COUNT(*) FROM t AS t1,u AS u1 WHERE u1.x=t1.x;" := by
  have hrun : (do
      let sm ← threeQuery ["t", "u", "v"] [⟨0, 1, 0, 0⟩]
      let sm' ← threeQuery ["u", "t", "v"] [⟨1, 0, 0, 0⟩]
      pure (decide ((sm.getAttrEsetFromRels [0, 1] = [pairAttrs] ∧
        sm'.getAttrEsetFromRels [1, 0] = [pairAttrs]) ∧
        ([0, 1].map sm.fromText = ["t AS t1", "u AS u1"] ∧
          sm.joinTexts pairAttrs = ["t1.x=u1.x"] ∧ [0, 1].map sm.filterTexts = [[], []]) ∧
        [1, 0].map sm'.fromText = ["t AS t1", "u AS u1"] ∧
          sm'.joinTexts pairAttrs = ["u1.x=t1.x"] ∧ [1, 0].map sm'.filterTexts = [[], []]))) =
      .ok true := by
    decide +kernel
  obtain ⟨sm, h, hrun⟩ := bind_eq_ok.mp hrun
  obtain ⟨sm', h', hrun⟩ := bind_eq_ok.mp hrun
  obtain ⟨⟨hclasses, hclasses'⟩, ⟨hfrom, hjoin, hfilter⟩, hfrom', hjoin', hfilter'⟩ :=
    of_decide_eq_true (Except.ok.inj hrun)
  have hsimple : sm.Simple [0, 1] [pairAttrs] := simple_threeQuery h
  have hrenamed : Renamed (Equiv.swap 0 1) sm sm' := by
    apply renamed_threeQuery (by decide) (by decide) _ (by decide) h h'
    exact fun i => Equiv.swap_apply_of_ne_of_ne (by omega) (by omega)
  have hsimple' : sm'.Simple [1, 0] [pairAttrs] :=
    hrenamed.simple (show [1, 0].Perm ([0, 1].map (Equiv.swap 0 1)) by decide)
      (show [pairAttrs].Perm ([pairAttrs].map (rename (Equiv.swap 0 1))) by decide) hsimple
  rw [← hclasses] at hsimple
  refine ⟨sm, sm', hrenamed, hsimple, ?_, ?_⟩
  · rw [hclasses] at hsimple ⊢
    exact getSubquery_pair (by decide) hsimple hfrom hjoin hfilter
  · rw [hclasses']
    exact getSubquery_pair (by decide) hsimple' hfrom' hjoin' hfilter'

end Example

end StatisticManager

end StarCE
