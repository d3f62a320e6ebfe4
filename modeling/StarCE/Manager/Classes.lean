import StarCE.Data.Loop
import StarCE.Data.Partition
import StarCE.Manager.Query

/-!
# Join classes

Whatever the order of the `addPredicate` calls, `attrEsets` holds the classes
of the equivalence their pairs generate; `getAttrEsetFromRels` cuts them down to
some relations and adds a set for each relation that is left out.
-/

namespace StarCE

/-- The arguments of an `AddPredicate` call. -/
structure JoinPredicate where
  table1 : ℕ
  table2 : ℕ
  column1 : ℕ
  column2 : ℕ
  deriving DecidableEq

namespace JoinPredicate

def attr1 (p : JoinPredicate) : Attribute := toLex (p.table1, p.column1)

def attr2 (p : JoinPredicate) : Attribute := toLex (p.table2, p.column2)

/-- The other order of the two sides. -/
def swap (p : JoinPredicate) : JoinPredicate := ⟨p.table2, p.table1, p.column2, p.column1⟩

end JoinPredicate

namespace StatisticManager

variable {K : Type} [Field K] [LinearOrder K] [FloorRing K]

def addPredicates (sm : StatisticManager K) (calls : List JoinPredicate) : StatisticManager K :=
  calls.foldl (fun sm p => sm.addPredicate p.table1 p.table2 p.column1 p.column2) sm

/-! ## One call -/

/-- What `addPredicate` does to the classes. -/
def joinAttrs (a b : Attribute) (esets : List AttrEset) : List AttrEset :=
  match findAttrs a b esets with
  | (none, none) => esets ++ [.ofList [a, b]]
  | (none, some idx2) => esets.modify idx2 (·.insert a)
  | (some idx1, none) => esets.modify idx1 (·.insert b)
  | (some idx1, some idx2) =>
    (esets.modify idx1 (·.union (esets.getD idx2 ∅))).eraseIdx idx2

section

omit [Field K] [LinearOrder K] [FloorRing K]

theorem addPredicate_eq (sm : StatisticManager K) (t1 t2 c1 c2 : ℕ) :
    sm.addPredicate t1 t2 c1 c2 =
      { sm with attrEsets := joinAttrs (toLex (t1, c1)) (toLex (t2, c2)) sm.attrEsets } := by
  rw [addPredicate, joinAttrs]
  rcases findAttrs (toLex (t1, c1)) (toLex (t2, c2)) sm.attrEsets with ⟨_ | i, _ | j⟩ <;> rfl

theorem addPredicates_eq (sm : StatisticManager K) (calls : List JoinPredicate) :
    sm.addPredicates calls =
      { sm with
        attrEsets := calls.foldl (fun l p => joinAttrs p.attr1 p.attr2 l) sm.attrEsets } := by
  induction calls generalizing sm with
  | nil => rfl
  | cons p calls ih =>
    rw [addPredicates, List.foldl_cons, addPredicate_eq]
    exact ih _

end

/-- What the scan for the two attributes finds. -/
structure Found (a b : Attribute) (l : List AttrEset) (found : Option ℕ × Option ℕ) : Prop where
  fst_none : found.1 = none → ∀ s ∈ l, a ∉ s
  fst_some : ∀ i, found.1 = some i → ∃ s, l[i]? = some s ∧ a ∈ s
  snd_none : found.2 = none → ∀ s ∈ l, b ∈ s → a ∈ s
  snd_some : ∀ j, found.2 = some j → ∃ s, l[j]? = some s ∧ b ∈ s ∧ a ∉ s

theorem findAttrs_snoc (a b : Attribute) (l : List AttrEset) (s : AttrEset) :
    findAttrs a b (l ++ [s]) =
      if a ∈ s then (some l.length, (findAttrs a b l).2)
      else if b ∈ s then ((findAttrs a b l).1, some l.length)
      else findAttrs a b l := by
  simp [findAttrs, List.zipIdx_append]

theorem findAttrs_found (a b : Attribute) (l : List AttrEset) : Found a b l (findAttrs a b l) := by
  induction l using List.reverseRecOn with
  | nil => constructor <;> simp [findAttrs]
  | append_singleton l s ih =>
    -- an index found before still points to its set
    have hold : ∀ {i : ℕ} {P : AttrEset → Prop}, (∃ t, l[i]? = some t ∧ P t) →
        ∃ t, (l ++ [s])[i]? = some t ∧ P t := by
      rintro i P ⟨t, ht, hP⟩
      exact ⟨t, by rw [List.getElem?_append_left (List.getElem?_eq_some_iff.mp ht).1, ht], hP⟩
    have hnew : (l ++ [s])[l.length]? = some s := by simp
    rw [findAttrs_snoc]
    split_ifs with ha hb
    · refine ⟨by simp, fun i hi => ?_, fun h t ht htb => ?_, fun j hj => hold (ih.snd_some j hj)⟩
      · obtain rfl := Option.some.inj hi
        exact ⟨s, hnew, ha⟩
      · rcases List.mem_append.mp ht with ht | ht
        · exact ih.snd_none h t ht htb
        · exact List.mem_singleton.mp ht ▸ ha
    · refine ⟨fun h t ht => ?_, fun i hi => hold (ih.fst_some i hi), by simp, fun j hj => ?_⟩
      · rcases List.mem_append.mp ht with ht | ht
        · exact ih.fst_none h t ht
        · exact List.mem_singleton.mp ht ▸ ha
      · obtain rfl := Option.some.inj hj
        exact ⟨s, hnew, hb, ha⟩
    · refine ⟨fun h t ht => ?_, fun i hi => hold (ih.fst_some i hi), fun h t ht htb => ?_,
        fun j hj => hold (ih.snd_some j hj)⟩
      · rcases List.mem_append.mp ht with ht | ht
        · exact ih.fst_none h t ht
        · exact List.mem_singleton.mp ht ▸ ha
      · rcases List.mem_append.mp ht with ht | ht
        · exact ih.snd_none h t ht htb
        · exact absurd htb (List.mem_singleton.mp ht ▸ hb)

/-! ## The classes as a partition -/

theorem modify_perm {l : List AttrEset} {i : ℕ} {s : AttrEset} (h : l[i]? = some s)
    (f : AttrEset → AttrEset) : (l.modify i f).Perm (f s :: l.eraseIdx i) := by
  obtain ⟨hi, rfl⟩ := List.getElem?_eq_some_iff.mp h
  have hm : i < (l.modify i f).length := by rwa [List.length_modify]
  have := (List.getElem_cons_eraseIdx_perm hm).symm
  simpa [List.getElem_modify, List.eraseIdx_modify_of_eq] using this

theorem perm_cons_eraseIdx {l : List AttrEset} {i : ℕ} {s : AttrEset} (h : l[i]? = some s) :
    l.Perm (s :: l.eraseIdx i) := by
  obtain ⟨hi, rfl⟩ := List.getElem?_eq_some_iff.mp h
  exact (List.getElem_cons_eraseIdx_perm hi).symm

/-- One class is enlarged by an attribute that no class holds. -/
theorem joined_modify {l : List AttrEset} (hl : Apart (α := Attribute) l) {a b : Attribute} {i : ℕ}
    {s : AttrEset} (hs : l[i]? = some s) (hb : b ∈ s) (ha : ∀ t ∈ l, a ∈ t → b ∈ t) :
    Joined a b l (l.modify i (·.insert a)) := by
  have hp := perm_cons_eraseIdx hs
  have hrest := (List.pairwise_cons.mp (hl.perm hp)).1
  refine ⟨[s], s.insert a, l.eraseIdx i, hp, modify_perm hs _, fun x => ?_, by simp [hb], ?_⟩
  · simp only [OrdSet.mem_insert, List.mem_singleton, exists_eq_left]
    constructor
    · rintro (rfl | hx)
      · exact .inl rfl
      · exact .inr (.inr hx)
    · rintro (rfl | rfl | hx)
      · exact .inl rfl
      · exact .inr hb
      · exact .inr hx
  · intro t ht
    have htb : b ∉ t := hrest t ht b hb
    exact ⟨fun hta => htb (ha t (hp.mem_iff.mpr (.tail _ ht)) hta), htb⟩

theorem joinAttrs_joined {l : List AttrEset} (hl : Apart (α := Attribute) l) (a b : Attribute) :
    Joined a b l (joinAttrs a b l) := by
  have hf := findAttrs_found a b l
  rw [joinAttrs]
  split
  · next h =>
    rw [h] at hf
    refine ⟨[], .ofList [a, b], l, .refl _, List.perm_append_singleton _ _, by simp, by simp, ?_⟩
    exact fun s hs => ⟨hf.fst_none rfl s hs, fun hb =>
      hf.fst_none rfl s hs (hf.snd_none rfl s hs hb)⟩
  · next j h =>
    rw [h] at hf
    obtain ⟨s, hs, hb, -⟩ := hf.snd_some j rfl
    exact joined_modify hl hs hb fun t ht hta => absurd hta (hf.fst_none rfl t ht)
  · next i h =>
    rw [h] at hf
    obtain ⟨s, hs, ha⟩ := hf.fst_some i rfl
    exact (joined_modify hl hs ha (hf.snd_none rfl)).comm
  · next i j h =>
    rw [h] at hf
    obtain ⟨s, hs, ha⟩ := hf.fst_some i rfl
    obtain ⟨t, ht, hb, hat⟩ := hf.snd_some j rfl
    have hst : s ≠ t := fun he => hat (he ▸ ha)
    have hij : i ≠ j := fun he => hst (Option.some.inj (hs.symm.trans (he ▸ ht)))
    have hp := perm_cons_eraseIdx hs
    have hp' : l.Perm (s :: t :: (l.eraseIdx i).erase t) := hp.trans <| .cons _ <|
      List.perm_cons_erase ((List.mem_cons.mp
        (hp.mem_iff.mp (List.mem_of_getElem? ht))).resolve_left hst.symm)
    rw [List.getD_eq_getElem?_getD, ht, Option.getD_some]
    have hm : (l.modify i (·.union t))[j]? = some t := by
      rw [List.getElem?_modify_ne _ _ hij, ht]
    refine ⟨[s, t], s.union t, (l.eraseIdx i).erase t, hp', ?_, fun x => ?_, by simp [ha, hb], ?_⟩
    · refine List.Perm.cons_inv (a := t) ?_
      calc t :: (l.modify i (·.union t)).eraseIdx j
        _ |>.Perm (l.modify i (·.union t)) := (perm_cons_eraseIdx hm).symm
        _ |>.Perm (s.union t :: l.eraseIdx i) := modify_perm hs _
        _ |>.Perm (s.union t :: t :: (l.eraseIdx i).erase t) := .cons _ (by simpa using hp.symm.trans hp')
        _ |>.Perm (t :: s.union t :: (l.eraseIdx i).erase t) := .swap ..
    · simp only [OrdSet.mem_union, List.mem_cons, List.not_mem_nil, or_false,
        exists_eq_or_imp, exists_eq_left]
      constructor
      · exact fun h => .inr (.inr h)
      · rintro (rfl | rfl | h)
        · exact .inl ha
        · exact .inr hb
        · exact h
    · have hap := hl.perm hp'
      have hs' := (List.pairwise_cons.mp hap).1
      have ht' := (List.pairwise_cons.mp (List.pairwise_cons.mp hap).2).1
      exact fun u hu => ⟨hs' u (.tail _ hu) a ha, ht' u hu b hb⟩

/-- The two attributes of the calls. -/
def pairOf (calls : List JoinPredicate) (a b : Attribute) : Prop :=
  ∃ p ∈ calls, p.attr1 = a ∧ p.attr2 = b

/-- `attrEsets` after some calls. -/
structure ClassesOf (calls : List JoinPredicate) (l : List AttrEset) : Prop where
  apart : Apart (α := Attribute) l
  two : ∀ s ∈ l, ({a | a ∈ s} : Set Attribute).Nontrivial
  same : ∀ a b, Same l a b ↔ Relation.EqvGen (pairOf calls) a b

theorem ClassesOf.nil : ClassesOf [] [] where
  apart := .nil
  two := by simp
  same a b := by
    have hempty : pairOf [] = fun _ _ => False := by
      funext a b
      simp [pairOf]
    rw [hempty]
    refine ⟨fun h => ?_, fun h => ?_⟩
    · obtain rfl : a = b := by simpa [Same] using h
      exact .refl _
    · have heq : Equivalence (Same (α := Attribute) ([] : List AttrEset)) :=
        Apart.same_equivalence .nil
      exact heq.eqvGen_iff.mp (h.mono fun _ _ => False.elim)

theorem ClassesOf.snoc {calls : List JoinPredicate} {l : List AttrEset} (h : ClassesOf calls l)
    {p : JoinPredicate} (hp : p.attr1 ≠ p.attr2) :
    ClassesOf (calls ++ [p]) (joinAttrs p.attr1 p.attr2 l) where
  apart := (joinAttrs_joined h.apart _ _).apart h.apart
  two := by
    obtain ⟨olds, new, rest, hperm, hperm', hnew, -, -⟩ := joinAttrs_joined h.apart p.attr1 p.attr2
    intro s hs
    rcases List.mem_cons.mp (hperm'.mem_iff.mp hs) with rfl | hs
    · exact ⟨p.attr1, (hnew _).mpr (.inl rfl), p.attr2, (hnew _).mpr (.inr (.inl rfl)), hp⟩
    · exact h.two s (hperm.mem_iff.mpr (List.mem_append_right _ hs))
  same a b := by
    rw [(joinAttrs_joined h.apart _ _).same_iff h.apart h.same]
    have : pairOf (calls ++ [p]) = fun x y => pairOf calls x y ∨ x = p.attr1 ∧ y = p.attr2 := by
      funext x y
      simp [pairOf, or_and_right, exists_or, eq_comm]
    rw [this]

omit [Field K] [LinearOrder K] [FloorRing K] in
/-- The classes after any calls between two different attributes. -/
theorem addPredicates_classesOf {sm : StatisticManager K} (h0 : sm.attrEsets = [])
    {calls : List JoinPredicate} (h : ∀ p ∈ calls, p.attr1 ≠ p.attr2) :
    ClassesOf calls (sm.addPredicates calls).attrEsets := by
  rw [addPredicates_eq, h0]
  exact foldl_inv ClassesOf ClassesOf.nil fun l p s hp hs => hs.snoc (h p hp)

/-! ## The classes cut down to some relations -/

theorem mem_restrict {a : Attribute} {eset : AttrEset} {rels : List ℕ} :
    a ∈ restrict eset rels ↔ a ∈ eset ∧ (ofLex a).1 ∈ rels := by
  rw [restrict, OrdSet.mem_ofList, List.mem_filter, decide_eq_true_iff]
  rfl

theorem mem_rels {rel : ℕ} {eset : AttrEset} :
    rel ∈ AttrEset.rels eset ↔ ∃ a ∈ eset, (ofLex a).1 = rel := List.mem_map

/-- The restricted classes that keep two attributes. -/
def restrictions (l : List AttrEset) (rels : List ℕ) : List AttrEset :=
  (l.map (restrict · rels)).filter fun eset => 1 < eset.size

/-- The relations that no restricted class holds. -/
def leftOut (l : List AttrEset) (rels : List ℕ) : List ℕ :=
  rels.filter fun rel => ¬(restrictions l rels).any fun eset => rel ∈ AttrEset.rels eset

omit [Field K] [LinearOrder K] [FloorRing K] in
theorem getAttrEsetFromRels_eq (sm : StatisticManager K) (rels : List ℕ) :
    sm.getAttrEsetFromRels rels = restrictions sm.attrEsets rels ++
      (leftOut sm.attrEsets rels).map fun rel => .ofList [toLex (rel, 0)] := rfl

theorem mem_restrictions {l : List AttrEset} {rels : List ℕ} {e : AttrEset} :
    e ∈ restrictions l rels ↔ 1 < e.size ∧ ∃ c ∈ l, restrict c rels = e := by
  rw [restrictions, List.mem_filter, List.mem_map, decide_eq_true_iff, and_comm]

theorem mem_leftOut {l : List AttrEset} {rels : List ℕ} {rel : ℕ} :
    rel ∈ leftOut l rels ↔
      rel ∈ rels ∧ ∀ e ∈ restrictions l rels, ∀ a ∈ e, (ofLex a).1 ≠ rel := by
  simp only [leftOut, List.mem_filter, decide_eq_true_iff, List.any_eq_true, mem_rels, not_exists,
    not_and, ne_eq]

section

omit [Field K] [LinearOrder K] [FloorRing K]

theorem mem_getAttrEsetFromRels {sm : StatisticManager K} {rels : List ℕ} {e : AttrEset} :
    e ∈ sm.getAttrEsetFromRels rels ↔ e ∈ restrictions sm.attrEsets rels ∨
      ∃ rel ∈ leftOut sm.attrEsets rels, e = .ofList [toLex (rel, 0)] := by
  rw [getAttrEsetFromRels_eq, List.mem_append, List.mem_map]
  simp only [eq_comm]

/-- Every relation has an attribute in one of the sets. -/
theorem exists_mem_getAttrEsetFromRels (sm : StatisticManager K) {rels : List ℕ} {rel : ℕ}
    (h : rel ∈ rels) : ∃ e ∈ sm.getAttrEsetFromRels rels, ∃ a ∈ e, (ofLex a).1 = rel := by
  by_cases hv : ∃ e ∈ restrictions sm.attrEsets rels, ∃ a ∈ e, (ofLex a).1 = rel
  · obtain ⟨e, he, ha⟩ := hv
    exact ⟨e, mem_getAttrEsetFromRels.mpr (.inl he), ha⟩
  · have hout : rel ∈ leftOut sm.attrEsets rels :=
      mem_leftOut.mpr ⟨h, fun e he a ha hr => hv ⟨e, he, a, ha, hr⟩⟩
    exact ⟨_, mem_getAttrEsetFromRels.mpr (.inr ⟨rel, hout, rfl⟩), toLex (rel, 0), by simp, rfl⟩

theorem exists_mem_of_getAttrEsetFromRels {sm : StatisticManager K} {rels : List ℕ} {e : AttrEset}
    (h : e ∈ sm.getAttrEsetFromRels rels) : ∃ a, a ∈ e := by
  rcases mem_getAttrEsetFromRels.mp h with h | ⟨rel, -, rfl⟩
  · obtain ⟨a, ha, -⟩ := OrdSet.one_lt_size_iff.mp (mem_restrictions.mp h).1
    exact ⟨a, ha⟩
  · exact ⟨toLex (rel, 0), by simp⟩

theorem rel_mem_of_getAttrEsetFromRels {sm : StatisticManager K} {rels : List ℕ} {e : AttrEset}
    (h : e ∈ sm.getAttrEsetFromRels rels) {a : Attribute} (ha : a ∈ e) : (ofLex a).1 ∈ rels := by
  rcases mem_getAttrEsetFromRels.mp h with h | ⟨rel, hrel, rfl⟩
  · obtain ⟨c, -, rfl⟩ := (mem_restrictions.mp h).2
    exact (mem_restrict.mp ha).2
  · rw [OrdSet.mem_ofList, List.mem_singleton] at ha
    rw [ha]
    exact (mem_leftOut.mp hrel).1

theorem apart_getAttrEsetFromRels {sm : StatisticManager K} {rels : List ℕ}
    (h : Apart (α := Attribute) sm.attrEsets) (hn : rels.Nodup) :
    Apart (α := Attribute) (sm.getAttrEsetFromRels rels) := by
  rw [getAttrEsetFromRels_eq]
  refine List.pairwise_append.mpr ⟨?_, ?_, fun e he f hf a hae haf => ?_⟩
  · exact (List.pairwise_map.mpr (h.imp fun hst a ha ha' =>
      hst a (mem_restrict.mp ha).1 (mem_restrict.mp ha').1)).filter _
  · refine List.pairwise_map.mpr ((hn.filter _).imp fun hne a ha ha' => hne ?_)
    rw [OrdSet.mem_ofList, List.mem_singleton] at ha ha'
    simpa using ha.symm.trans ha'
  · obtain ⟨rel, hrel, rfl⟩ := List.mem_map.mp hf
    rw [OrdSet.mem_ofList, List.mem_singleton] at haf
    exact (mem_leftOut.mp hrel).2 e he a hae (by rw [haf]; rfl)

end

/-- `e` is what `rels` keep of a class, and has two attributes. -/
def IsRestriction (calls : List JoinPredicate) (rels : List ℕ) (e : AttrEset) : Prop :=
  ({a | a ∈ e} : Set Attribute).Nontrivial ∧
    ∃ c ∈ (Relation.EqvGen.setoid (pairOf calls)).classes,
      {a | a ∈ e} = {a ∈ c | (ofLex a).1 ∈ rels}

theorem ClassesOf.mem_restrictions {calls : List JoinPredicate} {l : List AttrEset}
    (h : ClassesOf calls l) {rels : List ℕ} {e : AttrEset} :
    e ∈ restrictions l rels ↔ IsRestriction calls rels e := by
  rw [StatisticManager.mem_restrictions, OrdSet.one_lt_size_iff]
  refine and_congr_right fun hnt => ⟨?_, ?_⟩
  · rintro ⟨c, hc, rfl⟩
    refine ⟨{a | a ∈ c}, ((h.apart.mem_classes_iff h.two h.same _).mp ⟨c, hc, rfl⟩).1, ?_⟩
    ext a
    exact mem_restrict
  · rintro ⟨c, hc, he⟩
    have hct : c.Nontrivial := hnt.mono (he ▸ Set.sep_subset c _)
    obtain ⟨s, hs, rfl⟩ := (h.apart.mem_classes_iff h.two h.same c).mpr ⟨hc, hct⟩
    refine ⟨s, hs, OrdSet.ext_mem fun a => ?_⟩
    rw [mem_restrict]
    exact (Set.ext_iff.mp he a).symm

omit [Field K] [LinearOrder K] [FloorRing K] in
/-- The classes are the classes with two attributes of the equivalence the calls generate, and
for some relations they are cut down to them, with one set for each relation left out. -/
theorem addPredicate_classes {sm sm' : StatisticManager K} (hprep : sm.prepareEstimate = .ok sm')
    (calls : List JoinPredicate) (hne : ∀ p ∈ calls, p.attr1 ≠ p.attr2) :
    ((sm'.addPredicates calls).attrEsets.Pairwise fun s t => ∀ a ∈ s, a ∉ t) ∧
    (∀ c : Set Attribute, (∃ s ∈ (sm'.addPredicates calls).attrEsets, c = {a | a ∈ s}) ↔
      c ∈ (Relation.EqvGen.setoid (pairOf calls)).classes ∧ c.Nontrivial) ∧
    ∀ rels : List ℕ, rels.Nodup →
      ((sm'.addPredicates calls).getAttrEsetFromRels rels).Nodup ∧
      (∀ e, e ∈ (sm'.addPredicates calls).getAttrEsetFromRels rels ↔
        IsRestriction calls rels e ∨
          ∃ rel ∈ rels, (∀ f, IsRestriction calls rels f → ∀ a ∈ f, (ofLex a).1 ≠ rel) ∧
            e = .ofList [toLex (rel, 0)]) ∧
      ∀ rel ∈ rels, ∃ e ∈ (sm'.addPredicates calls).getAttrEsetFromRels rels,
        ∃ a ∈ e, (ofLex a).1 = rel := by
  have h0 : sm'.attrEsets = [] := by
    rw [prepareEstimate] at hprep
    split at hprep
    · cases hprep
    · obtain rfl := Except.ok.inj hprep
      rfl
  have hcl := addPredicates_classesOf h0 hne
  refine ⟨hcl.apart, hcl.apart.mem_classes_iff hcl.two hcl.same, fun rels hn =>
    ⟨?_, fun e => ?_, fun rel => exists_mem_getAttrEsetFromRels _⟩⟩
  · exact (apart_getAttrEsetFromRels hcl.apart hn).nodup fun e => exists_mem_of_getAttrEsetFromRels
  · simp only [mem_getAttrEsetFromRels, hcl.mem_restrictions, mem_leftOut, and_assoc]

/-- Two classes, joined by the third call, and a redundant fourth call. -/
def chainCalls : List JoinPredicate := [⟨0, 1, 0, 0⟩, ⟨2, 3, 0, 0⟩, ⟨2, 1, 0, 0⟩, ⟨0, 3, 0, 0⟩]

theorem addPredicate_classes_chain :
    ∃ sm' : StatisticManager ℚ, initial.prepareEstimate = .ok sm' ∧
      (∀ p ∈ chainCalls, p.attr1 ≠ p.attr2) ∧
      (sm'.addPredicates chainCalls).attrEsets =
        [.ofList [toLex (0, 0), toLex (1, 0), toLex (2, 0), toLex (3, 0)]] ∧
      (∃ c ∈ (Relation.EqvGen.setoid (pairOf chainCalls)).classes, c.Nontrivial) ∧
      ((sm'.addPredicates chainCalls).getAttrEsetFromRels [0, 3, 5]).Nodup :=
  have h := addPredicate_classes
    (show (initial : StatisticManager ℚ).prepareEstimate = .ok _ from rfl) chainCalls (by decide)
  ⟨_, rfl, by decide, by decide, ⟨_, (h.2.1 _).mp ⟨_, .head _, rfl⟩⟩, (h.2.2 _ (by decide)).1⟩

end StatisticManager

end StarCE
