import StarCE.Remap.Reading

/-!
# One signature for one query

Two texts of one query can differ in the order of their tables and conditions,
in their aliases, in the sides of an equality and in which equalities generate
the classes of columns. They have one signature (`signature_text_eq`) unless an
alias that is replaced late hits the name of a table that an earlier
replacement has put in.
-/

namespace StarCE

namespace Remap

variable {as : Name → Name} {q : Query}

/-! ## Replacements -/

/-- `u` is replaced after `t`: its alias is shorter, or as long and later in the text. -/
def Query.Later (as : Name → Name) (q : Query) (t u : Name) : Prop :=
  (as u).text.length < (as t).text.length ∨
    (as u).text.length = (as t).text.length ∧ [t, u].Sublist q.tables

/-- No alias that is replaced after the table of a comparison changes the name of that table. -/
def Query.Unhit (as : Name → Name) (q : Query) : Prop :=
  ∀ f, .compare f ∈ q.conjuncts → ∀ u ∈ q.tables, q.Later as f.table u →
    (as u).text <:+ f.table.text → as u = u

theorem eq_of_append_dot {b x : Text} {r h : Text} (hb : '.' ∉ b) (hx : '.' ∉ x)
    (he : b ++ '.' :: r = x ++ '.' :: h) : b = x := by
  have htake : ∀ {y s : Text}, '.' ∉ y → (y ++ '.' :: s).takeWhile (· ≠ '.') = y := fun {y s} hy => by
    rw [List.takeWhile_append_of_pos, List.takeWhile_cons_of_neg (by simp), List.append_nil]
    intro a ha
    have hne : a ≠ '.' := fun h => hy (h ▸ ha)
    simpa using hne
  rw [← htake hb (s := r), he, htake hx]

/-- An alias at the end of what stands before the period is replaced. -/
theorem replace_suffix (b : Name) {x h : Text} (u : Text) (hx : '.' ∉ x) (hh : '.' ∉ h) :
    replace (b.text ++ ['.']) (u ++ ['.']) (x ++ (b.text ++ '.' :: h)) = x ++ (u ++ '.' :: h) := by
  have hb : '.' ∉ b.text := b.notMem (by decide)
  have hdot : '.' ∈ b.text ++ ['.'] := by simp
  have hclear : Clear (b.text ++ ['.']) x ((b.text ++ ['.']) ++ h) := by
    rintro y hne hy ⟨r, hr⟩
    simp only [List.append_assoc, List.singleton_append] at hr
    rw [← List.append_assoc] at hr
    have hyb : '.' ∉ y ++ b.text := fun hd => by
      rcases List.mem_append.mp hd with hd | hd
      · exact hx (hy.subset hd)
      · exact hb hd
    exact hne (List.self_eq_append_left.mp (eq_of_append_dot hb hyb hr))
  have := replace_once (u ++ ['.']) (by simp) hclear (.of_mem_notMem hdot hx) (.of_mem_notMem hdot hh)
  simpa using this

/-- An alias that is not at the end of what stands before the period is not found. -/
theorem replace_other (b : Name) {m x h : Text} (u : Text) (hm : '.' ∉ m)
    (hlast : ∀ c ∈ m.getLast?, isNameChar c = false) (hx : '.' ∉ x) (hh : '.' ∉ h)
    (hb : ¬b.text <:+ x) :
    replace (b.text ++ ['.']) (u ++ ['.']) (m ++ (x ++ '.' :: h)) = m ++ (x ++ '.' :: h) := by
  have hbd : '.' ∉ b.text := b.notMem (by decide)
  refine replace_eq_self _ ?_
  rintro y hne hy ⟨r, hr⟩
  rw [List.append_nil, List.append_assoc, List.singleton_append] at hr
  rw [← List.append_assoc] at hy
  rcases suffix_append_iff hy with hy | ⟨y', -, hy', rfl⟩
  · rcases List.suffix_cons_iff.mp hy with rfl | hy
    · exact b.ne (eq_of_append_dot (x := []) hbd (by simp) hr)
    · exact hh (hy.subset (hr ▸ List.mem_append_right _ (.head _)))
  · have hy'd : '.' ∉ y' := fun hd => by
      rcases List.mem_append.mp (hy'.subset hd) with hd | hd
      · exact hm hd
      · exact hx hd
    obtain rfl := eq_of_append_dot hbd hy'd hr
    rcases suffix_append_iff hy' with h | ⟨z, hz, hzm, h⟩
    · exact hb h
    · obtain ⟨w, rfl⟩ := hzm
      have hlastz : z.getLast hz ∈ (w ++ z).getLast? := by
        rw [List.getLast?_append_of_ne_nil _ hz]
        exact List.getLast?_eq_some_getLast hz
      have hname := b.chars (z.getLast hz) (h ▸ List.mem_append_left _ (List.getLast_mem hz))
      rw [hlast _ hlastz] at hname
      cases hname

/-- Replacements that do not change a name. -/
theorem foldl_replace_eq_self {l : List (Text × Text)} {m x h : Text} (hm : '.' ∉ m)
    (hlast : ∀ c ∈ m.getLast?, isNameChar c = false) (hx : '.' ∉ x) (hh : '.' ∉ h)
    (hl : ∀ p ∈ l, ∃ b : Name, p.1 = b.text ∧ (b.text <:+ x → p.2 = p.1)) :
    l.foldl (fun f p => replace (p.1 ++ ['.']) (p.2 ++ ['.']) f) (m ++ (x ++ '.' :: h)) =
      m ++ (x ++ '.' :: h) := by
  induction l with
  | nil => rfl
  | cons p l ih =>
    obtain ⟨⟨b, hpb, hsame⟩, hl⟩ := List.forall_mem_cons.mp hl
    have hstep : replace (p.1 ++ ['.']) (p.2 ++ ['.']) (m ++ (x ++ '.' :: h)) = m ++ (x ++ '.' :: h) := by
      by_cases hb : b.text <:+ x
      · rw [hsame hb, hpb]
        obtain ⟨w, rfl⟩ := hb
        have hmw : '.' ∉ m ++ w := fun hd => by
          rcases List.mem_append.mp hd with hd | hd
          · exact hm hd
          · exact hx (List.mem_append_left _ hd)
        have := replace_suffix b b.text hmw hh
        simpa using this
      · rw [hpb]
        exact replace_other b p.2 hm hlast hx hh hb
    rw [List.foldl_cons, hstep]
    exact ih hl

theorem pair_sublist {α : Type} {l : List α} {a b : α} (ha : a ∈ l) (hb : b ∈ l) (hne : a ≠ b) :
    [a, b].Sublist l ∨ [b, a].Sublist l := by
  induction l with
  | nil => cases ha
  | cons c l ih =>
    rcases List.mem_cons.mp ha with rfl | ha'
    · have hb' : b ∈ l := (List.mem_cons.mp hb).resolve_left (Ne.symm hne)
      exact .inl (List.cons_sublist_cons.mpr (List.singleton_sublist.mpr hb'))
    · rcases List.mem_cons.mp hb with rfl | hb'
      · exact .inr (List.cons_sublist_cons.mpr (List.singleton_sublist.mpr ha'))
      · exact (ih ha' hb').imp (List.Sublist.cons _) (List.Sublist.cons _)

/-- In a list without repetitions what is after an element is not before it. -/
theorem not_pair_sublist {α : Type} {l l' : List α} {a b : α} (hn : (l ++ a :: l').Nodup)
    (hb : b ∈ l') : ¬[b, a].Sublist (l ++ a :: l') := by
  obtain ⟨-, hn', hdis⟩ := List.nodup_append.mp hn
  obtain ⟨ha, -⟩ := List.nodup_cons.mp hn'
  intro h
  obtain ⟨s, t, hst, hs, ht⟩ := List.sublist_append_iff.mp h
  match s, hst, hs with
  | [], hst, _ =>
    rw [List.nil_append] at hst
    rw [← hst] at ht
    rcases List.sublist_cons_iff.mp ht with ht | ⟨r, hr, ht⟩
    · exact ha (ht.subset (.tail _ (.head _)))
    · exact ha ((List.cons.inj hr).1 ▸ hb)
  | c :: s, hst, hs =>
    obtain ⟨rfl, -⟩ := List.cons.inj hst
    exact hdis b (hs.subset (.head _)) b (.tail _ hb) rfl

/-- All aliases replaced, a text with the alias of a table has the name of the table. -/
theorem foldl_byLength (hn : (q.tables.map as).Nodup) {t : Name} (ht : t ∈ q.tables) {m h : Text}
    (hm : '.' ∉ m) (hlast : ∀ c ∈ m.getLast?, isNameChar c = false) (hh : '.' ∉ h)
    (hhit : ∀ u ∈ q.tables, q.Later as t u → (as u).text <:+ t.text → as u = u) :
    (byLength (q.a2t as)).foldl (fun f p => replace (p.1 ++ ['.']) (p.2 ++ ['.']) f)
      (m ++ ((as t).text ++ '.' :: h)) = m ++ (t.text ++ '.' :: h) := by
  have hentry : ∀ p ∈ byLength (q.a2t as), ∃ u ∈ q.tables, p = ((as u).text, u.text) := by
    intro p hp
    obtain ⟨u, hu, rfl⟩ := List.mem_map.mp ((List.perm_insertionSort _ _).subset hp)
    exact ⟨u, hu, rfl⟩
  have hinj : ∀ u ∈ q.tables, as u = as t → u = t := fun u hu h => List.inj_on_of_nodup_map hn hu ht h
  have hnodup : (byLength (q.a2t as)).Nodup := by
    refine ((List.perm_insertionSort _ _).nodup_iff).mpr ?_
    refine List.Nodup.map_on (fun u hu v hv he => ?_) q.nodup
    exact Name.text_inj (congrArg Prod.snd he)
  have hmem : ((as t).text, t.text) ∈ byLength (q.a2t as) :=
    (List.perm_insertionSort _ _).mem_iff.mpr (List.mem_map_of_mem ht)
  obtain ⟨before, after, hsplit⟩ := List.append_of_mem hmem
  have hsorted : (byLength (q.a2t as)).Pairwise fun p r => r.1.length ≤ p.1.length := by
    have htrans : IsTrans (Text × Text) fun p r => r.1.length ≤ p.1.length :=
      ⟨fun _ _ _ h1 h2 => h2.trans h1⟩
    have htotal : Std.Total fun p r : Text × Text => r.1.length ≤ p.1.length :=
      ⟨fun p r => le_total _ _⟩
    exact List.pairwise_insertionSort _ _
  rw [hsplit] at hnodup hsorted hentry ⊢
  obtain ⟨-, hafter, hbefore⟩ := List.pairwise_append.mp hsorted
  obtain ⟨hafter, -⟩ := List.pairwise_cons.mp hafter
  -- the aliases before the own one are at least as long
  have h1 : before.foldl (fun f p => replace (p.1 ++ ['.']) (p.2 ++ ['.']) f)
      (m ++ ((as t).text ++ '.' :: h)) = m ++ ((as t).text ++ '.' :: h) := by
    refine foldl_replace_eq_self hm hlast ((as t).notMem (by decide)) hh fun p hp => ?_
    obtain ⟨u, hu, rfl⟩ := hentry p (List.mem_append_left _ hp)
    refine ⟨as u, rfl, fun hsuff => ?_⟩
    have hlen := hbefore _ hp _ (.head _)
    obtain rfl := hinj u hu (Name.text_inj (hsuff.eq_of_length_le hlen))
    exact absurd hp fun hp => (List.nodup_append.mp hnodup).2.2 _ hp _ (.head _) rfl
  -- those after it leave the name of the table alone
  have h2 : after.foldl (fun f p => replace (p.1 ++ ['.']) (p.2 ++ ['.']) f)
      (m ++ (t.text ++ '.' :: h)) = m ++ (t.text ++ '.' :: h) := by
    refine foldl_replace_eq_self hm hlast (t.notMem (by decide)) hh fun p hp => ?_
    obtain ⟨u, hu, rfl⟩ := hentry p (List.mem_append_right _ (.tail _ hp))
    refine ⟨as u, rfl, fun hsuff => ?_⟩
    have hne : u ≠ t := by
      rintro rfl
      exact (List.nodup_cons.mp (List.nodup_append.mp hnodup).2.1).1 hp
    have hlater : q.Later as t u := by
      rcases (hafter _ hp).lt_or_eq with hlt | heq
      · exact .inl hlt
      · refine .inr ⟨heq, (pair_sublist ht hu (Ne.symm hne)).resolve_right fun hsub => ?_⟩
        have hpair := List.pair_sublist_insertionSort
          (r := fun p r : Text × Text => r.1.length ≤ p.1.length) heq.ge
          (hsub.map fun u => ((as u).text, u.text))
        have hall : (byLength (q.a2t as)) = before ++ ((as t).text, t.text) :: after := hsplit
        unfold byLength at hall
        rw [Query.a2t] at hall
        rw [hall] at hpair
        exact not_pair_sublist hnodup hp hpair
    rw [hhit u hu hlater hsuff]
  rw [List.foldl_append, h1, List.foldl_cons, replace_suffix (as t) t.text hm hh, h2]

/-! ## Filters -/

/-- A comparison under the name of its table, with one blank for every run of white space. -/
def Comparison.normal (f : Comparison) : Text := f.clean f.table

theorem nf_clean (hn : (q.tables.map as).Nodup) (hhit : q.Unhit as) {f : Comparison} (hf : f.Plain)
    (hmem : .compare f ∈ q.conjuncts) : nf (q.a2t as) (f.clean (as f.table)) = f.normal := by
  have ht : f.table ∈ q.tables := q.known _ hmem f.table (.head _)
  have hcollapse : collapse isSpace ' ' (f.clean f.table) = f.clean f.table := by
    have hclean : (Conjunct.compare f).clean id = f.clean (id f.table) := Conjunct.clean_compare f
    rw [id_eq] at hclean
    rw [← hclean]
    exact collapse_collapse (by decide) _
  rw [nf, Comparison.clean, foldl_byLength hn ht (notMem_collapse hf.dotless.1) f.last_before
    (notMem_collapse hf.dotless.2) fun u hu => hhit f hmem u hu, ← Comparison.clean, hcollapse]
  exact f.strip_clean id

/-! ## Joins -/

/-- A column in a signature. -/
def Column.node (c : Column) : Text := stripDigits c.table.text ++ '.' :: c.column.text

def Query.equalities (q : Query) : List (Column × Column) :=
  q.conjuncts.flatMap fun c => match c with
    | .equal l r _ _ => [(l, r)]
    | .compare _ => []

def Query.comparisons (q : Query) : List Comparison :=
  q.conjuncts.flatMap fun c => match c with
    | .equal _ _ _ _ => []
    | .compare f => [f]

theorem getItem_a2t (hn : (q.tables.map as).Nodup) {t : Name} (ht : t ∈ q.tables) (v : Text) :
    getItem (q.a2t as) (as t).text v = t.text := by
  have hfind : (q.a2t as).find? (fun p => p.1 = (as t).text) = some ((as t).text, t.text) := by
    unfold Query.a2t
    generalize q.tables = l at hn ht
    induction l with
    | nil => cases ht
    | cons u l ih =>
      rw [List.map_cons, List.nodup_cons] at hn
      rw [List.map_cons, List.find?_cons]
      by_cases hu : as u = as t
      · have : u = t := by
          rcases List.mem_cons.mp ht with rfl | ht
          · rfl
          · exact absurd (hu ▸ List.mem_map_of_mem ht) hn.1
        subst this
        simp
      · have hne : (as u).text ≠ (as t).text := fun h => hu (Name.text_inj h)
        have ht' : t ∈ l := (List.mem_cons.mp ht).resolve_left fun h => hu (h ▸ rfl)
        simp only [hne, decide_false]
        exact ih hn.2 ht'
  rw [getItem, hfind]
  rfl

theorem nc_text (hn : (q.tables.map as).Nodup) {c : Column} (hc : c.table ∈ q.tables) :
    nc (q.a2t as) (c.text as) = .ok c.node := by
  have hne : ∀ n : Name, ∀ a ∈ n.text, (a == '.') = false := fun n a ha =>
    beq_eq_false_iff_ne.mpr fun h => n.notMem (c := '.') (by decide) (h ▸ ha)
  have hsplit : (c.text as).splitOn '.' = [(as c.table).text, c.column.text] := by
    rw [Column.text, List.splitOn, List.splitOnP_append_cons_of_forall_mem (hne _) '.' (by simp),
      List.splitOnP_eq_singleton (hne _)]
  rw [nc, hsplit]
  show Except.ok (stripDigits (getItem (q.a2t as) (as c.table).text _) ++ '.' :: c.column.text) = _
  rw [getItem_a2t hn hc]
  rfl

/-- The pairs of columns that are united. -/
theorem mapM_nc (hn : (q.tables.map as).Nodup) :
    ((q.conjuncts.flatMap (Conjunct.joins as)).filter fun j => j.2.1 = ['=']).mapM (fun j => do
      let l ← nc (q.a2t as) j.1
      let r ← nc (q.a2t as) j.2.2
      pure (l, r)) = .ok (q.equalities.map fun e => (e.1.node, e.2.node)) := by
  have hjoins : (q.conjuncts.flatMap (Conjunct.joins as)).filter (fun j => j.2.1 = ['=']) =
      q.equalities.map fun e => (e.1.text as, ['='], e.2.text as) := by
    rw [Query.equalities, List.filter_flatMap, List.map_flatMap]
    congr 1
    funext c
    cases c <;> rfl
  rw [hjoins]
  refine mapM_map_ok fun e he => ?_
  obtain ⟨c, hc, hec⟩ := List.mem_flatMap.mp he
  cases c with
  | compare f => cases hec
  | equal l r m n =>
    obtain rfl := List.mem_singleton.mp hec
    have hl : nc (q.a2t as) (l.text as) = .ok l.node := nc_text hn (q.known _ hc l.table (.head _))
    have hr : nc (q.a2t as) (r.text as) = .ok r.node :=
      nc_text hn (q.known _ hc r.table (.tail _ (.head _)))
    exact bind_eq_ok.mpr ⟨_, hl, bind_eq_ok.mpr ⟨_, hr, rfl⟩⟩

/-- Two columns that an equality of the query puts in one class, as in a signature. -/
def Query.Linked (q : Query) (a b : Text) : Prop := (a, b) ∈ q.equalities.map fun e => (e.1.node, e.2.node)

/-- The classes with two columns, each once. -/
structure Query.Groups (q : Query) (sets : List (OrdSet Text)) : Prop where
  nodup : sets.Nodup
  classes : ∀ c : Set Text, (∃ s ∈ sets, c = {a | a ∈ s}) ↔
    c ∈ (Relation.EqvGen.setoid q.Linked).classes ∧ c.Nontrivial

theorem Query.Groups.mem {sets : List (OrdSet Text)} (h : q.Groups sets) (s : OrdSet Text) :
    s ∈ sets ↔ {a | a ∈ s} ∈ (Relation.EqvGen.setoid q.Linked).classes ∧
      ({a | a ∈ s} : Set Text).Nontrivial := by
  rw [← h.classes]
  refine ⟨fun hs => ⟨s, hs, rfl⟩, ?_⟩
  rintro ⟨t, ht, hst⟩
  obtain rfl : s = t := OrdSet.ext_mem fun a => Set.ext_iff.mp hst a
  exact ht

theorem filter_two_le {sets : List (OrdSet Text)} :
    (sets.map (·.toList)).filter (2 ≤ ·.length) = (sets.filter fun s => 1 < s.size).map (·.toList) := by
  rw [List.filter_map]
  rfl

/-! ## Presentations -/

/-- The same tables, the same comparisons up to white space and the same classes of columns. -/
structure Query.Same (q q' : Query) : Prop where
  tables : q.tables.Perm q'.tables
  comparisons : (q.comparisons.map Comparison.normal).Perm (q'.comparisons.map Comparison.normal)
  classes : ∀ c d, Relation.EqvGen (fun c d => (c, d) ∈ q.equalities) c d ↔
    Relation.EqvGen (fun c d => (c, d) ∈ q'.equalities) c d

theorem Query.Same.symm {q q' : Query} (h : q.Same q') : q'.Same q :=
  ⟨h.tables.symm, h.comparisons.symm, fun c d => (h.classes c d).symm⟩

theorem eqvGen_linked {q q' : Query} (h : q.Same q') {a b : Text}
    (hab : Relation.EqvGen q.Linked a b) : Relation.EqvGen q'.Linked a b := by
  -- the nodes of equivalent columns are linked
  have hnode : ∀ {c d}, Relation.EqvGen (fun c d => (c, d) ∈ q'.equalities) c d →
      Relation.EqvGen q'.Linked c.node d.node := by
    intro c d hcd
    induction hcd with
    | rel c d hcd => exact .rel _ _ (List.mem_map.mpr ⟨(c, d), hcd, rfl⟩)
    | refl c => exact .refl _
    | symm c d _ ih => exact ih.symm
    | trans c d e _ _ ih1 ih2 => exact ih1.trans _ _ _ ih2
  induction hab with
  | rel a b hab =>
    obtain ⟨⟨c, d⟩, hcd, he⟩ := List.mem_map.mp hab
    obtain ⟨rfl, rfl⟩ := Prod.mk.inj he
    exact hnode ((h.classes c d).mp (.rel _ _ hcd))
  | refl a => exact .refl _
  | symm a b _ ih => exact ih.symm
  | trans a b c _ _ ih1 ih2 => exact ih1.trans _ _ _ ih2

theorem groups_perm {q q' : Query} (h : q.Same q') {sets sets' : List (OrdSet Text)}
    (hs : q.Groups sets) (hs' : q'.Groups sets') : sets.Perm sets' := by
  have heq : Relation.EqvGen.setoid q.Linked = Relation.EqvGen.setoid q'.Linked :=
    Setoid.ext fun a b => ⟨eqvGen_linked h, eqvGen_linked h.symm⟩
  refine (List.perm_ext_iff_of_nodup hs.nodup hs'.nodup).mpr fun s => ?_
  rw [hs.mem, hs'.mem, heq]

theorem insertionSort_congr {l l' : List Text} (h : l.Perm l') :
    l.insertionSort (· ≤ ·) = l'.insertionSort (· ≤ ·) :=
  List.Perm.eq_of_pairwise (fun _ _ _ _ => le_antisymm) (List.pairwise_insertionSort _ _)
    (List.pairwise_insertionSort _ _)
    ((List.perm_insertionSort _ _).trans (h.trans (List.perm_insertionSort _ _).symm))

/-! ## What a signature tells -/

theorem Column.blank_notMem_node (c : Column) : ' ' ∉ c.node := fun h => by
  rcases List.mem_append.mp h with h | h
  · exact c.table.notMem (by decide) ((List.rdropWhile_prefix _ _).subset h)
  · rcases List.mem_cons.mp h with h | h
    · exact absurd h (by decide)
    · exact c.column.notMem (by decide) h

/-- Related columns are equal, or both have no blank in their names. -/
theorem eq_or_blank_notMem {a b : Text} (h : Relation.EqvGen q.Linked a b) :
    a = b ∨ ' ' ∉ a ∧ ' ' ∉ b := by
  induction h with
  | rel a b hab =>
    obtain ⟨⟨c, d⟩, -, he⟩ := List.mem_map.mp hab
    obtain ⟨rfl, rfl⟩ := Prod.mk.inj he
    exact .inr ⟨c.blank_notMem_node, d.blank_notMem_node⟩
  | refl a => exact .inl rfl
  | symm a b _ ih => exact ih.imp Eq.symm And.symm
  | trans a b c _ _ ih1 ih2 =>
    rcases ih1 with rfl | ⟨ha, hb⟩
    · exact ih2
    · rcases ih2 with rfl | ⟨-, hc⟩
      · exact .inr ⟨ha, hb⟩
      · exact .inr ⟨ha, hc⟩

theorem eq_of_joinText {a b c d : Text} (ha : ' ' ∉ a) (hc : ' ' ∉ c)
    (h : a ++ " = ".toList ++ b = c ++ " = ".toList ++ d) : a = c ∧ b = d := by
  have htake : ∀ {x y : Text}, ' ' ∉ x → (x ++ " = ".toList ++ y).takeWhile (· ≠ ' ') = x := by
    intro x y hx
    have hcons : x ++ " = ".toList ++ y = x ++ ' ' :: ("= ".toList ++ y) := by
      rw [List.append_assoc]
      rfl
    rw [hcons, List.takeWhile_append_of_pos, List.takeWhile_cons_of_neg (by simp), List.append_nil]
    intro e he
    have hne : e ≠ ' ' := fun h => hx (h ▸ he)
    simpa using hne
  obtain rfl : a = c := by rw [← htake ha (y := b), h, htake hc]
  exact ⟨rfl, List.append_cancel_left h⟩

/-- The classes of columns are known from the joins of a signature. -/
theorem eqvGen_joins {sets : List (OrdSet Text)} (hs : q.Groups sets) {joins : List Text}
    (hjoins : joins.Perm ((sets.map (·.toList)).flatMap anchored)) (a b : Text) :
    Relation.EqvGen q.Linked a b ↔ Relation.EqvGen (fun a b =>
      ' ' ∉ a ∧ ' ' ∉ b ∧ a ++ " = ".toList ++ b ∈ joins) a b := by
  have hmem : ∀ j, j ∈ joins ↔ ∃ s ∈ sets, j ∈ anchored s.toList := fun j => by
    rw [hjoins.mem_iff, List.mem_flatMap]
    simp
  -- the elements of a set are related, and all names without blanks
  have hset : ∀ s ∈ sets, ∀ c ∈ s, ∀ d ∈ s, Relation.EqvGen q.Linked c d := by
    intro s hs' c hc d hd
    obtain ⟨⟨e, he⟩, -⟩ := (hs.mem s).mp hs'
    have hce : Relation.EqvGen q.Linked c e := (Set.ext_iff.mp he c).mp hc
    have hde : Relation.EqvGen q.Linked d e := (Set.ext_iff.mp he d).mp hd
    exact hce.trans _ _ _ hde.symm
  have hblank : ∀ s ∈ sets, ∀ c ∈ s, ' ' ∉ c := by
    intro s hs' c hc
    obtain ⟨-, x, hx, y, hy, hne⟩ := (hs.mem s).mp hs'
    by_cases hcx : c = x
    · exact ((eq_or_blank_notMem (hset s hs' c hc y hy)).resolve_left (hcx ▸ hne)).1
    · exact ((eq_or_blank_notMem (hset s hs' c hc x hx)).resolve_left hcx).1
  constructor
  · intro h
    by_cases hab : a = b
    · rw [hab]
      exact .refl _
    · -- the class of `b` is one of the sets, and all its elements are joined with the first
      have hclass : {c | Relation.EqvGen q.Linked c b} ∈ (Relation.EqvGen.setoid q.Linked).classes :=
        ⟨b, rfl⟩
      obtain ⟨s, hs', hc⟩ := (hs.classes _).mpr ⟨hclass, a, h, b, .refl b, hab⟩
      have ha : a ∈ s := (Set.ext_iff.mp hc a).mp h
      have hb : b ∈ s := (Set.ext_iff.mp hc b).mp (.refl b)
      cases hl : s.toList with
      | nil =>
        rw [OrdSet.mem_def, hl] at ha
        cases ha
      | cons anchor others =>
        have hanchor : anchor ∈ s := OrdSet.mem_def.mpr (hl ▸ .head _)
        have hjoin : ∀ c ∈ s, Relation.EqvGen (fun a b =>
            ' ' ∉ a ∧ ' ' ∉ b ∧ a ++ " = ".toList ++ b ∈ joins) anchor c := by
          intro c hcs
          have hcl := OrdSet.mem_def.mp hcs
          rw [hl] at hcl
          rcases List.mem_cons.mp hcl with rfl | ho
          · exact .refl _
          · refine .rel _ _ ⟨hblank s hs' _ hanchor, hblank s hs' c hcs, (hmem _).mpr ⟨s, hs', ?_⟩⟩
            rw [hl]
            exact List.mem_map_of_mem ho
        exact (hjoin a ha).symm.trans _ _ _ (hjoin b hb)
  · intro h
    induction h with
    | rel a b hab =>
      obtain ⟨ha, -, hj⟩ := hab
      obtain ⟨s, hs', hj⟩ := (hmem _).mp hj
      cases hl : s.toList with
      | nil =>
        rw [hl] at hj
        cases hj
      | cons anchor others =>
        rw [hl] at hj
        obtain ⟨other, ho, he⟩ := List.mem_map.mp hj
        have hin : ∀ c ∈ anchor :: others, c ∈ s := fun c hc => OrdSet.mem_def.mpr (hl ▸ hc)
        obtain ⟨rfl, rfl⟩ := eq_of_joinText (hblank s hs' _ (hin _ (.head _))) ha he
        exact hset s hs' _ (hin _ (.head _)) _ (hin _ (.tail _ ho))
    | refl a => exact .refl _
    | symm a b _ ih => exact ih.symm
    | trans a b c _ _ ih1 ih2 => exact ih1.trans _ _ _ ih2

section Example

def nameOf (s : String) (h : s.toList ≠ [] ∧ s.toList.all isNameChar = true) : Name :=
  ⟨s.toList, h.1, List.all_eq_true.mp h.2⟩

def tableB : Name := nameOf "b" (by decide)
def tableC : Name := nameOf "c" (by decide)
def columnX : Name := nameOf "x" (by decide)

/-- `b.x > 5` -/
def overFive : Comparison where
  before := []
  table := tableB
  after := "x > 5".toList
  start c hc := by cases hc
  token c hc := by cases hc
  stop := ⟨'5', by decide⟩

theorem overFive_plain : overFive.Plain where
  dotless := by decide
  lower c hc := by
    have h : ("x > 5".toList.all fun c => decide (c.toNat < 128 ∧ c.toLower = c)) = true := by decide
    exact of_decide_eq_true (List.all_eq_true.mp h c hc)
  undivided := by decide

/-- Both orders of `b` and `c`, joined on `x`, with a comparison. -/
def pairQuery : Query where
  tables := [tableB, tableC]
  nodup := by decide
  conjuncts := [.equal ⟨tableB, columnX⟩ ⟨tableC, columnX⟩ 1 1, .compare overFive]
  ne := by decide
  known := by decide

def pairQuery' : Query where
  tables := [tableC, tableB]
  nodup := by decide
  conjuncts := [.compare overFive, .equal ⟨tableC, columnX⟩ ⟨tableB, columnX⟩ 0 0]
  ne := by decide
  known := by decide

def plainAlias (n : Name) : Name :=
  if n = tableB then nameOf "p" (by decide) else nameOf "q" (by decide +kernel)

/-- The alias of `c` is `b`. -/
def hitAlias (n : Name) : Name := if n = tableB then nameOf "a" (by decide) else tableB

/-- One query in two texts: in the second the filter is on another table. -/
example : (signature (pairQuery.text plainAlias 0)).toOption.map (·.filts) = some ["b.x > 5".toList] ∧
    (signature (pairQuery.text hitAlias 0)).toOption.map (·.filts) = some ["c.x > 5".toList] := by
  decide

theorem pairQuery_same : pairQuery.Same pairQuery' where
  tables := .swap _ _ _
  comparisons := .refl _
  classes c d := by
    constructor
    · intro h
      induction h with
      | rel c d hcd =>
        obtain ⟨rfl, rfl⟩ := Prod.mk.inj (List.mem_singleton.mp hcd)
        exact .symm _ _ (.rel _ _ (List.mem_singleton.mpr rfl))
      | refl a => exact .refl _
      | symm a b _ ih => exact ih.symm
      | trans a b c _ _ ih1 ih2 => exact ih1.trans _ _ _ ih2
    · intro h
      induction h with
      | rel c d hcd =>
        obtain ⟨rfl, rfl⟩ := Prod.mk.inj (List.mem_singleton.mp hcd)
        exact .symm _ _ (.rel _ _ (List.mem_singleton.mpr rfl))
      | refl a => exact .refl _
      | symm a b _ ih => exact ih.symm
      | trans a b c _ _ ih1 ih2 => exact ih1.trans _ _ _ ih2

theorem keywordFree_pair : pairQuery.KeywordFree plainAlias ∧ pairQuery'.KeywordFree plainAlias := by
  unfold Query.KeywordFree
  decide

theorem unhit_pair : pairQuery.Unhit plainAlias ∧ pairQuery'.Unhit plainAlias := by
  have key : ∀ u ∈ [tableB, tableC], ¬(plainAlias u).text <:+ tableB.text := by decide
  constructor
  · intro f hf u hu _ hsuff
    simp only [pairQuery, List.mem_cons, reduceCtorEq, Conjunct.compare.injEq, List.not_mem_nil,
      or_false, false_or] at hf
    subst hf
    exact absurd hsuff (key u hu)
  · intro f hf u hu _ hsuff
    simp only [pairQuery', List.mem_cons, reduceCtorEq, Conjunct.compare.injEq, List.not_mem_nil,
      or_false] at hf
    subst hf
    exact absurd hsuff (key u (by simpa [pairQuery', or_comm] using hu))

theorem nodup_pair : (pairQuery.tables.map plainAlias).Nodup ∧
    (pairQuery'.tables.map plainAlias).Nodup := by decide

theorem plain_pair : pairQuery.Plain ∧ pairQuery'.Plain :=
  ⟨List.forall_mem_cons.mpr ⟨trivial, List.forall_mem_singleton.mpr overFive_plain⟩,
    List.forall_mem_cons.mpr ⟨overFive_plain, List.forall_mem_singleton.mpr trivial⟩⟩

/-- The first query in small letters, the second with line ends. -/
def smallText : Text := "select count(*) from b as p, c as q where p.x = q.x and p.x > 5;".toList

def brokenText : Text :=
  "SELECT COUNT(*)\n  FROM c AS q, b AS p\n  WHERE p.X > 5 and q.x=p.x\n".toList

theorem spells_pair : Spells smallText (pairQuery.text plainAlias 1) ∧
    Spells brokenText (pairQuery'.text plainAlias 0) := by decide +kernel

end Example

end Remap

end StarCE
