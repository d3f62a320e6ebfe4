import StarCE.Remap.Presentation

/-!
# What is read from a text

`parseSql` finds the tables and aliases of a query in its text, the equalities
as joins and the comparisons as filters, in lower case and with one blank for
every run of white space (`parseSql_text`).
-/

namespace StarCE

namespace Remap

variable {as : Name → Name} {q : Query}

theorem Name.text_inj {m n : Name} (h : m.text = n.text) : m = n := by
  cases m
  cases n
  cases h
  rfl

/-! ## The clauses -/

theorem fromClause_text (hq : q.KeywordFree as) (W : Text) :
    fromClause ("select count(*) from ".toList ++ (", ".toList.intercalate (q.tables.map (item as)) ++
      (" where ".toList ++ W))) = some (", ".toList.intercalate (q.tables.map (item as))) := by
  have hclear := clear_tables hq (W := W)
  have hne : ", ".toList.intercalate (q.tables.map (item as)) ≠ [] := by
    have h : Tight isSpace (", ".toList.intercalate (q.tables.map (item as))) := by
      refine Tight.intercalate (by simpa using q.tables_ne_nil) (fun x hx => ?_) _
      obtain ⟨t, -, rfl⟩ := List.mem_map.mp hx
      exact t.tight.append (as t).tight _
    exact h.ne
  obtain ⟨c, F, hF⟩ := List.exists_cons_of_ne_nil hne
  rw [hF] at hclear ⊢
  have hfrom : cutAny ["from ".toList] ("select count(*) ".toList ++ ("from ".toList ++
      (c :: F ++ (" where ".toList ++ W)))) =
      some ("select count(*) ".toList, "from ".toList, c :: F ++ (" where ".toList ++ W)) :=
    cutAny_singleton (by decide) (.of_notMem (by decide))
  have hwhere : cutAny [" where ".toList] (F ++ (" where ".toList ++ W)) =
      some (F, " where ".toList, W) := cutAny_singleton (by decide) hclear.of_cons
  have htext : "select count(*) from ".toList ++ (c :: F ++ (" where ".toList ++ W)) =
      "select count(*) ".toList ++ ("from ".toList ++ (c :: F ++ (" where ".toList ++ W))) := rfl
  rw [fromClause, htext, hfrom, List.cons_append]
  simp only [hwhere]

theorem whereClause_text (hq : q.KeywordFree as) {W : Text} (hW : W ≠ []) :
    whereClause ("select count(*) from ".toList ++ (", ".toList.intercalate (q.tables.map (item as)) ++
      (" where ".toList ++ W))) = some W := by
  have hclear := clear_from hq (W := W)
  obtain ⟨c, W, rfl⟩ := List.exists_cons_of_ne_nil hW
  have hwhere := cutAny_singleton (by decide) hclear
  have htext : ("select count(*) from ".toList ++ (", ".toList.intercalate (q.tables.map (item as)) ++
      " ".toList)) ++ ("where ".toList ++ c :: W) = "select count(*) from ".toList ++
        (", ".toList.intercalate (q.tables.map (item as)) ++ (" where ".toList ++ c :: W)) := by
    simp only [List.append_assoc]
    rfl
  rw [htext] at hwhere
  rw [whereClause, hwhere]

/-! ## Tables and aliases -/

theorem fromItem_item (t : Name) {y : Text} (hy : ∀ c ∈ y, isSpace c = true) :
    fromItem (y ++ item as t) = .ok (t.text, (as t).text) := by
  have hitem : Tight isSpace (item as t) := t.tight.append (as t).tight _
  have hstrip : strip isSpace (y ++ (item as t ++ [])) = item as t := by
    rw [strip_append hitem, List.dropWhile_eq_nil_iff.mpr hy]
    simp
  rw [List.append_nil] at hstrip
  have hwords : words isSpace (item as t) = [t.text, "as".toList, (as t).text] := by
    have htext : item as t = t.text ++ ' ' :: ("as".toList ++ ' ' :: (as t).text) := rfl
    have has : ∀ c ∈ "as".toList, isSpace c = false := fun c hc =>
      isSpace_of_isNameChar (List.all_eq_true.mp rfl c hc)
    rw [htext, words_append t.ne t.noSpace (by decide), words_append (by decide) has (by decide),
      words_eq_singleton (as t).ne (as t).noSpace]
  rw [fromItem, hstrip, hwords]
  rfl

theorem mapM_fromItem (l : List Name) (hl : l ≠ []) :
    ((", ".toList.intercalate (l.map (item as))).splitOn ',').mapM fromItem =
      .ok (l.map fun t => (t.text, (as t).text)) := by
  obtain ⟨t, l, rfl⟩ := List.exists_cons_of_ne_nil hl
  have hcomma : ∀ t : Name, ',' ∉ item as t := fun t h => by
    rcases List.mem_append.mp h with h | h
    · exact t.notMem (by decide) h
    · rcases List.mem_append.mp h with h | h
      · exact absurd h (by decide)
      · exact (as t).notMem (by decide) h
  have hsplit : ([',', ' '].intercalate (item as t :: l.map (item as))).splitOn ',' =
      item as t :: (l.map (item as)).map (' ' :: ·) := by
    refine splitOn_intercalate (by decide) (hcomma t) fun y hy => ?_
    obtain ⟨u, -, rfl⟩ := List.mem_map.mp hy
    exact hcomma u
  have hsep : ", ".toList = [',', ' '] := rfl
  have hrest : ((l.map (item as)).map (' ' :: ·)).mapM fromItem =
      .ok (l.map fun t => (t.text, (as t).text)) := by
    rw [List.map_map]
    exact mapM_map_ok fun u _ => fromItem_item u (y := [' ']) (List.all_eq_true.mp rfl)
  have hfirst : fromItem (item as t) = .ok (t.text, (as t).text) :=
    fromItem_item t (y := []) (List.forall_mem_nil _)
  rw [hsep, List.map_cons, hsplit, List.mapM_cons, hfirst, hrest]
  rfl

theorem setItem_new {d : List (Text × Text)} {k : Text} (h : k ∉ d.map (·.1)) (v : Text) :
    setItem d k v = d ++ [(k, v)] := by
  induction d with
  | nil => rfl
  | cons p d ih =>
    rw [List.map_cons, List.mem_cons, not_or] at h
    rw [setItem, if_neg (Ne.symm h.1), ih h.2, List.cons_append]

/-- The aliases with their tables. -/
def Query.a2t (as : Name → Name) (q : Query) : List (Text × Text) :=
  q.tables.map fun t => ((as t).text, t.text)

theorem foldl_setItem (hn : (q.tables.map as).Nodup) :
    (q.tables.map fun t => (t.text, (as t).text)).foldl (fun d p => setItem d p.2 p.1) [] = q.a2t as := by
  unfold Query.a2t
  generalize q.tables = l at hn ⊢
  induction l using List.reverseRecOn with
  | nil => rfl
  | append_singleton l t ih =>
    rw [List.map_append, List.nodup_append] at hn
    obtain ⟨hl, -, hdis⟩ := hn
    rw [List.map_append, List.foldl_append, ih hl]
    show setItem _ (as t).text t.text = _
    rw [setItem_new, List.map_append]
    · rfl
    · intro hm
      simp only [List.map_map, List.mem_map, Function.comp_apply] at hm
      obtain ⟨u, hu, he⟩ := hm
      exact hdis _ (List.mem_map_of_mem hu) _ (.head _) (Name.text_inj he)

/-! ## Conditions -/

theorem Conjunct.clean_equal (l r : Column) (m n : ℕ) : (Conjunct.equal l r m n).clean as =
    l.text as ++ (collapse isSpace ' ' (blanks m) ++ '=' ::
      (collapse isSpace ' ' (blanks n) ++ r.text as)) := by
  have hcol : ∀ c : Column, collapse isSpace ' ' (c.text as) = c.text as := fun c => by
    refine collapse_eq_self fun a ha => ?_
    rcases List.mem_append.mp ha with ha | ha
    · exact (as c.table).noSpace a ha
    · rcases List.mem_cons.mp ha with rfl | ha
      · decide
      · exact c.column.noSpace a ha
  rw [Conjunct.clean, Conjunct.text, l.tight.collapse_append, hcol, collapse_append _ (by decide),
    collapse_append_of_head _ r.tight.head, hcol]

/-- A comparison with its white space collapsed, under any name. -/
def Comparison.clean (f : Comparison) (n : Name) : Text :=
  collapse isSpace ' ' f.before ++ (n.text ++ '.' :: collapse isSpace ' ' f.after)

theorem Conjunct.clean_compare (f : Comparison) :
    (Conjunct.compare f).clean as = f.clean (as f.table) := by
  have hn := (as f.table).tight
  rw [Conjunct.clean, Conjunct.text, Comparison.text, Comparison.clean,
    collapse_append_of_head _ ?_, hn.collapse_append, collapse_eq_self (as f.table).noSpace,
    collapse_cons (by decide)]
  intro c hc
  rw [List.head?_append_of_ne_nil _ hn.ne] at hc
  exact hn.head c hc

/-- The separator is not begun at the end of a text. -/
theorem fits_and {x : Text} (h : ¬" and".toList <:+ x) (s : Text) :
    Fits " and ".toList x (" and ".toList ++ s) := by
  have hand : " and ".toList = [' ', 'a', 'n', 'd', ' '] := rfl
  rw [hand]
  intro y hne hy hp
  match y, hne, hy, hp with
  | [a], _, hy, hp =>
    simp [List.cons_prefix_cons] at hp
  | [a, b], _, _, hp => simp [List.cons_prefix_cons] at hp
  | [a, b, c], _, _, hp => simp [List.cons_prefix_cons] at hp
  | [a, b, c, d], _, hy, hp =>
    simp only [List.cons_append, List.nil_append, List.cons_prefix_cons] at hp
    obtain ⟨rfl, rfl, rfl, rfl, -⟩ := hp
    exact absurd hy h
  | a :: b :: c :: d :: e :: y, _, _, hp =>
    simpa [List.cons_prefix_cons] using hp

theorem Conjunct.Plain.not_and {c : Conjunct} (hc : c.Plain) : ¬" and".toList <:+ c.clean as := by
  have key : ∀ (u x : Text), ¬" and".toList <:+ x → ¬" and".toList <:+ u ++ '.' :: x := by
    intro u x hx h
    rcases suffix_append_iff h with h | ⟨y, -, -, h⟩
    · rcases List.suffix_cons_iff.mp h with h | h
      · exact absurd (List.cons.inj h).1 (by decide)
      · exact hx h
    · have hdot : '.' ∈ " and".toList := h ▸ List.mem_append_right _ (.head _)
      exact absurd hdot (by decide)
  cases c with
  | equal l r m n =>
    have htext : (equal l r m n).clean as = (l.text as ++ (collapse isSpace ' ' (blanks m) ++ '=' ::
        (collapse isSpace ' ' (blanks n) ++ (as r.table).text))) ++ '.' :: r.column.text := by
      rw [clean_equal]
      simp [Column.text]
    rw [htext]
    exact key _ _ fun h => r.column.notMem (by decide) (h.subset (List.mem_cons_self (a := ' ')))
  | compare f =>
    have htext : (compare f).clean as = (collapse isSpace ' ' f.before ++ (as f.table).text) ++
        '.' :: collapse isSpace ' ' f.after := by
      rw [clean_compare, Comparison.clean, List.append_assoc]
    rw [htext]
    refine key _ _ fun h => (Comparison.Plain.undivided hc).2 ?_
    obtain ⟨x, hx⟩ := h
    exact ⟨x, [], by rw [← hx]; simp⟩

/-- Every condition is split on its own. -/
theorem split_conjuncts (l : List Conjunct) (hl : l ≠ []) (hp : ∀ c ∈ l, c.Plain) :
    split " and ".toList (" and ".toList.intercalate (l.map (Conjunct.clean as))) =
      l.flatMap fun c => split " and ".toList (c.clean as) := by
  induction l with
  | nil => exact absurd rfl hl
  | cons c l ih =>
    obtain ⟨hc, hp⟩ := List.forall_mem_cons.mp hp
    cases l with
    | nil => simp [List.intercalate]
    | cons d l =>
      rw [List.map_cons, intercalate_cons_of_ne_nil _ _ (by simp),
        split_append_pat (by decide) (fits_and hc.not_and _), ih (by simp) hp]
      rfl

theorem eq_blank_of_mem {c : Char} {k : ℕ} (h : c ∈ collapse isSpace ' ' (blanks k)) : c = ' ' :=
  (mem_collapse h).elim id fun h => (List.mem_replicate.mp h).2

theorem clear_and_blanks (k : ℕ) {s : Text} (hs : ¬"and ".toList <+: s) :
    Clear " and ".toList (collapse isSpace ' ' (blanks k)) s :=
  .of_forall_eq (fun _ => eq_blank_of_mem) (by decide) hs

/-- An equality has no separator in it. -/
theorem split_equal (l r : Column) (m n : ℕ) :
    split " and ".toList ((Conjunct.equal l r m n).clean as) = [(Conjunct.equal l r m n).clean as] := by
  have hcol : ∀ (c : Column) (s : Text), Clear " and ".toList (c.text as) s := fun c s => by
    refine .of_notMem fun h => ?_
    rcases List.mem_append.mp h with h | h
    · exact (as c.table).notMem (by decide) h
    · rcases List.mem_cons.mp h with h | h
      · exact absurd h (by decide)
      · exact c.column.notMem (by decide) h
  have hright : ¬"and ".toList <+: r.text as ++ [] := by
    rw [List.append_nil]
    intro h
    have hand : ∀ a ∈ "and".toList, isNameChar a = true := List.all_eq_true.mp rfl
    exact absurd (eq_word hand (as r.table).chars (by decide) h).2 (by decide)
  have hsign : ¬"and ".toList <+: '=' :: (collapse isSpace ' ' (blanks n) ++ r.text as) ++ [] := fun h =>
    absurd (List.cons_prefix_cons.mp h).1 (by decide)
  have hequal : Clear " and ".toList ['='] (collapse isSpace ' ' (blanks n) ++ r.text as ++ []) :=
    .of_notMem (by decide)
  rw [Conjunct.clean_equal]
  refine split_eq_self (.append (.append (.append (x := ['=']) (.append (hcol r []) ?_) hequal) ?_)
    (hcol l _))
  · exact clear_and_blanks n hright
  · exact clear_and_blanks m hsign

theorem signs_eq : signs =
    [['<', '='], ['>', '='], ['!', '='], ['<', '>'], ['='], ['<'], ['>']] := rfl

/-- The join that is read from an equality. -/
theorem joinOf_equal (l r : Column) (m n : ℕ) :
    joinOf ((Conjunct.equal l r m n).clean as) = some (l.text as, ['='], r.text as) := by
  have hsigns : ∀ pat ∈ signs, ∃ a p, pat = a :: p ∧ isNameChar a = false ∧ a ≠ '.' ∧ a ≠ ' ' := by
    rw [signs_eq]
    intro pat hp
    fin_cases hp <;> exact ⟨_, _, rfl, by decide, by decide, by decide⟩
  have hclear : ∀ pat ∈ signs, Clear pat (l.text as ++ collapse isSpace ' ' (blanks m))
      ('=' :: (collapse isSpace ' ' (blanks n) ++ r.text as)) := by
    intro pat hp
    obtain ⟨a, p, rfl, hname, hdot, hblank⟩ := hsigns pat hp
    refine .of_notMem fun h => ?_
    rcases List.mem_append.mp h with h | h
    · rcases List.mem_append.mp h with h | h
      · exact (as l.table).notMem hname h
      · rcases List.mem_cons.mp h with h | h
        · exact hdot h
        · exact l.column.notMem hname h
    · exact hblank (eq_blank_of_mem h)
  have hcut : cutAny signs ('=' :: (collapse isSpace ' ' (blanks n) ++ r.text as)) =
      some ([], ['='], collapse isSpace ' ' (blanks n) ++ r.text as) := by
    have hfind : (signs.find? fun pat => pat <+: '=' :: (collapse isSpace ' ' (blanks n) ++ r.text as)) =
        some ['='] := by
      rw [signs_eq]
      simp [List.cons_prefix_cons]
    rw [cutAny, hfind]
    rfl
  have hdot : ∀ c : Column, '.' ∈ c.text as := fun c => List.mem_append_right _ (.head _)
  have hstrip : ∀ k, ∀ c ∈ collapse isSpace ' ' (blanks k), isSpace c = true := fun k c hc => by
    rw [eq_blank_of_mem hc]
    decide
  have hl : strip isSpace (l.text as ++ collapse isSpace ' ' (blanks m)) = l.text as := by
    have hl : Tight isSpace (l.text as) := l.tight
    have := strip_append hl [] (collapse isSpace ' ' (blanks m))
    rw [List.rdropWhile_eq_nil_iff.mpr (hstrip m)] at this
    simpa using this
  have hr : strip isSpace (collapse isSpace ' ' (blanks n) ++ r.text as) = r.text as := by
    have hr : Tight isSpace (r.text as) := r.tight
    have := strip_append hr (collapse isSpace ' ' (blanks n)) []
    rw [List.dropWhile_eq_nil_iff.mpr (hstrip n)] at this
    simpa using this
  rw [joinOf, Conjunct.clean_equal, ← List.append_assoc, cutAny_append hclear, hcut]
  simp [hdot, hl, hr]

/-! ## Comparisons -/

theorem Comparison.last_before (f : Comparison) :
    ∀ c ∈ (collapse isSpace ' ' f.before).getLast?, isNameChar c = false := by
  intro c hc
  rcases getLast?_collapse hc with hc | rfl
  · exact f.token c hc
  · decide

theorem notMem_collapse {s : Text} (h : '.' ∉ s) : '.' ∉ collapse isSpace ' ' s := fun hm => by
  rcases mem_collapse hm with hm | hm
  · exact absurd hm (by decide)
  · exact h hm

/-- No separator goes across the start of a name. -/
theorem fits_name {x : Text} (hx : ∀ c ∈ x.getLast?, isNameChar c = false) (n : Name) (s : Text) :
    Fits " and ".toList x (n.text ++ '.' :: s) := by
  have hand : " and ".toList = [' ', 'a', 'n', 'd', ' '] := rfl
  intro y hne hy hp
  have hlast : ∀ c ∈ y.getLast?, isNameChar c = false := by
    obtain ⟨z, rfl⟩ := hy
    intro c hc
    exact hx c (by rwa [List.getLast?_append_of_ne_nil _ hne])
  rw [hand] at hp ⊢
  match y, hne, hlast, hp with
  | [a], _, _, hp =>
    have hword : ∀ a ∈ "and".toList, isNameChar a = true := List.all_eq_true.mp rfl
    exact absurd (eq_word hword n.chars (by decide) (List.cons_prefix_cons.mp hp).2).2 (by decide)
  | [a, b], _, hlast, hp =>
    simp only [List.cons_append, List.nil_append, List.cons_prefix_cons] at hp
    obtain ⟨rfl, rfl, -⟩ := hp
    exact absurd (hlast _ rfl) (by decide)
  | [a, b, c], _, hlast, hp =>
    simp only [List.cons_append, List.nil_append, List.cons_prefix_cons] at hp
    obtain ⟨rfl, rfl, rfl, -⟩ := hp
    exact absurd (hlast _ rfl) (by decide)
  | [a, b, c, d], _, hlast, hp =>
    simp only [List.cons_append, List.nil_append, List.cons_prefix_cons] at hp
    obtain ⟨rfl, rfl, rfl, rfl, -⟩ := hp
    exact absurd (hlast _ rfl) (by decide)
  | a :: b :: c :: d :: e :: y, _, _, hp => simpa [List.cons_prefix_cons] using hp

/-- A plain comparison has no separator in it. -/
theorem Comparison.Plain.split_clean {f : Comparison} (hf : f.Plain) (n : Name) :
    split " and ".toList (f.clean n) = [f.clean n] := by
  obtain ⟨hbefore, hafter⟩ := hf.undivided
  have hname : Clear " and ".toList (n.text ++ ['.']) (collapse isSpace ' ' f.after ++ []) := by
    refine .of_notMem fun hm => ?_
    rcases List.mem_append.mp hm with hm | hm
    · exact n.notMem (by decide) hm
    · exact absurd hm (by decide)
  have hlast : Clear " and ".toList (collapse isSpace ' ' f.after) [] :=
    clear_nil fun h => hafter (h.trans (List.prefix_append _ _).isInfix)
  have hfirst : Clear " and ".toList (collapse isSpace ' ' f.before)
      (n.text ++ '.' :: collapse isSpace ' ' f.after) := fun y hne hy hp =>
    hbefore ((fits_name f.last_before n _ y hne hy hp).isInfix.trans hy.isInfix)
  have hclear := Clear.append (y := (n.text ++ ['.']) ++ collapse isSpace ' ' f.after) (s := [])
    (hlast.append hname) (by simpa using hfirst)
  rw [Comparison.clean]
  refine split_eq_self ?_
  simpa using hclear

/-- A text with one period is no join. -/
theorem joinOf_eq_none {c : Text} (h : c.count '.' ≤ 1) : joinOf c = none := by
  unfold joinOf
  cases hcut : cutAny signs c with
  | none => rfl
  | some p =>
    obtain ⟨l, op, r⟩ := p
    show (if '.' ∈ l ∧ '.' ∈ r then _ else none) = none
    rw [if_neg]
    rintro ⟨hl, hr⟩
    rw [cutAny_eq_some hcut, List.count_append, List.count_append] at h
    have := List.count_pos_iff.mpr hl
    have := List.count_pos_iff.mpr hr
    omega

/-- A plain comparison is no join: it has one period. -/
theorem Comparison.Plain.joinOf_clean {f : Comparison} (hf : f.Plain) (n : Name) :
    joinOf (f.clean n) = none := by
  apply joinOf_eq_none
  rw [Comparison.clean, List.count_append, List.count_append, List.count_cons_self,
    List.count_eq_zero_of_not_mem (notMem_collapse hf.dotless.1),
    List.count_eq_zero_of_not_mem (n.notMem (by decide)),
    List.count_eq_zero_of_not_mem (notMem_collapse hf.dotless.2)]

theorem Comparison.strip_clean (f : Comparison) (as : Name → Name) :
    strip isSpace (f.clean (as f.table)) = f.clean (as f.table) := by
  rw [← Conjunct.clean_compare]
  exact strip_eq_self (Conjunct.compare f).tight.collapse

/-! ## The whole text -/

def Conjunct.joins (as : Name → Name) : Conjunct → List (Text × Text × Text)
  | equal l r _ _ => [(l.text as, ['='], r.text as)]
  | compare _ => []

def Conjunct.filts (as : Name → Name) : Conjunct → List Text
  | equal _ _ _ _ => []
  | compare f => [f.clean (as f.table)]

end Remap

end StarCE
