import StarCE.Remap.Signature

/-!
# One query, many texts

A query is a list of tables, equalities of columns and comparisons; a text of
it fixes the order of the tables and of the conditions, and an alias for every
table. White space between the words and the case of the letters do not matter
(`Spells.clean_eq`). What `parseSql` reads from such a text is known exactly
(`parseSql_text`), as long as no name is taken for the keyword `WHERE` and the
literals are plain.
-/

namespace StarCE

namespace Remap

/-! ## Names -/

def isNameChar (c : Char) : Bool := c.isLower || c.isDigit || c = '_'

/-- The name of a table, of a column or of an alias. -/
structure Name where
  text : Text
  ne : text ≠ []
  chars : ∀ c ∈ text, isNameChar c = true
  deriving DecidableEq

theorem ne_of_isNameChar {c d : Char} (hc : isNameChar c = true) (hd : isNameChar d = false) :
    c ≠ d := fun h => by rw [h, hd] at hc; cases hc

theorem isNameChar_eq {c : Char} : isNameChar c = true ↔
    (97 ≤ c.toNat ∧ c.toNat ≤ 122) ∨ (48 ≤ c.toNat ∧ c.toNat ≤ 57) ∨ c.toNat = 95 := by
  have hu : c = '_' ↔ c.toNat = 95 := by
    rw [← Char.toNat_inj]
    rfl
  simp only [isNameChar, Char.isLower, Char.isDigit, Bool.or_eq_true, Bool.and_eq_true,
    decide_eq_true_eq, ge_iff_le, UInt32.le_iff_toNat_le, hu, or_assoc]
  rfl

theorem isSpace_of_isNameChar {c : Char} (hc : isNameChar c = true) : isSpace c = false := by
  rw [isNameChar_eq] at hc
  rw [isSpace, decide_eq_false_iff_not]
  simp only [List.mem_cons, List.not_mem_nil, or_false]
  omega

theorem toLower_of_isNameChar {c : Char} (hc : isNameChar c = true) : c.toLower = c := by
  rw [isNameChar_eq] at hc
  have hup : ¬(c.val ≥ 'A'.val ∧ c.val ≤ 'Z'.val) := by
    simp only [ge_iff_le, UInt32.le_iff_toNat_le]
    show ¬(65 ≤ c.toNat ∧ c.toNat ≤ 90)
    omega
  rw [Char.toLower, dif_neg hup]

namespace Name

variable (n : Name)

theorem notMem {c : Char} (hc : isNameChar c = false) : c ∉ n.text := fun h => by
  rw [n.chars c h] at hc
  cases hc

theorem noSpace : ∀ c ∈ n.text, isSpace c = false := fun c hc => isSpace_of_isNameChar (n.chars c hc)

theorem map_toLower : n.text.map Char.toLower = n.text :=
  (List.map_congr_left fun c hc => toLower_of_isNameChar (n.chars c hc)).trans (List.map_id _)

theorem exists_cons : ∃ c s, n.text = c :: s ∧ isNameChar c = true := by
  obtain ⟨c, s, h⟩ := List.exists_cons_of_ne_nil n.ne
  exact ⟨c, s, h, n.chars c (h ▸ .head _)⟩

theorem exists_concat : ∃ s c, n.text = s ++ [c] ∧ isNameChar c = true := by
  rcases List.eq_nil_or_concat n.text with h | ⟨s, c, h⟩
  · exact absurd h n.ne
  · rw [List.concat_eq_append] at h
    exact ⟨s, c, h, n.chars c (h ▸ List.mem_append_right _ (.head _))⟩

end Name

/-! ## Queries -/

structure Column where
  table : Name
  column : Name
  deriving DecidableEq

/-- A comparison of a column of a table with a literal, as the texts around the table. -/
structure Comparison where
  before : Text
  table : Name
  after : Text
  start : ∀ c ∈ before.head?, isSpace c = false
  token : ∀ c ∈ before.getLast?, isNameChar c = false
  stop : ∃ c ∈ after.getLast?, isSpace c = false ∧ c ≠ ';'
  deriving DecidableEq

/-- A comparison that is read as it stands: no period in the literal, which would make it a join; no
capital letter and no letter of another alphabet; and no word `and`. -/
structure Comparison.Plain (f : Comparison) : Prop where
  dotless : '.' ∉ f.before ∧ '.' ∉ f.after
  lower : ∀ c ∈ f.before ++ f.after, c.toNat < 128 ∧ c.toLower = c
  undivided : ¬" and ".toList <:+: collapse isSpace ' ' f.before ∧
    ¬" and ".toList <:+: collapse isSpace ' ' f.after ++ [' ']

inductive Conjunct where
  | equal (l r : Column) (blanks blanks' : ℕ)
  | compare (f : Comparison)
  deriving DecidableEq

def Conjunct.Plain : Conjunct → Prop
  | equal _ _ _ _ => True
  | compare f => f.Plain

def Conjunct.tables : Conjunct → List Name
  | equal l r _ _ => [l.table, r.table]
  | compare f => [f.table]

structure Query where
  tables : List Name
  nodup : tables.Nodup
  conjuncts : List Conjunct
  ne : conjuncts ≠ []
  known : ∀ c ∈ conjuncts, ∀ t ∈ c.tables, t ∈ tables
  deriving DecidableEq

def Query.Plain (q : Query) : Prop := ∀ c ∈ q.conjuncts, c.Plain

/-! ## Texts -/

section Text

variable (as : Name → Name)

def Column.text (c : Column) : Text := (as c.table).text ++ '.' :: c.column.text

def Comparison.text (f : Comparison) : Text := f.before ++ ((as f.table).text ++ '.' :: f.after)

def blanks (n : ℕ) : Text := List.replicate n ' '

def Conjunct.text : Conjunct → Text
  | equal l r m n => l.text as ++ (blanks m ++ '=' :: (blanks n ++ r.text as))
  | compare f => f.text as

/-- `SELECT COUNT(*) FROM t AS a, ... WHERE ... AND ...`, with semicolons at the end. Other white
space and other letters are a matter of `Spells`. -/
def Query.text (q : Query) (semicolons : ℕ) : Text :=
  "SELECT COUNT(*) FROM ".toList ++
    (", ".toList.intercalate (q.tables.map fun t => t.text ++ (" AS ".toList ++ (as t).text)) ++
      (" WHERE ".toList ++ (" AND ".toList.intercalate (q.conjuncts.map (Conjunct.text as)) ++
        List.replicate semicolons ';')))

end Text

/-! ## Spelling -/

/-- The same words, up to the case of their letters, with any white space between and around. -/
def Spells (s s' : Text) : Prop := (words isSpace s).map lower = (words isSpace s').map lower

instance (s s' : Text) : Decidable (Spells s s') := inferInstanceAs (Decidable (_ = _))

theorem map_intercalate {β : Type} (g : Char → β) (sep : Text) (l : List Text) :
    (sep.intercalate l).map g = (sep.map g).intercalate (l.map (List.map g)) := by
  induction l with
  | nil => rfl
  | cons x l ih =>
    cases l with
    | nil => simp [List.intercalate]
    | cons y l =>
      rw [List.intercalate_cons_cons, List.map_append, List.map_append, ih]
      simp only [List.map_cons, List.intercalate_cons_cons]

/-- Only the words of a text are searched. -/
theorem Spells.clean_eq {s s' : Text} (h : Spells s s') : clean s = clean s' := by
  have hclean : ∀ s, clean s =
      ([' '].intercalate ((words isSpace s).map lower)).rdropWhile (· = ';') := by
    intro s
    rw [clean, strip_collapse (by decide), lower, map_intercalate]
    rfl
  rw [hclean, hclean, h]

theorem Spells.parseSql_eq {s s' : Text} (h : Spells s s') : parseSql s = parseSql s' := by
  unfold parseSql
  rw [h.clean_eq]

/-! ## The cleaned text -/

section Clean

variable {as : Name → Name}

theorem Name.tight (n : Name) : Tight isSpace n.text := .of_forall n.ne n.noSpace

theorem Column.tight (c : Column) : Tight isSpace (c.text as) :=
  (as c.table).tight.append c.column.tight ['.']

theorem Comparison.tight (f : Comparison) : Tight isSpace (f.text as) where
  ne := by simp [Comparison.text]
  head a ha := by
    cases hb : f.before with
    | nil =>
      rw [Comparison.text, hb, List.nil_append, List.head?_append_of_ne_nil _ (as f.table).ne] at ha
      exact (as f.table).tight.head a ha
    | cons d s =>
      rw [Comparison.text, hb] at ha
      exact f.start a (by rw [hb]; exact ha)
  last a ha := by
    obtain ⟨b, hb, hspace, -⟩ := f.stop
    obtain ⟨s, hs⟩ := List.getLast?_eq_some_iff.mp hb
    have : f.text as = (f.before ++ ((as f.table).text ++ '.' :: s)) ++ [b] := by
      simp [Comparison.text, hs]
    rw [this, List.getLast?_concat] at ha
    rwa [← Option.some.inj ha]

theorem Conjunct.tight (c : Conjunct) : Tight isSpace (c.text as) := by
  cases c with
  | equal l r m n =>
    have h : Tight isSpace (l.text as ++ ((blanks m ++ '=' :: blanks n) ++ r.text as)) :=
      l.tight.append r.tight _
    rwa [List.append_assoc, List.cons_append] at h
  | compare f => exact f.tight

theorem Conjunct.last (c : Conjunct) : ∀ a ∈ (c.text as).getLast?, a ≠ ';' := by
  intro a ha
  cases c with
  | equal l r m n =>
    obtain ⟨s, b, hb, hname⟩ := r.column.exists_concat
    have : (equal l r m n).text as =
        (l.text as ++ (blanks m ++ '=' :: (blanks n ++ ((as r.table).text ++ '.' :: s)))) ++ [b] := by
      simp [Conjunct.text, Column.text, hb]
    rw [this, List.getLast?_concat] at ha
    exact Option.some.inj ha ▸ ne_of_isNameChar hname (by decide)
  | compare f =>
    obtain ⟨b, hb, -, hsemi⟩ := f.stop
    obtain ⟨s, hs⟩ := List.getLast?_eq_some_iff.mp hb
    have : (compare f).text as = (f.before ++ ((as f.table).text ++ '.' :: s)) ++ [b] := by
      simp [Conjunct.text, Comparison.text, hs]
    rw [this, List.getLast?_concat] at ha
    exact Option.some.inj ha ▸ hsemi

theorem Column.lower (c : Column) : ∀ a ∈ c.text as, a.toLower = a := by
  intro a ha
  rcases List.mem_append.mp ha with ha | ha
  · exact toLower_of_isNameChar ((as c.table).chars a ha)
  · rcases List.mem_cons.mp ha with rfl | ha
    · rfl
    · exact toLower_of_isNameChar (c.column.chars a ha)

theorem Conjunct.Plain.lower {c : Conjunct} (hc : c.Plain) : ∀ a ∈ c.text as, a.toLower = a := by
  intro a ha
  cases c with
  | equal l r m n =>
    have hblanks : ∀ k, a ∈ blanks k → a.toLower = a := fun k hk => by
      rw [(List.mem_replicate.mp hk).2]
      rfl
    simp only [Conjunct.text, List.mem_append, List.mem_cons] at ha
    rcases ha with ha | ha | rfl | ha | ha
    · exact l.lower a ha
    · exact hblanks m ha
    · rfl
    · exact hblanks n ha
    · exact r.lower a ha
  | compare f =>
    simp only [Conjunct.text, Comparison.text, List.mem_append, List.mem_cons] at ha
    rcases ha with ha | ha | rfl | ha
    · exact (Comparison.Plain.lower hc a (List.mem_append_left _ ha)).2
    · exact toLower_of_isNameChar ((as f.table).chars a ha)
    · rfl
    · exact (Comparison.Plain.lower hc a (List.mem_append_right _ ha)).2

/-- A condition with its white space collapsed. -/
def Conjunct.clean (as : Name → Name) (c : Conjunct) : Text := collapse isSpace ' ' (c.text as)

theorem Conjunct.Plain.map_toLower_clean {c : Conjunct} (hc : c.Plain) :
    (c.clean as).map Char.toLower = c.clean as := by
  refine (List.map_congr_left fun a ha => ?_).trans (List.map_id _)
  rcases mem_collapse ha with rfl | ha
  · rfl
  · exact hc.lower a ha

/-- A table with its alias, in lower case. -/
def item (as : Name → Name) (t : Name) : Text := t.text ++ (" as ".toList ++ (as t).text)

theorem tight_upperItem (t : Name) : Tight isSpace (t.text ++ (" AS ".toList ++ (as t).text)) :=
  t.tight.append (as t).tight _

theorem collapse_upperItem (t : Name) :
    collapse isSpace ' ' (t.text ++ (" AS ".toList ++ (as t).text)) =
      t.text ++ (" AS ".toList ++ (as t).text) := by
  rw [t.tight.collapse_append_append (as t).tight, collapse_eq_self t.noSpace,
    collapse_eq_self (as t).noSpace]
  rfl

theorem map_toLower_upperItem (t : Name) :
    (t.text ++ (" AS ".toList ++ (as t).text)).map Char.toLower = item as t := by
  rw [List.map_append, List.map_append, t.map_toLower, (as t).map_toLower]
  rfl

theorem rdropWhile_replicate {x : Text} {c : Char} (hx : ∀ a ∈ x.getLast?, a ≠ c) (k : ℕ) :
    (x ++ List.replicate k c).rdropWhile (· = c) = x := by
  induction k with
  | zero =>
    rw [List.replicate_zero, List.append_nil, List.rdropWhile_eq_self_iff]
    intro hl
    simpa using hx _ (List.getLast?_eq_some_getLast hl)
  | succ k ih => rw [List.replicate_succ', ← List.append_assoc, List.rdropWhile_concat_pos _ _ _ (by simp), ih]

theorem exists_intercalate_concat (sep : Text) (l : List Text) (x : Text) :
    ∃ y, sep.intercalate (l ++ [x]) = y ++ x := by
  induction l with
  | nil => exact ⟨[], by simp [List.intercalate]⟩
  | cons z l ih =>
    obtain ⟨y, hy⟩ := ih
    obtain ⟨w, l', hl⟩ := List.exists_cons_of_ne_nil (show l ++ [x] ≠ [] by simp)
    rw [hl] at hy
    refine ⟨z ++ sep ++ y, ?_⟩
    rw [List.cons_append, hl, List.intercalate_cons_cons, hy, List.append_assoc _ y]

theorem Query.tables_ne_nil (q : Query) : q.tables ≠ [] := by
  obtain ⟨c, l, h⟩ := List.exists_cons_of_ne_nil q.ne
  have hc : c ∈ q.conjuncts := h ▸ .head _
  cases c with
  | equal l r m n => exact List.ne_nil_of_mem (q.known _ hc l.table (.head _))
  | compare f => exact List.ne_nil_of_mem (q.known _ hc f.table (.head _))

theorem clean_query {F W : Text} (hF : Tight isSpace F) (hW : Tight isSpace W)
    (hlast : ∀ a ∈ ((collapse isSpace ' ' W).map Char.toLower).getLast?, a ≠ ';') (k : ℕ) :
    clean ("SELECT COUNT(*) FROM ".toList ++ (F ++ (" WHERE ".toList ++ (W ++ List.replicate k ';')))) =
      "select count(*) from ".toList ++ ((collapse isSpace ' ' F).map Char.toLower ++
        (" where ".toList ++ (collapse isSpace ' ' W).map Char.toLower)) := by
  have hR : ∀ c ∈ List.replicate k ';', isSpace c = false := fun c hc => by
    rw [(List.mem_replicate.mp hc).2]
    decide
  have hcollapse : collapse isSpace ' '
      ("SELECT COUNT(*) FROM ".toList ++ (F ++ (" WHERE ".toList ++ (W ++ List.replicate k ';')))) =
      "SELECT COUNT(*) FROM ".toList ++ (collapse isSpace ' ' F ++ (" WHERE ".toList ++
        (collapse isSpace ' ' W ++ List.replicate k ';'))) := by
    have hselect : collapse isSpace ' ' "SELECT COUNT(*) FROM ".toList =
        "SELECT COUNT(*) FROM ".toList := by decide
    have hwhere : collapse isSpace ' ' " WHERE ".toList = " WHERE ".toList := by decide
    have hheadF : ∀ s : Text, ∀ c ∈ (F ++ s).head?, isSpace c = false := fun s c hc => by
      rw [List.head?_append_of_ne_nil _ hF.ne] at hc
      exact hF.head c hc
    have hheadW : ∀ s : Text, ∀ c ∈ (W ++ s).head?, isSpace c = false := fun s c hc => by
      rw [List.head?_append_of_ne_nil _ hW.ne] at hc
      exact hW.head c hc
    rw [collapse_append_of_head _ (hheadF _), hF.collapse_append, collapse_append_of_head _ (hheadW _),
      hW.collapse_append, collapse_eq_self hR, hselect, hwhere]
  have hselect : Tight isSpace "SELECT".toList :=
    ⟨by decide, fun c hc => Option.some.inj hc ▸ rfl, fun c hc => Option.some.inj hc ▸ rfl⟩
  have hWc : Tight isSpace (collapse isSpace ' ' W) := hW.collapse
  have hX := hselect.append hWc
    (" COUNT(*) FROM ".toList ++ (collapse isSpace ' ' F ++ " WHERE ".toList))
  have hkeep : (List.replicate k ';').rdropWhile isSpace = List.replicate k ';' := by
    rw [List.rdropWhile_eq_self_iff]
    intro hl
    rw [hR _ (List.getLast_mem hl)]
    decide
  have hsplit : "SELECT COUNT(*) FROM ".toList ++ (collapse isSpace ' ' F ++ (" WHERE ".toList ++
      (collapse isSpace ' ' W ++ List.replicate k ';'))) = [] ++ (("SELECT".toList ++
        ((" COUNT(*) FROM ".toList ++ (collapse isSpace ' ' F ++ " WHERE ".toList)) ++
          collapse isSpace ' ' W)) ++ List.replicate k ';') := by
    simp only [List.append_assoc, List.nil_append]
    rfl
  have hlower : ("SELECT".toList ++ ((" COUNT(*) FROM ".toList ++ (collapse isSpace ' ' F ++
      " WHERE ".toList)) ++ collapse isSpace ' ' W)).map Char.toLower =
      "select count(*) from ".toList ++ ((collapse isSpace ' ' F).map Char.toLower ++
        (" where ".toList ++ (collapse isSpace ' ' W).map Char.toLower)) := by
    simp only [List.map_append, List.append_assoc]
    rfl
  have hne : (collapse isSpace ' ' W).map Char.toLower ≠ [] := by
    simpa using hWc.ne
  rw [clean, hcollapse, hsplit, strip_append hX, hkeep, List.dropWhile_nil, List.nil_append, lower,
    List.map_append, hlower, List.map_replicate]
  refine rdropWhile_replicate (fun a ha => hlast a ?_) k
  rwa [← List.append_assoc, ← List.append_assoc, List.getLast?_append_of_ne_nil _ hne] at ha

/-- The text that is searched. -/
theorem clean_text {q : Query} (hp : q.Plain) (semicolons : ℕ) : clean (q.text as semicolons) =
    "select count(*) from ".toList ++ (", ".toList.intercalate (q.tables.map (item as)) ++
      (" where ".toList ++ " and ".toList.intercalate (q.conjuncts.map (Conjunct.clean as)))) := by
  have hitems : ∀ x ∈ q.tables.map (fun t => t.text ++ (" AS ".toList ++ (as t).text)),
      Tight isSpace x := by
    rintro x hx
    obtain ⟨t, -, rfl⟩ := List.mem_map.mp hx
    exact tight_upperItem t
  have hconds : ∀ x ∈ q.conjuncts.map (Conjunct.text as), Tight isSpace x := by
    rintro x hx
    obtain ⟨c, -, rfl⟩ := List.mem_map.mp hx
    exact c.tight
  have hcomma : collapse isSpace ' ' ", ".toList = ", ".toList := by decide
  have hand : collapse isSpace ' ' " AND ".toList = " AND ".toList := by decide
  have hF : (collapse isSpace ' ' (", ".toList.intercalate
      (q.tables.map fun t => t.text ++ (" AS ".toList ++ (as t).text)))).map Char.toLower =
      ", ".toList.intercalate (q.tables.map (item as)) := by
    rw [collapse_intercalate hcomma hitems, map_intercalate, List.map_map, List.map_map]
    congr 1
    refine List.map_congr_left fun t _ => ?_
    rw [Function.comp_apply, Function.comp_apply, collapse_upperItem, map_toLower_upperItem]
  have hW : (collapse isSpace ' ' (" AND ".toList.intercalate
      (q.conjuncts.map (Conjunct.text as)))).map Char.toLower =
      " and ".toList.intercalate (q.conjuncts.map (Conjunct.clean as)) := by
    rw [collapse_intercalate hand hconds, map_intercalate, List.map_map, List.map_map]
    congr 1
    exact List.map_congr_left fun c hc => (hp c hc).map_toLower_clean
  have hlast : ∀ a ∈ (" and ".toList.intercalate (q.conjuncts.map (Conjunct.clean as))).getLast?,
      a ≠ ';' := by
    rcases List.eq_nil_or_concat q.conjuncts with h | ⟨l, c, h⟩
    · exact absurd h q.ne
    · rw [h, List.concat_eq_append, List.map_append]
      obtain ⟨y, hy⟩ := exists_intercalate_concat " and ".toList (l.map (Conjunct.clean as)) (c.clean as)
      intro a ha
      have hne : c.clean as ≠ [] := c.tight.collapse.ne
      rw [List.map_singleton, hy, List.getLast?_append_of_ne_nil _ hne] at ha
      rcases getLast?_collapse ha with ha | rfl
      · exact c.last a ha
      · decide
  have h := clean_query (Tight.intercalate (by simpa using q.tables_ne_nil) hitems ", ".toList)
    (Tight.intercalate (by simpa using q.ne) hconds " AND ".toList) (hW.symm ▸ hlast) semicolons
  rw [hF, hW] at h
  exact h

end Clean

/-! ## The keyword `WHERE` -/

/-- No name that a blank follows ends like the keyword. -/
def Query.KeywordFree (as : Name → Name) (q : Query) : Prop :=
  (∀ t ∈ q.tables, ¬"where".toList <:+ t.text) ∧
    ∀ t ∈ q.tables.getLast?, ¬"where".toList <:+ (as t).text

section Keyword

variable {as : Name → Name} {q : Query} {tables : List Name} {pat S W : Text}

/-- The names of a list of tables and what stands between them. -/
theorem clear_items (hne : tables ≠ []) (htable : ∀ t ∈ tables, ∀ s, Clear pat t.text (" as ".toList ++ s))
    (halias : ∀ t ∈ tables, ∀ s, Clear pat (" as ".toList ++ (as t).text) (", ".toList ++ s))
    (hlast : ∀ t ∈ tables.getLast?, Clear pat (" as ".toList ++ (as t).text) S)
    (hcomma : ∀ t ∈ tables, ∀ s, Clear pat ", ".toList (t.text ++ (" as ".toList ++ s))) :
    Clear pat (", ".toList.intercalate (tables.map (item as))) S := by
  induction tables with
  | nil => exact absurd rfl hne
  | cons t l ih =>
    obtain ⟨ht, hl⟩ := List.forall_mem_cons.mp htable
    cases l with
    | nil =>
      have hitem : ", ".toList.intercalate (List.map (item as) [t]) = item as t := by
        simp [List.intercalate]
      rw [hitem]
      refine Clear.append (hlast t rfl) ?_
      rw [List.append_assoc]
      exact ht _
    | cons u l =>
      rw [List.map_cons, List.map_cons, List.intercalate_cons_cons, ← List.map_cons, List.append_assoc]
      refine Clear.append (Clear.append (ih (by simp) hl (fun t ht => halias t (.tail _ ht))
        (fun t ht => hlast t (by rwa [List.getLast?_cons_cons])) fun t ht => hcomma t (.tail _ ht)) ?_) ?_
      · obtain ⟨s, hs⟩ : ∃ s, ", ".toList.intercalate (List.map (item as) (u :: l)) ++ S =
            u.text ++ (" as ".toList ++ s) := by
          cases l with
          | nil => exact ⟨(as u).text ++ S, by simp [List.intercalate, item]⟩
          | cons w l => exact ⟨(as u).text ++ (", ".toList ++ (", ".toList.intercalate
              ((w :: l).map (item as)) ++ S)), by
                rw [List.map_cons, List.map_cons, List.intercalate_cons_cons]
                simp only [item, List.append_assoc]⟩
        rw [hs]
        exact hcomma u (.tail _ (.head _)) s
      · rw [List.append_assoc]
        refine Clear.append (halias t (.head _) _) ?_
        rw [List.append_assoc]
        exact ht _

/-- A word with a blank after it is found only as a whole. -/
theorem eq_word {w y s : Text} {c : Char} (hw : ∀ a ∈ w, isNameChar a = true)
    (hy : ∀ a ∈ y, isNameChar a = true) (hc : isNameChar c = false) (h : w ++ [' '] <+: y ++ c :: s) :
    y = w ∧ c = ' ' := by
  obtain ⟨r, hr⟩ := h
  rw [List.append_assoc, List.singleton_append] at hr
  have hword : (w ++ ' ' :: r).takeWhile isNameChar = w := by
    rw [List.takeWhile_append_of_pos hw, List.takeWhile_cons_of_neg (by decide), List.append_nil]
  have htake : (y ++ c :: s).takeWhile isNameChar = y := by
    rw [List.takeWhile_append_of_pos hy, List.takeWhile_cons_of_neg (by simp [hc]), List.append_nil]
  obtain rfl : y = w := by rw [← htake, ← hr, hword]
  exact ⟨rfl, (List.cons.inj (List.append_cancel_left hr)).1.symm⟩

theorem eq_where {y s : Text} {c : Char} (hy : ∀ a ∈ y, isNameChar a = true) (hc : isNameChar c = false)
    (h : "where ".toList <+: y ++ c :: s) : y = "where".toList ∧ c = ' ' :=
  eq_word (w := "where".toList) (List.all_eq_true.mp rfl) hy hc h

/-- A name that is not `where` is not taken for the keyword. -/
theorem clear_blank {c : Char} {y s : Text} (hy : ∀ a ∈ y, isNameChar a = true)
    (hc : isNameChar c = false) (h : y = "where".toList → c ≠ ' ') :
    Clear " where ".toList [' '] (y ++ c :: s) := by
  intro z hne hz hp
  obtain rfl : z = [' '] := by
    rcases List.suffix_cons_iff.mp hz with h | h
    · exact h
    · exact absurd (List.suffix_nil.mp h) hne
  obtain ⟨hw, hc'⟩ := eq_where hy hc (List.cons_prefix_cons.mp hp).2
  exact h hw hc'

theorem clear_as {s : Text} (h : Clear " where ".toList [' '] s) : Clear " where ".toList " as ".toList s := by
  have hfirst : Clear " where ".toList [' '] ("as ".toList ++ s) := by
    intro z hne hz hp
    obtain rfl : z = [' '] := by
      rcases List.suffix_cons_iff.mp hz with h | h
      · exact h
      · exact absurd (List.suffix_nil.mp h) hne
    have := (List.cons_prefix_cons.mp (List.cons_prefix_cons.mp hp).2).1
    exact absurd this (by decide)
  have hword : Clear " where ".toList "as".toList (" ".toList ++ s) := .of_notMem (by decide)
  exact (h.append hword).append hfirst

variable (hq : q.KeywordFree as)

include hq

theorem table_ne_where {t : Name} (ht : t ∈ q.tables) : t.text ≠ "where".toList :=
  fun h => hq.1 t ht (h ▸ List.suffix_rfl)

theorem alias_ne_where {t : Name} (ht : t ∈ q.tables.getLast?) : (as t).text ≠ "where".toList :=
  fun h => hq.2 t ht (h ▸ List.suffix_rfl)

/-- The first ` where ` is the keyword. -/
theorem clear_tables : Clear " where ".toList (", ".toList.intercalate (q.tables.map (item as)))
    (" where ".toList ++ W) := by
  have hname : ∀ (n : Name) (s : Text), Clear " where ".toList n.text s := fun n _ =>
    .of_notMem (n.notMem (by decide))
  refine clear_items q.tables_ne_nil (fun t _ _ => hname t _) (fun t _ s => ?_) (fun t ht => ?_)
    fun t ht s => ?_
  · exact (hname (as t) _).append (clear_as (clear_blank (as t).chars (by decide) fun _ => by decide))
  · exact (hname (as t) _).append (clear_as (clear_blank (as t).chars (by decide)
      fun h => absurd h (alias_ne_where hq ht)))
  · have hcomma : Clear " where ".toList [','] (" ".toList ++ (t.text ++ (" as ".toList ++ s))) :=
      .of_notMem (by decide)
    exact (clear_blank t.chars (by decide) fun h => absurd h (table_ne_where hq ht)).append hcomma

/-- The first `where ` is the one of the keyword. -/
theorem clear_from : Clear "where ".toList ("select count(*) from ".toList ++
    (", ".toList.intercalate (q.tables.map (item as)) ++ " ".toList)) ("where ".toList ++ W) := by
  have has : ∀ s : Text, Clear "where ".toList " as ".toList s := fun s => .of_notMem (by decide)
  have hname : ∀ (n : Name) {c : Char} (s : Text), isNameChar c = false →
      (c = ' ' → ¬"where".toList <:+ n.text) → Clear "where ".toList n.text (c :: s) := by
    intro n c s hc hn y _ hy hp
    obtain ⟨rfl, hblank⟩ := eq_where (fun a ha => n.chars a (hy.subset ha)) hc hp
    exact hn hblank hy
  have hitems : Clear "where ".toList (", ".toList.intercalate (q.tables.map (item as)))
      (" ".toList ++ ("where ".toList ++ W)) :=
    clear_items q.tables_ne_nil (fun t ht s => hname t _ (by decide) fun _ => hq.1 t ht)
      (fun t _ s => (hname (as t) _ (by decide) fun h => absurd h (by decide)).append (has _))
      (fun t ht => (hname (as t) _ (by decide) fun _ => hq.2 t ht).append (has _))
      fun t _ s => .of_notMem (by decide)
  have hblank : Clear "where ".toList " ".toList ("where ".toList ++ W) := .of_notMem (by decide)
  exact (hblank.append hitems).append (.of_notMem (by decide))

end Keyword

end Remap

end StarCE
