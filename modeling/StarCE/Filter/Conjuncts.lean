import StarCE.Filter.Predicates

/-!
# Which filters survive

A query text with a table and an alias at each place of its `FROM` list, and a
conjunction of equalities between columns and of conditions on one column.
`ParsePredicate` gives each condition to its table, in their order and with
`__table_name` for the alias, unless what follows the column reads as `=` and a
word, a dot and a word, as a decimal number does (`parsePredicate_text`).
-/

namespace StarCE

namespace Predicates

/-! ## Query texts -/

/-- The name of a table, of a column or of an alias. -/
structure Name where
  text : Text
  word : Word text

structure Column where
  tableAlias : Name
  column : Name

/-- A condition on a column: the column, and what is written after it. -/
structure Condition where
  tableAlias : Name
  column : Name
  rest : Text
  start : ∀ c ∈ rest.head?, isWord c = false ∧ c ≠ '.'

inductive Conjunct where
  | equal (l r : Column) (blanks blanks' : ℕ)
  | condition (f : Condition)

structure FromItem where
  table : Name
  tableAlias : Name
  upper : Bool

/-- A query, with what is written before its `FROM`. -/
structure Query where
  head : Text
  tables : List FromItem
  conjuncts : List Conjunct
  plain : 'F' ∉ head ∧ 'W' ∉ head
  nodup : (tables.map fun t => t.tableAlias.text).Nodup
  ne : conjuncts ≠ []

section Text

def blanks (n : ℕ) : Text := List.replicate n ' '

def Column.text (c : Column) : Text := c.tableAlias.text ++ '.' :: c.column.text

/-- A condition with a name for its alias. -/
def Condition.named (name : Text) (f : Condition) : Text := name ++ '.' :: (f.column.text ++ f.rest)

def Condition.text (f : Condition) : Text := f.named f.tableAlias.text

def Conjunct.text : Conjunct → Text
  | equal l r m n => l.text ++ (blanks m ++ '=' :: (blanks n ++ r.text))
  | condition f => f.text

def FromItem.between (t : FromItem) : Text := (if t.upper then " AS " else " as ").toList

def FromItem.text (t : FromItem) : Text := t.table.text ++ (t.between ++ t.tableAlias.text)

variable (q : Query)

def Query.fromText : Text := ' ' :: (", ".toList.intercalate (q.tables.map FromItem.text) ++ [' '])

def Query.whereText : Text := " AND ".toList.intercalate (q.conjuncts.map Conjunct.text)

/-- `... FROM t AS a, ... WHERE ... AND ...;` -/
def Query.text : Text :=
  q.head ++ ("FROM".toList ++ (q.fromText ++ ("WHERE".toList ++ (' ' :: (q.whereText ++ [';'])))))

/-- No name holds a `WHERE`, and no condition an ` AND ` or, after a blank, an alias and a dot. -/
structure Query.Clean : Prop where
  tables : ∀ t ∈ q.tables, ¬"WHERE".toList <:+: t.table.text ∧ ¬"WHERE".toList <:+: t.tableAlias.text
  conditions : ∀ f, .condition f ∈ q.conjuncts → ¬" AND ".toList <:+: f.rest ++ [' '] ∧
    ∀ t ∈ q.tables, ¬aliasDot t.tableAlias.text <:+: f.rest

/-- What follows the column reads as `=` and a word, a dot and a word, or it has a join condition in
it. -/
def Condition.lost (f : Condition) : Bool :=
  ((skipChar '=' (f.rest.dropWhile isBlank)).bind fun s => skipColumn (s.dropWhile isBlank)).isSome ||
    isJoin f.rest

/-- The condition, if it is on `tableAlias` and is not lost. -/
def Conjunct.kept (tableAlias : Text) : Conjunct → Option Condition
  | equal .. => none
  | condition f => if f.tableAlias.text = tableAlias ∧ f.lost = false then some f else none

end Text

/-! ## The clauses -/

section Clauses

variable {q : Query}

theorem Name.notMem (n : Name) {c : Char} (hc : isWord c = false) : c ∉ n.text := fun h => by
  rw [n.word.chars c h] at hc
  cases hc

/-- A text of words starts in a word only if it lies in it. -/
theorem clear_word {pat s : Text} (n : Name) (hpat : ∀ c ∈ pat, isWord c = true) (h : ¬pat <:+: n.text)
    (hs : ∀ c ∈ s.head?, isWord c = false) : Clear pat n.text s := by
  intro y _ hy hp
  rcases List.prefix_or_prefix_of_prefix hp (List.prefix_append y s) with hp | ⟨z, rfl⟩
  · exact h (hp.isInfix.trans hy.isInfix)
  · cases z with
    | nil =>
      rw [List.append_nil] at h
      exact h hy.isInfix
    | cons c z =>
      have hz := (List.prefix_append_right_inj y).mp hp
      obtain ⟨r, rfl⟩ := hz
      have hc := hpat c (by simp)
      rw [hs c rfl] at hc
      cases hc

theorem FromItem.between_eq (t : FromItem) : ∃ a s, t.between = [' ', a, s, ' '] ∧ (a = 'a' ∨ a = 'A') ∧
    (s = 's' ∨ s = 'S') := by
  unfold FromItem.between
  cases t.upper
  · exact ⟨'a', 's', rfl, .inl rfl, .inl rfl⟩
  · exact ⟨'A', 'S', rfl, .inr rfl, .inr rfl⟩

/-- `WHERE` is found where the clause begins. -/
theorem clear_fromText (h : q.Clean) (s : Text) : Clear "WHERE".toList q.fromText s := by
  have hword : ∀ c ∈ "WHERE".toList, isWord c = true :=
    List.all_eq_true.mp (show "WHERE".toList.all isWord = true by decide)
  have hnotW : ∀ {x s : Text}, 'W' ∉ x → Clear "WHERE".toList x s := fun hx => .of_notMem hx
  have hitem : ∀ t ∈ q.tables, ∀ s, (∀ c ∈ s.head?, isWord c = false) → Clear "WHERE".toList t.text s := by
    intro t ht s hs
    obtain ⟨htable, halias⟩ := h.tables t ht
    obtain ⟨a, b, hbetween, ha, hb⟩ := t.between_eq
    refine .append (.append (clear_word _ hword halias hs) (hnotW ?_)) (clear_word _ hword htable ?_)
    · rw [hbetween]
      rcases ha with rfl | rfl <;> rcases hb with rfl | rfl <;> decide
    · rw [hbetween]
      intro c hc
      obtain rfl : ' ' = c := by simpa using hc
      rfl
  have hcomma : ∀ {s : Text}, ∀ c ∈ (", ".toList ++ s).head?, isWord c = false := by
    intro s c hc
    obtain rfl : ',' = c := by simpa using hc
    rfl
  have hblank : ∀ {s : Text}, ∀ c ∈ ([' '] ++ s).head?, isWord c = false := by
    intro s c hc
    obtain rfl : ' ' = c := by simpa using hc
    rfl
  refine .append (x := [' ']) (.append (hnotW (by decide)) (.intercalate (fun s => hnotW (by decide)) ?_ ?_))
    (hnotW (by decide))
  · intro x hx s
    obtain ⟨t, ht, rfl⟩ := List.mem_map.mp hx
    exact hitem t ht _ hcomma
  · intro x hx
    obtain ⟨t, ht, rfl⟩ := List.mem_map.mp hx
    exact hitem t ht _ hblank

theorem find_from : find "FROM".toList q.text = some q.head.length := by
  have hclear : ∀ s, Clear "FROM".toList q.head s := fun s => .of_notMem q.plain.1
  rw [find, Query.text, cutAny_singleton (by decide) (hclear _)]
  rfl

theorem find_where (h : q.Clean) :
    find "WHERE".toList q.text = some (q.head.length + 4 + q.fromText.length) := by
  have hclear : Clear "WHERE".toList (q.head ++ ("FROM".toList ++ q.fromText))
      ("WHERE".toList ++ (' ' :: (q.whereText ++ [';']))) :=
    .append (.append (clear_fromText h _) (.of_notMem (by decide))) (.of_notMem q.plain.2)
  have htext : q.text = q.head ++ ("FROM".toList ++ q.fromText) ++
      ("WHERE".toList ++ (' ' :: (q.whereText ++ [';']))) := by
    simp [Query.text]
  rw [find, htext, cutAny_singleton (by decide) hclear]
  simp
  omega

theorem fromClauseOf_text : fromClauseOf q.text q.head.length (q.head.length + 4 + q.fromText.length) =
    q.fromText := by
  have hdrop : q.text.drop (q.head.length + 4) =
      q.fromText ++ ("WHERE".toList ++ (' ' :: (q.whereText ++ [';']))) := by
    rw [Query.text, ← List.append_assoc]
    exact List.drop_left' (by simp)
  rw [fromClauseOf, if_pos (by omega), hdrop]
  exact List.take_left' (by omega)

theorem drop_where_text : q.text.drop (q.head.length + 4 + q.fromText.length + 6) = q.whereText ++ [';'] := by
  have htext : q.text = q.head ++ ("FROM".toList ++ (q.fromText ++ ("WHERE".toList ++ [' ']))) ++
      (q.whereText ++ [';']) := by
    simp [Query.text]
  rw [htext]
  exact List.drop_left' (by simp; omega)

theorem whereClauseOf_text :
    whereClauseOf q.text (q.head.length + 4 + q.fromText.length) = q.whereText := by
  rw [whereClauseOf, drop_where_text]
  simp

theorem length_where_text : q.head.length + 4 + q.fromText.length + 6 < q.text.length := by
  have := congrArg List.length (drop_where_text (q := q))
  rw [List.length_drop, List.length_append, List.length_singleton] at this
  omega

/-! ## The tables -/

theorem fromItems_item {z s : Text} (hz : ∀ c ∈ z, isWord c = false) (t : FromItem)
    (hs : ∀ c ∈ s.head?, isWord c = false) (fuel : ℕ) :
    fromItems (fuel + 1) (z ++ (t.text ++ s)) =
      (t.table.text, some t.tableAlias.text) :: fromItems fuel s := by
  obtain ⟨a, b, hbetween, ha, hb⟩ := t.between_eq
  have hskip : (z ++ (t.text ++ s)).dropWhile (fun c => !isWord c) =
      t.table.text ++ (t.between ++ (t.tableAlias.text ++ s)) := by
    obtain ⟨c, v, hv, hc⟩ := t.table.word.exists_cons
    rw [List.dropWhile_append_of_pos fun c hc => by simp [hz c hc], FromItem.text, hv]
    simp [hc]
  have hafter : ∀ c ∈ (t.between ++ (t.tableAlias.text ++ s)).head?, isWord c = false := by
    rw [hbetween]
    intro c hc
    obtain rfl : ' ' = c := by simpa using hc
    rfl
  have htable := takeWhile_word t.table.word hafter
  have halias := takeWhile_word t.tableAlias.word hs
  have hread : readAlias (t.between ++ (t.tableAlias.text ++ s)) = some (t.tableAlias.text, s) := by
    have hblank : (t.tableAlias.text ++ s).dropWhile isBlank = t.tableAlias.text ++ s := by
      simpa using dropWhile_blanks (m := []) (by simp) (t.tableAlias.word.not_blank (s := s))
    rw [hbetween]
    unfold readAlias
    simp only [List.cons_append, List.nil_append, hblank, halias.1, halias.2]
    rcases ha with rfl | rfl <;> rcases hb with rfl | rfl <;> simp [isBlank, t.tableAlias.word.ne]
  have hne : (t.table.text ++ (t.between ++ (t.tableAlias.text ++ s))).isEmpty = false := by
    simp [t.table.word.ne]
  rw [fromItems, hskip]
  simp only [hne, htable.1, htable.2, hread, Bool.false_eq_true, if_false]

theorem fromItems_blank {z : Text} (hz : ∀ c ∈ z, isWord c = false) (fuel : ℕ) : fromItems fuel z = [] := by
  have hskip : z.dropWhile (fun c => !isWord c) = [] :=
    List.dropWhile_eq_nil_iff.mpr fun c hc => by simp [hz c hc]
  cases fuel with
  | zero => rfl
  | succ fuel =>
    rw [fromItems, hskip]
    rfl

/-- The items of a list after text without words. -/
theorem fromItems_list {z : Text} (hz : ∀ c ∈ z, isWord c = false) {tables : List FromItem} {fuel : ℕ}
    (hfuel : tables.length < fuel) :
    fromItems fuel (z ++ (", ".toList.intercalate (tables.map FromItem.text) ++ [' '])) =
      tables.map fun t => (t.table.text, some t.tableAlias.text) := by
  induction tables generalizing z fuel with
  | nil =>
    refine fromItems_blank (fun c hc => ?_) fuel
    rcases List.mem_append.mp hc with hc | hc
    · exact hz c hc
    · obtain rfl : c = ' ' := by simpa using hc
      rfl
  | cons t l ih =>
    obtain ⟨fuel, rfl⟩ := Nat.exists_eq_add_of_lt (Nat.zero_lt_of_lt hfuel)
    rw [Nat.zero_add]
    have hlen : l.length < fuel := by
      rw [List.length_cons] at hfuel
      omega
    cases l with
    | nil =>
      have hone : ", ".toList.intercalate (List.map FromItem.text [t]) ++ [' '] = t.text ++ [' '] := by
        simp [List.intercalate]
      rw [hone, fromItems_item hz t (by simp [isWord]), fromItems_blank (by simp [isWord])]
      rfl
    | cons u l =>
      have htwo : ", ".toList.intercalate ((t :: u :: l).map FromItem.text) ++ [' '] =
          t.text ++ (", ".toList ++ (", ".toList.intercalate ((u :: l).map FromItem.text) ++ [' '])) := by
        rw [List.map_cons, List.map_cons, List.intercalate_cons_cons]
        simp
      rw [htwo, fromItems_item hz t (by simp [isWord]), ih (by simp [isWord]) hlen]
      rfl

theorem length_le_intercalate (tables : List FromItem) :
    tables.length ≤ (", ".toList.intercalate (tables.map FromItem.text)).length := by
  induction tables with
  | nil => simp
  | cons t l ih =>
    have hpos : 0 < t.text.length := by
      have := List.length_pos_iff.mpr t.table.word.ne
      rw [FromItem.text, List.length_append]
      omega
    cases l with
    | nil =>
      have hone : ", ".toList.intercalate (List.map FromItem.text [t]) = t.text := by simp [List.intercalate]
      rw [hone, List.length_singleton]
      omega
    | cons u l =>
      rw [List.map_cons, List.map_cons, List.intercalate_cons_cons, ← List.map_cons, List.length_append,
        List.length_append, List.length_cons]
      omega

theorem mapM_aliasOf : (fromItems q.fromText.length q.fromText).mapM aliasOf =
    .ok (q.tables.map fun t => t.tableAlias.text) := by
  have hlen := length_le_intercalate q.tables
  have hitems : fromItems q.fromText.length q.fromText =
      q.tables.map fun t => (t.table.text, some t.tableAlias.text) := by
    refine fromItems_list (z := [' ']) (by simp [isWord]) ?_
    rw [Query.fromText, List.length_cons, List.length_append]
    omega
  rw [hitems, List.mapM_map]
  exact mapM_eq_map fun _ _ => rfl

/-! ## The conjuncts -/

theorem Column.notMem (c : Column) {a : Char} (ha : isWord a = false) (hdot : a ≠ '.') : a ∉ c.text := by
  intro h
  rcases List.mem_append.mp h with h | h
  · exact c.tableAlias.notMem ha h
  · rcases List.mem_cons.mp h with h | h
    · exact hdot h
    · exact c.column.notMem ha h

theorem and_eq : " AND ".toList = ' ' :: 'A' :: ['N', 'D', ' '] := rfl

/-- No separator begins after a blank in front of a column. -/
theorem not_and_column (c : Column) (s : Text) : ¬ 'A' :: ['N', 'D', ' '] <+: c.text ++ s := by
  intro h
  have htake : (c.text ++ s).takeWhile isWord = c.tableAlias.text := by
    rw [Column.text, List.append_assoc]
    exact (takeWhile_word c.tableAlias.word (by simp [isWord])).1
  obtain ⟨r, hr⟩ := h
  have hword : c.tableAlias.text = ['A', 'N', 'D'] := by
    rw [← htake, ← hr]
    rfl
  rw [Column.text, hword] at hr
  simp at hr

theorem clear_rest {rest : Text} (h : ¬" AND ".toList <:+: rest ++ [' ']) {s : Text}
    (hs : s = [] ∨ ∃ s', s = " AND ".toList ++ s') : Clear " AND ".toList rest s := by
  intro y hne hy hp
  have hin : ∀ {z}, z <:+ rest ++ [' '] → ¬" AND ".toList <+: z := fun hz hp => h (hp.isInfix.trans hz.isInfix)
  have hy' : y ++ [' '] <:+ rest ++ [' '] := by
    obtain ⟨x, rfl⟩ := hy
    exact ⟨x, by simp⟩
  rcases hs with rfl | ⟨s, rfl⟩
  · rw [List.append_nil] at hp
    exact hin hy' (hp.trans (List.prefix_append _ _))
  · rw [and_eq] at hp hin
    match y, hne, hp, hy' with
    | [a], _, hp, _ => simp [List.cons_prefix_cons] at hp
    | [a, b], _, hp, _ => simp [List.cons_prefix_cons] at hp
    | [a, b, c], _, hp, _ => simp [List.cons_prefix_cons] at hp
    | [a, b, c, d], _, hp, hy' =>
      simp only [List.cons_append, List.nil_append, List.cons_prefix_cons] at hp
      obtain ⟨rfl, rfl, rfl, rfl, -⟩ := hp
      exact hin hy' (List.prefix_append _ _)
    | a :: b :: c :: d :: e :: y, _, hp, hy' =>
      simp only [List.cons_append, List.cons_prefix_cons] at hp
      obtain ⟨rfl, rfl, rfl, rfl, rfl, -⟩ := hp
      exact hin hy' ⟨y ++ [' '], rfl⟩

/-- No conjunct has the separator in it or begins one. -/
theorem clear_conjunct (h : q.Clean) {c : Conjunct} (hc : c ∈ q.conjuncts) {s : Text}
    (hs : s = [] ∨ ∃ s', s = " AND ".toList ++ s') : Clear " AND ".toList c.text s := by
  cases c with
  | equal l r m n =>
    have hcol : ∀ (c : Column) (s : Text), Clear " AND ".toList c.text s := fun c s =>
      .of_notMem (c.notMem rfl (by decide))
    have hsign : ¬ 'A' :: ['N', 'D', ' '] <+: '=' :: (blanks n ++ r.text) ++ s := fun h =>
      absurd (List.cons_prefix_cons.mp h).1 (by decide)
    refine .append (.append (.append (x := ['=']) (.append (hcol r s) ?_) (.of_notMem (by decide))) ?_) (hcol l _)
    · exact .of_forall_eq (fun _ h => (List.mem_replicate.mp h).2) (by decide) (not_and_column r s)
    · exact .of_forall_eq (fun _ h => (List.mem_replicate.mp h).2) (by decide) hsign
  | condition f =>
    have hname : ' ' ∉ f.tableAlias.text ++ '.' :: f.column.text :=
      Column.notMem ⟨f.tableAlias, f.column⟩ rfl (by decide)
    have hclear : Clear " AND ".toList ((f.tableAlias.text ++ '.' :: f.column.text) ++ f.rest) s :=
      (clear_rest (h.conditions f hc).1 hs).append (.of_notMem hname)
    simpa [Conjunct.text, Condition.text, Condition.named] using hclear

theorem split_whereText (h : q.Clean) : split " AND ".toList q.whereText = q.conjuncts.map Conjunct.text := by
  refine split_intercalate (by decide) (by simpa using q.ne) fun x hx => ?_
  obtain ⟨c, hc, rfl⟩ := List.mem_map.mp hx
  exact ⟨fun s => clear_conjunct h hc (.inr ⟨s, rfl⟩), clear_conjunct h hc (.inl rfl)⟩

/-! ## Join conditions -/

theorem isJoin_cons (c : Char) (s : Text) : isJoin (c :: s) = ((skipJoin (c :: s)).isSome || isJoin s) := by
  rw [isJoin, List.tails_cons, List.any_cons]
  rfl

/-- A join condition that starts in a word starts with all of it. -/
theorem isJoin_word {w r : Text} (hw : Word w) (hr : ∀ c ∈ r.head?, isWord c = false) :
    isJoin (w ++ r) = ((skipJoin (w ++ r)).isSome || isJoin r) := by
  obtain ⟨hne, hchars⟩ := hw
  induction w with
  | nil => exact absurd rfl hne
  | cons c w ih =>
    rw [List.cons_append, isJoin_cons]
    cases w with
    | nil => rfl
    | cons d w =>
      have hw : Word (d :: w) := ⟨by simp, fun x hx => hchars x (.tail _ hx)⟩
      have hcw : Word (c :: d :: w) := ⟨by simp, hchars⟩
      have hskip : skipJoin (c :: (d :: w ++ r)) = skipJoin (d :: w ++ r) := by
        rw [skipJoin, skipColumn, ← List.cons_append, skipWord_append hcw hr, skipJoin, skipColumn,
          skipWord_append hw hr]
      rw [ih hw.ne hw.chars, hskip, ← Bool.or_assoc, Bool.or_self]

theorem isJoin_equal (l r : Column) (m n : ℕ) : isJoin (Conjunct.equal l r m n).text = true := by
  have hblank : ∀ k, ∀ x ∈ blanks k, isBlank x = true := fun k x hx => by
    rw [(List.mem_replicate.mp hx).2]
    rfl
  refine isJoin_iff.mpr ⟨[], _, [], ⟨_, _, _, _, _, _, l.tableAlias.word, l.column.word, hblank m, hblank n,
    r.tableAlias.word, r.column.word, rfl⟩, ?_⟩
  simp [Conjunct.text, Column.text]

theorem isJoin_condition (f : Condition) : isJoin f.text = f.lost := by
  have hstart : ∀ c ∈ f.rest.head?, isWord c = false := fun c hc => (f.start c hc).1
  have hdot : ∀ c ∈ ('.' :: (f.column.text ++ f.rest)).head?, isWord c = false := by
    intro c hc
    obtain rfl : '.' = c := by simpa using hc
    rfl
  have hcolumn : skipJoin (f.column.text ++ f.rest) = none := by
    have hnone : skipChar '.' f.rest = none := by
      cases hrest : f.rest with
      | nil => rfl
      | cons c s =>
        have := (f.start c (by rw [hrest]; rfl)).2
        simp [skipChar, this]
    rw [skipJoin, skipColumn, skipWord_append f.column.word hstart, Option.bind_some, hnone]
    rfl
  have hperiod : skipJoin ('.' :: (f.column.text ++ f.rest)) = none := rfl
  have hwhole : skipJoin (f.tableAlias.text ++ '.' :: (f.column.text ++ f.rest)) =
      (skipChar '=' (f.rest.dropWhile isBlank)).bind fun s => skipColumn (s.dropWhile isBlank) := by
    rw [skipJoin, skipColumn_append f.tableAlias.word f.column.word hstart, Option.bind_some]
  rw [Condition.text, Condition.named, isJoin_word f.tableAlias.word hdot, isJoin_cons, hperiod,
    isJoin_word f.column.word hstart, hcolumn, hwhole]
  rfl

/-! ## Aliases -/

theorem replaceAlias_drop (pat x s : Text) : replaceAlias pat x.length (x ++ s) = replaceAlias pat 0 s := by
  induction x with
  | nil => rfl
  | cons c x ih =>
    show replaceAlias pat (x.length + 1) (c :: (x ++ s)) = _
    rw [replaceAlias, ih]

theorem replaceAlias_eq_self {pat s : Text} (h : Clear pat s []) : replaceAlias pat 0 s = s := by
  induction s with
  | nil => rfl
  | cons c s ih =>
    have hnot : ¬pat <+: c :: s := by simpa using h (c :: s) (by simp) List.suffix_rfl
    rw [replaceAlias, if_neg fun hp => hnot hp.1, ih h.of_cons]

/-- Only the alias stands in front of the period. -/
theorem Name.eq_of_prefix {n n' : Name} {s : Text} (h : n.text ++ ['.'] <+: n'.text ++ '.' :: s) :
    n.text = n'.text := by
  have hdot : ∀ {s : Text}, ∀ c ∈ ('.' :: s).head?, isWord c = false := by
    intro s c hc
    obtain rfl : '.' = c := by simpa using hc
    rfl
  obtain ⟨r, hr⟩ := h
  rw [List.append_assoc] at hr
  rw [← (takeWhile_word n.word (r := ['.'] ++ r) hdot).1, hr, (takeWhile_word n'.word hdot).1]

theorem Condition.text_eq (f : Condition) :
    f.text = (f.tableAlias.text ++ '.' :: f.column.text) ++ f.rest := by
  simp [Condition.text, Condition.named]

/-- A condition names its own alias, and no other that is not in what follows its column. -/
theorem mentions_condition {f : Condition} {n : Name} (h : ¬aliasDot n.text <:+: f.rest) :
    mentions n.text f.text = decide (f.tableAlias.text = n.text) := by
  by_cases heq : f.tableAlias.text = n.text
  · have hfirst : aliasDot n.text <:+: ' ' :: f.text := by
      refine (List.cons_prefix_cons.mpr ⟨rfl, ?_⟩).isInfix
      rw [f.text_eq, heq]
      exact ⟨f.column.text ++ f.rest, by simp⟩
    rw [decide_eq_true heq, mentions, find, Option.isSome_map]
    exact (isSome_cutAny_iff (by simp [aliasDot])).mpr hfirst
  · have hclear : Clear (aliasDot n.text) (' ' :: (f.tableAlias.text ++ '.' :: f.column.text)) f.rest := by
      intro y hne hy hp
      rcases List.suffix_cons_iff.mp hy with rfl | hy
      · refine heq (Name.eq_of_prefix (s := f.column.text ++ f.rest) ?_).symm
        simpa using (List.cons_prefix_cons.mp hp).2
      · have hname := Column.notMem ⟨f.tableAlias, f.column⟩ (a := ' ') rfl (by decide)
        have hfront : Clear (aliasDot n.text) (f.tableAlias.text ++ '.' :: f.column.text) f.rest :=
          .of_notMem hname
        exact hfront y hne hy hp
    have hpats : ∀ pat ∈ [aliasDot n.text], Clear pat (' ' :: (f.tableAlias.text ++ '.' :: f.column.text)) f.rest := by
      simpa using hclear
    have hrest : (cutAny [aliasDot n.text] f.rest).isSome = false := by
      rw [← Bool.not_eq_true, isSome_cutAny_iff (by simp [aliasDot])]
      exact h
    rw [decide_eq_false heq, mentions, find, Option.isSome_map, f.text_eq, ← List.cons_append,
      cutAny_append hpats, Option.isSome_map, hrest]

/-- The alias of a condition is replaced, and nothing else. -/
theorem rewrite_condition {f : Condition} (h : ¬aliasDot f.tableAlias.text <:+: f.rest) :
    rewrite f.tableAlias.text f.text = f.named "__table_name".toList := by
  set pat := aliasDot f.tableAlias.text with hpat
  have hsplit : ' ' :: f.text = pat ++ (f.column.text ++ f.rest) := by
    rw [f.text_eq, hpat, aliasDot]
    simp
  have hnext : ((' ' :: f.text).drop pat.length).head?.any isWord = true := by
    obtain ⟨c, v, hv, hc⟩ := f.column.word.exists_cons
    rw [hsplit, List.drop_left, hv]
    simpa using hc
  have hlater : replaceAlias pat 0 (f.column.text ++ f.rest) = f.column.text ++ f.rest :=
    replaceAlias_eq_self ((clear_nil h).append (.of_notMem (f.column.notMem rfl)))
  have hlen : pat.length - 1 = (f.tableAlias.text ++ ['.']).length := by simp [hpat, aliasDot]
  have htext : f.text = (f.tableAlias.text ++ ['.']) ++ (f.column.text ++ f.rest) := by simp [f.text_eq]
  rw [rewrite, ← hpat, replaceAlias, if_pos ⟨hsplit ▸ List.prefix_append _ _, hnext⟩, hlen, htext,
    replaceAlias_drop, hlater]
  rfl

/-! ## The filters -/

/-- The conditions of a table, in their order and with `__table_name` for its alias. -/
def Query.filterOf (q : Query) (tableAlias : Text) : Text :=
  " AND ".toList.intercalate
    ((q.conjuncts.filterMap (Conjunct.kept tableAlias)).map (Condition.named "__table_name".toList))

theorem predicatesOf_whereText (h : q.Clean) :
    predicatesOf q.whereText = (q.conjuncts.map Conjunct.text).filter fun p => !isJoin p := by
  have hne : ∀ c : Conjunct, c.text ≠ [] := fun c => by
    cases c with
    | equal l r m n => simp [Conjunct.text, Column.text]
    | condition f => simp [Conjunct.text, Condition.text, Condition.named]
  rw [predicatesOf, split_whereText h]
  obtain ⟨l, c, hl⟩ : ∃ l c, q.conjuncts = l ++ [c] := ⟨_, _, (List.dropLast_append_getLast q.ne).symm⟩
  rw [hl, List.map_append, List.map_singleton, List.dropLast_concat, List.getLast?_concat, List.filter_append]
  have hempty : c.text.isEmpty = false := by simpa using hne c
  simp [List.filter_cons, hempty]

theorem filterText_eq (h : q.Clean) {t : FromItem} (ht : t ∈ q.tables) :
    filterText t.tableAlias.text (predicatesOf q.whereText) = q.filterOf t.tableAlias.text := by
  rw [filterText, predicatesOf_whereText h, Query.filterOf]
  have hall : ∀ f, .condition f ∈ q.conjuncts → ¬aliasDot t.tableAlias.text <:+: f.rest :=
    fun f hf => (h.conditions f hf).2 t ht
  -- conjunct by conjunct
  congr 1
  generalize q.conjuncts = l at hall
  induction l with
  | nil => rfl
  | cons c l ih =>
    have ih := ih fun f hf => hall f (.tail _ hf)
    cases c with
    | equal a b m n =>
      rw [List.map_cons, List.filter_cons_of_neg (by simp [isJoin_equal]), ih]
      rfl
    | condition f =>
      have hf := hall f (.head _)
      rw [List.map_cons, List.filter_cons, Conjunct.text, isJoin_condition, List.filterMap_cons, Conjunct.kept]
      by_cases hlost : f.lost = true
      · rw [hlost, if_neg (by simp), if_neg (by simp), ih]
      · rw [Bool.not_eq_true] at hlost
        rw [hlost, if_pos (by simp), List.filter_cons, mentions_condition hf]
        by_cases heq : f.tableAlias.text = t.tableAlias.text
        · rw [if_pos (by simpa using heq), if_pos ⟨heq, rfl⟩, List.map_cons, List.map_cons, ih, ← heq,
            rewrite_condition (heq ▸ hf)]
        · rw [if_neg (by simpa using heq), if_neg fun h => heq h.1, ih]

/-- No predicate is of two tables. -/
theorem countP_mentions (h : q.Clean) {p : Text} (hp : p ∈ predicatesOf q.whereText) :
    (q.tables.map fun t => t.tableAlias.text).countP (mentions · p) ≤ 1 := by
  rw [predicatesOf_whereText h, List.mem_filter] at hp
  obtain ⟨hmem, hjoin⟩ := hp
  obtain ⟨c, hc, rfl⟩ := List.mem_map.mp hmem
  cases c with
  | equal l r m n => simp [isJoin_equal] at hjoin
  | condition f =>
    have hcount : (q.tables.map fun t => t.tableAlias.text).countP (mentions · f.text) =
        (q.tables.map fun t => t.tableAlias.text).count f.tableAlias.text := by
      refine List.countP_congr fun a ha => ?_
      obtain ⟨t, ht, rfl⟩ := List.mem_map.mp ha
      rw [mentions_condition ((h.conditions f hc).2 t ht)]
      rw [decide_eq_true_iff, beq_iff_eq]
      exact eq_comm
    rw [Conjunct.text, hcount]
    exact List.nodup_iff_count_le_one.mp q.nodup _

end Clauses

section Example

def nameOf (s : String) (h : s.toList ≠ [] ∧ s.toList.all isWord = true) : Name :=
  ⟨s.toList, h.1, List.all_eq_true.mp h.2⟩

def aliasA : Name := nameOf "a" (by decide)
def aliasB : Name := nameOf "b" (by decide)
def columnX : Name := nameOf "x" (by decide)

def conditionOf (tableAlias : Name) (rest : String)
    (h : (rest.toList.head?.all fun c => !isWord c && c != '.') = true) : Condition where
  tableAlias := tableAlias
  column := columnX
  rest := rest.toList
  start c hc := by
    rw [Option.mem_def] at hc
    simpa [hc] using h

def aboveFive : Condition := conditionOf aliasA " > 5" (by decide)
def isDecimal : Condition := conditionOf aliasB " = 1.5" (by decide)
def belowNine : Condition := conditionOf aliasA " < 9" (by decide)

/-- `FROM t AS a, u as b WHERE a.x = b.x AND a.x > 5 AND b.x = 1.5 AND a.x < 9;` -/
def decimalQuery : Query where
  head := "SELECT COUNT(*) ".toList
  tables := [⟨nameOf "t" (by decide), aliasA, true⟩, ⟨nameOf "u" (by decide), aliasB, false⟩]
  conjuncts := [.equal ⟨aliasA, columnX⟩ ⟨aliasB, columnX⟩ 1 1, .condition aboveFive, .condition isDecimal,
    .condition belowNine]
  plain := by decide
  nodup := by decide
  ne := by simp

theorem clean_decimalQuery : decimalQuery.Clean where
  tables := by
    have key : ∀ n ∈ ["t", "a", "u", "b"], ¬"WHERE".toList <:+: n.toList := by decide
    exact List.forall_mem_cons.mpr ⟨⟨key "t" (by decide), key "a" (by decide)⟩,
      List.forall_mem_singleton.mpr ⟨key "u" (by decide), key "b" (by decide)⟩⟩
  conditions f hf := by
    have key : ∀ g ∈ [aboveFive, isDecimal, belowNine], ¬" AND ".toList <:+: g.rest ++ [' '] ∧
        ∀ t ∈ decimalQuery.tables, ¬aliasDot t.tableAlias.text <:+: g.rest := by decide +kernel
    rcases List.mem_cons.mp hf with h | hf
    · cases h
    · refine key f ?_
      rcases List.mem_cons.mp hf with h | hf
      · exact Conjunct.condition.inj h ▸ .head _
      · rcases List.mem_cons.mp hf with h | hf
        · exact Conjunct.condition.inj h ▸ .tail _ (.head _)
        · exact Conjunct.condition.inj (List.mem_singleton.mp hf) ▸ .tail _ (.tail _ (.head _))

end Example

end Predicates

end StarCE
