import StarCE.Data.Loop
import StarCE.Data.Text
import StarCE.Schema.EqualSet

/-!
# The filters of a query text

`ParsePredicate` cuts a query at `FROM`, `WHERE` and ` AND `, leaves out what
looks like a join condition and gives each predicate that is left to the table
whose alias it names. Texts are lists of characters. The regular expressions
are scans that never go back: a word in them is always followed by something
that is not in a word (`isJoin_iff` for the one that is searched for). What the
two loops over tables and predicates leave is `fillFilters_eq_ok`: it takes a
predicate that no two tables claim.
-/

namespace StarCE

namespace Predicates

abbrev Text := List Char

/-- `\w` -/
def isWord (c : Char) : Bool := c.isAlphanum || c = '_'

/-- `\s` -/
def isBlank (c : Char) : Bool := c.toNat ∈ [9, 10, 11, 12, 13, 32]

/-! ## Regular expressions -/

/-- What follows a `\w+`. -/
def skipWord (s : Text) : Option Text :=
  if (s.takeWhile isWord).isEmpty then none else some (s.dropWhile isWord)

def skipChar (c : Char) : Text → Option Text
  | [] => none
  | d :: s => if d = c then some s else none

/-- What follows a `(\w+)\.(\w+)`. -/
def skipColumn (s : Text) : Option Text := (skipWord s).bind (skipChar '.') |>.bind skipWord

/-- What follows a `(\w+)\.(\w+)\s*=\s*(\w+)\.(\w+)`. -/
def skipJoin (s : Text) : Option Text :=
  (skipColumn s).bind fun s => (skipChar '=' (s.dropWhile isBlank)).bind fun s =>
    skipColumn (s.dropWhile isBlank)

/-- `std::regex_search(s, match, join_regex)` -/
def isJoin (s : Text) : Bool := s.tails.any fun t => (skipJoin t).isSome

/-- A `\s[aA][sS]\s+(\w+)`: its word, and what follows. -/
def readAlias : Text → Option (Text × Text)
  | b :: a :: s :: c :: rest =>
    if isBlank b && (a = 'a' || a = 'A') && (s = 's' || s = 'S') && isBlank c then
      let word := rest.dropWhile isBlank
      if (word.takeWhile isWord).isEmpty then none
      else some (word.takeWhile isWord, word.dropWhile isWord)
    else none
  | _ => none

/-- The matches of `table_regex`. A match takes a character at least, so that the length of the text
is fuel enough. -/
def fromItems : ℕ → Text → List (Text × Option Text)
  | 0, _ => []
  | fuel + 1, s =>
    let s := s.dropWhile fun c => !isWord c
    if s.isEmpty then []
    else
      let name := s.takeWhile isWord
      let after := s.dropWhile isWord
      match readAlias after with
      | some (tableAlias, rest) => (name, some tableAlias) :: fromItems fuel rest
      | none => (name, none) :: fromItems fuel after

/-- `std::regex_replace(s, alias_regex, " __table_name.$1")`, the pattern without its word; the
first `k` characters are the rest of a match. -/
def replaceAlias (pat : Text) : ℕ → Text → Text
  | _, [] => []
  | k + 1, _ :: s => replaceAlias pat k s
  | 0, c :: s =>
    if pat <+: c :: s ∧ ((c :: s).drop pat.length).head?.any isWord then
      " __table_name.".toList ++ replaceAlias pat (pat.length - 1) s
    else c :: replaceAlias pat 0 s

/-! ## `ParsePredicate` -/

/-- `s.find(pat)` -/
def find (pat s : Text) : Option ℕ := (cutAny [pat] s).map fun p => p.1.length

/-- The text between `FROM` and `WHERE`. In front of `FROM` the difference of the positions wraps
around, and the text goes on to its end. -/
def fromClauseOf (sql : Text) (fromPos wherePos : ℕ) : Text :=
  if fromPos + 4 ≤ wherePos then (sql.drop (fromPos + 4)).take (wherePos - fromPos - 4)
  else sql.drop (fromPos + 4)

/-- The predicates of a clause. -/
def predicatesOf (whereClause : Text) : List Text :=
  let pieces := split " AND ".toList whereClause
  pieces.dropLast.filter (fun p => !isJoin p) ++
    (pieces.getLast?.toList.filter fun p => !p.isEmpty && !isJoin p)

/-- What `alias_regex` matches before its word. -/
def aliasDot (tableAlias : Text) : Text := ' ' :: (tableAlias ++ ['.'])

/-- Where the inner loop is. -/
structure Scan where
  visited : List Bool
  first : Bool
  conjPred : Text
  deriving DecidableEq

def scanStep (predicates : List Text) (tableAlias : Text) (s : Scan) (j : ℕ) : Except Error Scan :=
  let predicate := ' ' :: predicates.getD j []
  if (find (aliasDot tableAlias) predicate).isSome then
    if s.visited.getD j false then
      .error (.runtimeError ("Duplicate table for predicate: " ++ String.ofList predicate))
    else
      .ok {
        visited := s.visited.set j true
        first := false
        conjPred := (if s.first then s.conjPred else s.conjPred ++ " AND ".toList) ++
          (replaceAlias (aliasDot tableAlias) 0 predicate).tail }
  else .ok s

/-- The loop over the tables, with what it leaves in `filterString` when it throws. -/
def fillFilters (predicates : List Text) : List (ℕ × Text) → List Bool → OrdMap ℕ String →
    OrdMap ℕ String × Except Error Unit
  | [], _, filters => (filters, .ok ())
  | (i, tableAlias) :: rest, visited, filters =>
    match (List.range predicates.length).foldlM (scanStep predicates tableAlias) ⟨visited, true, []⟩ with
    | .error e => (filters, .error e)
    | .ok s => fillFilters predicates rest s.visited (filters.insert i (String.ofList s.conjPred))

def aliasOf : Text × Option Text → Except Error Text
  | (_, some tableAlias) => .ok tableAlias
  | (table, none) =>
    .error (.runtimeError ("Table alias is required in FROM clause: " ++ String.ofList table))

/-- `ParsePredicate`: what `filterString` is afterwards, whatever it was before, and what is thrown.
It is not defined where an empty clause has no last character. -/
def parsePredicate (sql : Text) : Option (OrdMap ℕ String × Except Error Unit) :=
  match find "WHERE".toList sql with
  | none => some (∅, .ok ())
  | some wherePos =>
    match find "FROM".toList sql with
    | none => some (∅, .error (.runtimeError "Invalid SQL: no FROM clause found"))
    | some fromPos =>
      if sql.length < wherePos + 6 then some (∅, .error .outOfRange)
      else
        let whereClause := sql.drop (wherePos + 6)
        match whereClause.getLast? with
        | none => none
        | some last =>
          let fromClause := fromClauseOf sql fromPos wherePos
          let predicates := predicatesOf (if last = ';' then whereClause.dropLast else whereClause)
          match (fromItems fromClause.length fromClause).mapM aliasOf with
          | .error e => some (∅, .error e)
          | .ok aliases => some (fillFilters predicates
              ((List.range aliases.length).map fun i => (i, aliases.getD i []))
              (List.replicate predicates.length false) ∅)

/-! ## What the regular expressions stand for -/

/-- What a `\w+` stands for. -/
structure Word (w : Text) : Prop where
  ne : w ≠ []
  chars : ∀ c ∈ w, isWord c = true

/-- What `join_regex` stands for. -/
def JoinText (t : Text) : Prop :=
  ∃ a b m n c d, Word a ∧ Word b ∧ (∀ x ∈ m, isBlank x = true) ∧ (∀ x ∈ n, isBlank x = true) ∧
    Word c ∧ Word d ∧ t = a ++ '.' :: (b ++ (m ++ '=' :: (n ++ (c ++ '.' :: d))))

section Regex

variable {w s r m : Text}

theorem takeWhile_word (hw : Word w) (hr : ∀ c ∈ r.head?, isWord c = false) :
    (w ++ r).takeWhile isWord = w ∧ (w ++ r).dropWhile isWord = r := by
  rw [List.takeWhile_append_of_pos hw.chars, List.dropWhile_append_of_pos hw.chars]
  cases r with
  | nil => simp
  | cons c r => simp [hr c rfl]

theorem skipWord_append (hw : Word w) (hr : ∀ c ∈ r.head?, isWord c = false) :
    skipWord (w ++ r) = some r := by
  obtain ⟨htake, hdrop⟩ := takeWhile_word hw hr
  have hne : w.isEmpty = false := by simpa using hw.ne
  rw [skipWord, htake, hdrop, hne]
  rfl

theorem isSome_skipWord (hw : Word w) : (skipWord (w ++ s)).isSome := by
  have hne : ((w ++ s).takeWhile isWord).isEmpty = false := by
    rw [List.takeWhile_append_of_pos hw.chars]
    simp [hw.ne]
  rw [skipWord, hne]
  rfl

theorem exists_of_skipWord (h : skipWord s = some r) : ∃ w, Word w ∧ s = w ++ r := by
  unfold skipWord at h
  split at h
  · cases h
  · next hne =>
    obtain rfl := Option.some.inj h
    refine ⟨s.takeWhile isWord, ⟨by simpa using hne, fun c hc => List.mem_takeWhile_imp hc⟩, ?_⟩
    exact (List.takeWhile_append_dropWhile).symm

theorem skipChar_eq_some {c : Char} : skipChar c s = some r ↔ s = c :: r := by
  cases s with
  | nil => simp [skipChar]
  | cons d s =>
    rw [skipChar]
    by_cases h : d = c <;> simp [h]

theorem dropWhile_blanks (hm : ∀ x ∈ m, isBlank x = true) (hr : ∀ c ∈ r.head?, isBlank c = false) :
    (m ++ r).dropWhile isBlank = r := by
  rw [List.dropWhile_append_of_pos hm]
  cases r with
  | nil => rfl
  | cons c r => simp [hr c rfl]

theorem isBlank_of_isWord {c : Char} (h : isWord c = true) : isBlank c = false := by
  by_contra hb
  rw [Bool.not_eq_false, isBlank, decide_eq_true_iff] at hb
  have hmem := hb
  simp only [List.mem_cons, List.not_mem_nil, or_false] at hmem
  rcases hmem with hc | hc | hc | hc | hc | hc <;>
    · rw [← Char.ofNat_toNat c, hc] at h
      cases h

theorem isWord_of_isBlank {c : Char} (h : isBlank c = true) : isWord c = false := by
  by_contra hw
  rw [isBlank_of_isWord (by simpa using hw)] at h
  cases h

theorem Word.exists_cons (hw : Word w) : ∃ c v, w = c :: v ∧ isWord c = true := by
  obtain ⟨c, v, rfl⟩ := List.exists_cons_of_ne_nil hw.ne
  exact ⟨c, v, rfl, hw.chars c (.head _)⟩

theorem Word.not_blank (hw : Word w) : ∀ c ∈ (w ++ s).head?, isBlank c = false := by
  obtain ⟨c, v, rfl, hc⟩ := hw.exists_cons
  intro d hd
  obtain rfl : c = d := by simpa using hd
  exact isBlank_of_isWord hc

/-- A `\w+` in front of what is not in a word reads all of the word. -/
theorem skipColumn_append {a b : Text} (ha : Word a) (hb : Word b)
    (hr : ∀ c ∈ r.head?, isWord c = false) : skipColumn (a ++ '.' :: (b ++ r)) = some r := by
  have hdot : ∀ c ∈ ('.' :: (b ++ r)).head?, isWord c = false := by
    intro c hc
    obtain rfl : '.' = c := by simpa using hc
    rfl
  rw [skipColumn, skipWord_append ha hdot, Option.bind_some, skipChar, if_pos rfl, Option.bind_some,
    skipWord_append hb hr]

theorem isSome_skipColumn {a b : Text} (ha : Word a) (hb : Word b) :
    (skipColumn (a ++ '.' :: (b ++ s))).isSome := by
  have hdot : ∀ c ∈ ('.' :: (b ++ s)).head?, isWord c = false := by
    intro c hc
    obtain rfl : '.' = c := by simpa using hc
    rfl
  rw [skipColumn, skipWord_append ha hdot, Option.bind_some, skipChar, if_pos rfl, Option.bind_some]
  exact isSome_skipWord hb

theorem exists_of_skipColumn (h : skipColumn s = some r) :
    ∃ a b, Word a ∧ Word b ∧ s = a ++ '.' :: (b ++ r) := by
  unfold skipColumn at h
  obtain ⟨s2, h2, h3⟩ := Option.bind_eq_some_iff.mp h
  obtain ⟨s1, h1, hdot⟩ := Option.bind_eq_some_iff.mp h2
  obtain ⟨a, ha, rfl⟩ := exists_of_skipWord h1
  obtain rfl := skipChar_eq_some.mp hdot
  obtain ⟨b, hb, rfl⟩ := exists_of_skipWord h3
  exact ⟨a, b, ha, hb, rfl⟩

theorem isSome_skipJoin_iff : (skipJoin s).isSome ↔ ∃ t y, JoinText t ∧ s = t ++ y := by
  constructor
  · intro h
    obtain ⟨y, hy⟩ := Option.isSome_iff_exists.mp h
    unfold skipJoin at hy
    obtain ⟨s1, h1, hrest⟩ := Option.bind_eq_some_iff.mp hy
    obtain ⟨s2, h2, hlast⟩ := Option.bind_eq_some_iff.mp hrest
    obtain ⟨a, b, ha, hb, rfl⟩ := exists_of_skipColumn h1
    have h2 := skipChar_eq_some.mp h2
    obtain ⟨c, d, hc, hd, h3⟩ := exists_of_skipColumn hlast
    have hm : s1 = s1.takeWhile isBlank ++ '=' :: (s2.takeWhile isBlank ++ (c ++ '.' :: (d ++ y))) := by
      rw [← h3, List.takeWhile_append_dropWhile, ← h2, List.takeWhile_append_dropWhile]
    refine ⟨a ++ '.' :: (b ++ (s1.takeWhile isBlank ++ '=' :: (s2.takeWhile isBlank ++ (c ++ '.' :: d)))), y,
      ⟨a, b, _, _, c, d, ha, hb, fun x hx => List.mem_takeWhile_imp hx,
        fun x hx => List.mem_takeWhile_imp hx, hc, hd, rfl⟩, ?_⟩
    nth_rewrite 1 [hm]
    simp
  · rintro ⟨t, y, ⟨a, b, m, n, c, d, ha, hb, hm, hn, hc, hd, rfl⟩, rfl⟩
    have htext : a ++ '.' :: (b ++ (m ++ '=' :: (n ++ (c ++ '.' :: d)))) ++ y =
        a ++ '.' :: (b ++ (m ++ '=' :: (n ++ (c ++ '.' :: (d ++ y))))) := by simp
    have hnot : ∀ x ∈ (m ++ '=' :: (n ++ (c ++ '.' :: (d ++ y)))).head?, isWord x = false := by
      intro x hx
      cases m with
      | nil =>
        obtain rfl : '=' = x := by simpa using hx
        rfl
      | cons z m =>
        obtain rfl : z = x := by simpa using hx
        exact isWord_of_isBlank (hm z (.head _))
    have heq : ∀ x ∈ ('=' :: (n ++ (c ++ '.' :: (d ++ y)))).head?, isBlank x = false := by
      intro x hx
      obtain rfl : '=' = x := by simpa using hx
      rfl
    rw [htext, skipJoin, skipColumn_append ha hb hnot, Option.bind_some, dropWhile_blanks hm heq, skipChar,
      if_pos rfl, Option.bind_some, dropWhile_blanks hn hc.not_blank]
    exact isSome_skipColumn hc hd

/-- What is taken for a join condition has a text of `join_regex` in it. -/
theorem isJoin_iff : isJoin s = true ↔ ∃ x t y, JoinText t ∧ s = x ++ (t ++ y) := by
  unfold isJoin
  rw [List.any_eq_true]
  constructor
  · rintro ⟨u, hu, h⟩
    obtain ⟨x, rfl⟩ := (List.mem_tails _ _).mp hu
    obtain ⟨t, y, ht, rfl⟩ := isSome_skipJoin_iff.mp h
    exact ⟨x, t, y, ht, rfl⟩
  · rintro ⟨x, t, y, ht, rfl⟩
    exact ⟨t ++ y, (List.mem_tails _ _).mpr ⟨x, rfl⟩, isSome_skipJoin_iff.mpr ⟨t, y, ht, rfl⟩⟩

end Regex

/-! ## What the loops leave -/

/-- The inner loop takes `p` for the table. -/
def mentions (tableAlias p : Text) : Bool := (find (aliasDot tableAlias) (' ' :: p)).isSome

/-- What is put into `filterString` for `p`. -/
def rewrite (tableAlias p : Text) : Text := (replaceAlias (aliasDot tableAlias) 0 (' ' :: p)).tail

def filterText (tableAlias : Text) (predicates : List Text) : Text :=
  " AND ".toList.intercalate ((predicates.filter (mentions tableAlias)).map (rewrite tableAlias))

section Loops

variable {predicates : List Text} {tableAlias : Text} {visited : List Bool}

theorem intercalate_concat (sep : Text) (l : List Text) (x : Text) :
    sep.intercalate (l ++ [x]) = (if l.isEmpty then [] else sep.intercalate l ++ sep) ++ x := by
  induction l with
  | nil => simp [List.intercalate]
  | cons y l ih =>
    rw [List.cons_append, intercalate_cons_of_ne_nil sep y (by simp), ih]
    cases l with
    | nil => simp [List.intercalate]
    | cons z l =>
      rw [intercalate_cons_of_ne_nil sep y (by simp)]
      simp

/-- Where the inner loop is after `k` predicates. -/
def scanned (predicates : List Text) (tableAlias : Text) (visited : List Bool) (k : ℕ) : Scan where
  visited := visited.mapIdx fun j v => v || (decide (j < k) && mentions tableAlias (predicates.getD j []))
  first := ((predicates.take k).filter (mentions tableAlias)).isEmpty
  conjPred := filterText tableAlias (predicates.take k)

theorem getD_mapIdx (f : ℕ → Bool → Bool) {k : ℕ} (hlen : k < visited.length) :
    (visited.mapIdx f).getD k false = f k (visited.getD k false) := by
  rw [List.getD_eq_getElem _ _ (by simpa using hlen), List.getD_eq_getElem _ _ hlen, List.getElem_mapIdx]

theorem scanStep_eq (s : Scan) (j : ℕ) : scanStep predicates tableAlias s j =
    if mentions tableAlias (predicates.getD j []) = true then
      if s.visited.getD j false = true then
        .error (.runtimeError ("Duplicate table for predicate: " ++ String.ofList (' ' :: predicates.getD j [])))
      else .ok ⟨s.visited.set j true, false, (if s.first then s.conjPred else s.conjPred ++ " AND ".toList) ++
        rewrite tableAlias (predicates.getD j [])⟩
    else .ok s := rfl

theorem take_succ {k : ℕ} (hk : k < predicates.length) :
    predicates.take (k + 1) = predicates.take k ++ [predicates.getD k []] := by
  rw [List.take_add_one, List.getElem?_eq_getElem hk, List.getD_eq_getElem _ _ hk]
  rfl

theorem scanned_of_mentions {k : ℕ} (hk : k < predicates.length)
    (hm : mentions tableAlias (predicates.getD k []) = true) :
    scanned predicates tableAlias visited (k + 1) =
      ⟨(scanned predicates tableAlias visited k).visited.set k true, false,
        (if (scanned predicates tableAlias visited k).first then
          (scanned predicates tableAlias visited k).conjPred
        else (scanned predicates tableAlias visited k).conjPred ++ " AND ".toList) ++
          rewrite tableAlias (predicates.getD k [])⟩ := by
  unfold scanned
  congr 1
  · refine List.ext_getElem (by simp) fun j hj _ => ?_
    rw [List.getElem_set, List.getElem_mapIdx, List.getElem_mapIdx]
    split
    · next hjk =>
      subst hjk
      rw [hm]
      simp
    · next hjk =>
      have : j < k + 1 ↔ j < k := by omega
      simp only [this]
  · rw [take_succ hk, List.filter_append, List.filter_singleton, hm]
    simp
  · rw [filterText, take_succ hk, List.filter_append, List.filter_singleton, hm, cond_true, List.map_append]
    refine (intercalate_concat _ _ _).trans ?_
    rw [List.isEmpty_map]
    congr 1
    split
    · next he =>
      rw [filterText, List.isEmpty_iff.mp he]
      rfl
    · rfl

theorem scanned_of_not {k : ℕ} (hk : k < predicates.length)
    (hm : mentions tableAlias (predicates.getD k []) = false) :
    scanned predicates tableAlias visited (k + 1) = scanned predicates tableAlias visited k := by
  have hfilter : (predicates.take (k + 1)).filter (mentions tableAlias) =
      (predicates.take k).filter (mentions tableAlias) := by
    rw [take_succ hk, List.filter_append, List.filter_singleton, hm]
    simp
  unfold scanned filterText
  rw [hfilter]
  congr 1
  refine List.ext_getElem (by simp) fun j hj _ => ?_
  rw [List.getElem_mapIdx, List.getElem_mapIdx]
  by_cases hjk : j = k
  · subst hjk
    rw [hm]
    simp
  · have : j < k + 1 ↔ j < k := by omega
    simp only [this]

theorem scanStep_scanned (hlen : visited.length = predicates.length) {k : ℕ} (hk : k < predicates.length)
    {s : Scan} : scanStep predicates tableAlias (scanned predicates tableAlias visited k) k = .ok s ↔
      (mentions tableAlias (predicates.getD k []) = true → visited.getD k false = false) ∧
        s = scanned predicates tableAlias visited (k + 1) := by
  have hvisited : (scanned predicates tableAlias visited k).visited.getD k false = visited.getD k false := by
    rw [scanned, getD_mapIdx _ (by omega)]
    simp
  have hok : ∀ {x y : Scan}, (Except.ok x : Except Error Scan) = .ok y ↔ y = x :=
    ⟨fun h => (Except.ok.inj h).symm, fun h => congrArg Except.ok h.symm⟩
  rw [scanStep_eq, hvisited]
  cases hm : mentions tableAlias (predicates.getD k []) with
  | true =>
    rw [if_pos rfl, scanned_of_mentions hk hm]
    cases hv : visited.getD k false with
    | true => simp
    | false => simp [hok]
  | false => simp [hok, scanned_of_not hk hm]

/-- The loop over the predicates goes through unless it meets one of the table that is taken. -/
theorem scan_eq_ok (hlen : visited.length = predicates.length) {k : ℕ} (hk : k ≤ predicates.length)
    {s : Scan} : (List.range k).foldlM (scanStep predicates tableAlias) ⟨visited, true, []⟩ = .ok s ↔
      (∀ j < k, mentions tableAlias (predicates.getD j []) = true → visited.getD j false = false) ∧
        s = scanned predicates tableAlias visited k := by
  induction k generalizing s with
  | zero =>
    have h0 : scanned predicates tableAlias visited 0 = ⟨visited, true, []⟩ := by
      unfold scanned
      congr 1
      refine List.ext_getElem (by simp) fun j hj _ => ?_
      simp
    rw [h0]
    simp only [List.range_zero, List.foldlM_nil, Nat.not_lt_zero, false_implies, implies_true, true_and]
    exact ⟨fun h => (Except.ok.inj h).symm, fun h => congrArg Except.ok h.symm⟩
  | succ k ih =>
    rw [List.range_succ, List.foldlM_append, bind_eq_ok]
    constructor
    · rintro ⟨s', hs', hs⟩
      obtain ⟨hbefore, rfl⟩ := (ih (by omega)).mp hs'
      rw [List.foldlM_cons, bind_eq_ok] at hs
      obtain ⟨s'', hs'', hs⟩ := hs
      obtain rfl := Except.ok.inj hs
      obtain ⟨hk', rfl⟩ := (scanStep_scanned hlen (by omega)).mp hs''
      refine ⟨fun j hj => ?_, rfl⟩
      rcases Nat.lt_succ_iff_lt_or_eq.mp hj with hj | rfl
      · exact hbefore j hj
      · exact hk'
    · rintro ⟨hall, rfl⟩
      refine ⟨_, (ih (by omega)).mpr ⟨fun j hj => hall j (by omega), rfl⟩, ?_⟩
      rw [List.foldlM_cons, bind_eq_ok]
      exact ⟨_, (scanStep_scanned hlen (by omega)).mpr ⟨hall k (by omega), rfl⟩, rfl⟩

theorem getD_scanned (hlen : visited.length = predicates.length) {j : ℕ} (hj : j < predicates.length) :
    (scanned predicates tableAlias visited predicates.length).visited.getD j false =
      (visited.getD j false || mentions tableAlias (predicates.getD j [])) := by
  rw [scanned, getD_mapIdx _ (by omega)]
  simp [hj]

/-- The loop over the tables goes through if no predicate is claimed twice. -/
theorem fillFilters_eq_ok (hlen : visited.length = predicates.length) {l : List (ℕ × Text)}
    {m m' : OrdMap ℕ String} : fillFilters predicates l visited m = (m', .ok ()) ↔
      (∀ j < predicates.length, (visited.getD j false).toNat +
        l.countP (fun t => mentions t.2 (predicates.getD j [])) ≤ 1) ∧
      m' = l.foldl (fun m t => m.insert t.1 (String.ofList (filterText t.2 predicates))) m := by
  induction l generalizing visited m with
  | nil =>
    unfold fillFilters
    have hle : ∀ b : Bool, b.toNat ≤ 1 := by decide
    constructor
    · intro h
      exact ⟨fun j _ => hle _, (Prod.mk.inj h).1.symm⟩
    · rintro ⟨-, rfl⟩
      rfl
  | cons t l ih =>
    obtain ⟨i, tableAlias⟩ := t
    have hscan : ∀ s, (List.range predicates.length).foldlM (scanStep predicates tableAlias)
        ⟨visited, true, []⟩ = .ok s ↔ _ := fun s => scan_eq_ok hlen le_rfl
    -- a table takes what is not taken
    by_cases hfree : ∀ j < predicates.length, mentions tableAlias (predicates.getD j []) = true →
        visited.getD j false = false
    · have hrun := (hscan _).mpr ⟨hfree, rfl⟩
      have hall : filterText tableAlias (predicates.take predicates.length) = filterText tableAlias predicates := by
        rw [List.take_length]
      rw [fillFilters, hrun]
      show fillFilters predicates l _ (m.insert i (String.ofList (filterText tableAlias (predicates.take _)))) =
        _ ↔ _
      rw [ih (by simp [scanned, hlen]), hall, List.foldl_cons]
      refine and_congr_left fun _ => forall₂_congr fun j hj => ?_
      rw [getD_scanned hlen hj, List.countP_cons]
      have := hfree j hj
      cases hm : mentions tableAlias (predicates.getD j []) with
      | true =>
        rw [this hm]
        simp [add_comm]
      | false => simp
    · obtain ⟨j, hj, hm, hv⟩ : ∃ j < predicates.length, mentions tableAlias (predicates.getD j []) = true ∧
          visited.getD j false = true := by
        push Not at hfree
        simpa using hfree
      constructor
      · intro h
        rw [fillFilters] at h
        split at h
        · exact absurd (Prod.mk.inj h).2 (by simp)
        · next s hs => exact absurd ((hscan s).mp hs).1 hfree
      · rintro ⟨hcount, -⟩
        have := hcount j hj
        rw [hv, List.countP_cons, hm] at this
        simp at this

end Loops

/-- The clause after `WHERE`, without the semicolon. -/
def whereClauseOf (sql : Text) (wherePos : ℕ) : Text :=
  let whereClause := sql.drop (wherePos + 6)
  if whereClause.getLast? = some ';' then whereClause.dropLast else whereClause

/-- A text with a `WHERE` is accepted if every table has an alias and no predicate names the aliases
of two of them; the filter of a table is then the conjunction of the predicates that name its own. -/
theorem parsePredicate_eq_ok {sql : Text} {wherePos : ℕ} (hw : find "WHERE".toList sql = some wherePos)
    {m : OrdMap ℕ String} : parsePredicate sql = some (m, .ok ()) ↔
      wherePos + 6 < sql.length ∧ ∃ fromPos aliases, find "FROM".toList sql = some fromPos ∧
        (fromItems (fromClauseOf sql fromPos wherePos).length (fromClauseOf sql fromPos wherePos)).mapM aliasOf =
          .ok aliases ∧
        (∀ p ∈ predicatesOf (whereClauseOf sql wherePos), aliases.countP (mentions · p) ≤ 1) ∧
        m = .ofKeys (List.range aliases.length) fun i =>
          String.ofList (filterText (aliases.getD i []) (predicatesOf (whereClauseOf sql wherePos))) := by
  unfold parsePredicate
  rw [hw]
  cases hf : find "FROM".toList sql with
  | none => simp
  | some fromPos =>
    have hlast : (sql.drop (wherePos + 6)).getLast? = none ↔ sql.length ≤ wherePos + 6 := by
      rw [List.getLast?_eq_none_iff, List.drop_eq_nil_iff]
    simp only [Option.some.injEq]
    split
    · next hlt => simp; omega
    · next hlt =>
      cases hl : (sql.drop (wherePos + 6)).getLast? with
      | none =>
        have := hlast.mp hl
        simp; omega
      | some last =>
        have hlen : wherePos + 6 < sql.length := by
          by_contra hle
          rw [hlast.mpr (by omega)] at hl
          cases hl
        have hclause : (if last = ';' then (sql.drop (wherePos + 6)).dropLast else sql.drop (wherePos + 6)) =
            whereClauseOf sql wherePos := by
          rw [whereClauseOf, hl]
          simp
        simp only [hlen, true_and]
        rw [hclause]
        cases ha : (fromItems (fromClauseOf sql fromPos wherePos).length
            (fromClauseOf sql fromPos wherePos)).mapM aliasOf with
        | error e =>
          constructor
          · intro h
            cases (Prod.mk.inj (Option.some.inj h)).2
          · rintro ⟨f, aliases, hfrom, hok, -⟩
            obtain rfl := hfrom
            cases ha.symm.trans hok
        | ok aliases =>
          have hcount : (∀ j < (predicatesOf (whereClauseOf sql wherePos)).length,
              ((List.replicate (predicatesOf (whereClauseOf sql wherePos)).length false).getD j false).toNat +
                ((List.range aliases.length).map fun i => (i, aliases.getD i [])).countP
                  (fun t => mentions t.2 ((predicatesOf (whereClauseOf sql wherePos)).getD j [])) ≤ 1) ↔
              ∀ p ∈ predicatesOf (whereClauseOf sql wherePos), aliases.countP (mentions · p) ≤ 1 := by
            have hmap : ∀ p, ((List.range aliases.length).map fun i => (i, aliases.getD i [])).countP
                (fun t => mentions t.2 p) = aliases.countP (mentions · p) := by
              intro p
              conv_rhs => rw [← map_getD_range aliases []]
              rw [List.countP_map, List.countP_map]
              rfl
            rw [List.forall_mem_iff_getElem]
            refine forall₂_congr fun j hj => ?_
            rw [hmap, List.getD_eq_getElem _ _ hj, List.getD_eq_getElem _ _ (by simpa using hj),
              List.getElem_replicate]
            simp
          rw [Option.some.injEq, fillFilters_eq_ok (by simp), hcount, List.foldl_map]
          constructor
          · rintro ⟨hle, rfl⟩
            exact ⟨fromPos, aliases, rfl, ha, hle, rfl⟩
          · rintro ⟨f, aliases', hfrom, hok, hle, rfl⟩
            obtain rfl := hfrom
            obtain rfl := Except.ok.inj (ha.symm.trans hok)
            exact ⟨hle, rfl⟩

end Predicates

end StarCE
