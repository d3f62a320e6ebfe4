import StarCE.Data.Forest
import StarCE.Data.Text

/-!
# Signatures of queries

`map_benchmark_estimates.py`: `parseSql` takes a query apart, `canonicalize`
makes a signature of its tables, its joins (an anchor for every class of
columns) and its filters. In a filter an alias is replaced by its table as a
text, one alias after the other, in the text that the replacements before have
left.
-/

namespace StarCE

namespace Remap

abbrev Text := List Char

/-- What a call can raise. -/
inductive Failure where
  | typeError
  | indexError
  | valueError
  | recursionError
  deriving DecidableEq, Repr

/-- `str.isspace` -/
def isSpace (c : Char) : Bool :=
  c.toNat ∈ [9, 10, 11, 12, 13, 28, 29, 30, 31, 32, 133, 160, 5760, 8192, 8193, 8194, 8195, 8196, 8197,
    8198, 8199, 8200, 8201, 8202, 8232, 8233, 8239, 8287, 12288]

/-- `d[k] = v`, in a dictionary that keeps the order of insertion. -/
def setItem (d : List (Text × Text)) (k v : Text) : List (Text × Text) :=
  match d with
  | [] => [(k, v)]
  | p :: d => if p.1 = k then (k, v) :: d else p :: setItem d k v

/-- `d.get(k, v)` -/
def getItem (d : List (Text × Text)) (k v : Text) : Text := ((d.find? fun p => p.1 = k).map (·.2)).getD v

structure Parsed where
  tables : List Text
  a2t : List (Text × Text)
  joins : List (Text × Text × Text)
  filts : List Text
  deriving DecidableEq

/-- `str.lower`, of a text whose capital letters are all ASCII ones. -/
def lower (s : Text) : Text := s.map Char.toLower

def clean (sql : Text) : Text := (lower (strip isSpace (collapse isSpace ' ' sql))).rdropWhile (· = ';')

/-- The group of `from (.+?)( where |$)`. -/
def fromClause (sql : Text) : Option Text :=
  match cutAny ["from ".toList] sql with
  | some (_, _, c :: s) =>
    match cutAny [" where ".toList] s with
    | some (tables, _) => some (c :: tables)
    | none => some (c :: s)
  | _ => none

/-- The group of `where (.+)$`. -/
def whereClause (sql : Text) : Option Text :=
  match cutAny ["where ".toList] sql with
  | some (_, _, c :: s) => some (c :: s)
  | _ => none

/-- A table and its alias. -/
def fromItem (t : Text) : Except Failure (Text × Text) :=
  match words isSpace (strip isSpace t) with
  | tbl :: p :: als :: _ => .ok (tbl, if p = "as".toList then als else p)
  | [tbl, als] => .ok (tbl, als)
  | [tbl] => .ok (tbl, tbl)
  | [] => .error .indexError

def signs : List Text := ["<=", ">=", "!=", "<>", "=", "<", ">"].map String.toList

/-- A condition with a period on both sides of its first comparison sign. -/
def joinOf (c : Text) : Option (Text × Text × Text) :=
  match cutAny signs c with
  | some (l, op, r) =>
    if '.' ∈ l ∧ '.' ∈ r then some (strip isSpace l, op, strip isSpace r) else none
  | none => none

def parseSql (text : Text) : Except Failure (Option Parsed) :=
  let sql := clean text
  match fromClause sql with
  | none => .ok none
  | some tables => do
    let items ← (tables.splitOn ',').mapM fromItem
    let conds := match whereClause sql with
      | some conds => (split " and ".toList conds).map (strip isSpace)
      | none => []
    pure (some {
      tables := items.map (·.1)
      a2t := items.foldl (fun d p => setItem d p.2 p.1) []
      joins := conds.filterMap joinOf
      filts := conds.filter fun c => joinOf c = none })

/-- `re.sub(r'\d+$', '', t)`, of a text whose digits are all ASCII ones. -/
def stripDigits (t : Text) : Text := t.rdropWhile Char.isDigit

/-- A column under the name of its table. -/
def nc (a2t : List (Text × Text)) (c : Text) : Except Failure Text :=
  match c.splitOn '.' with
  | [a, cn] => .ok (stripDigits (getItem a2t a a) ++ '.' :: cn)
  | _ => .error .valueError

/-- The longest aliases first. -/
def byLength (a2t : List (Text × Text)) : List (Text × Text) :=
  a2t.insertionSort fun p q => q.1.length ≤ p.1.length

/-- A filter with its aliases replaced, one after the other. -/
def nf (a2t : List (Text × Text)) (f : Text) : Text :=
  strip isSpace (collapse isSpace ' '
    ((byLength a2t).foldl (fun f p => replace (p.1 ++ ['.']) (p.2 ++ ['.']) f) f))

/-- The joins of a class of columns, all with its first. -/
def anchored : List Text → List Text
  | [] => []
  | anchor :: others => others.map fun other => anchor ++ " = ".toList ++ other

structure Signature where
  tables : List Text
  joins : List Text
  filts : List Text
  deriving DecidableEq

def canonicalize (parsed : Parsed) : Except Failure Signature := do
  let pairs ← (parsed.joins.filter fun j => j.2.1 = ['=']).mapM fun j => do
    let l ← nc parsed.a2t j.1
    let r ← nc parsed.a2t j.2.2
    pure (l, r)
  let fuel := parsed.joins.length + 1
  let parent ← pairs.foldlM (Forest.unitePair .recursionError fuel) ∅
  let (_, groups) ← Forest.groups .recursionError fuel parent
  let values := groups.toList.map (·.2.toList)
  let colGroups := (values.insertionSort fun s t => s.headD [] ≤ t.headD []).filter (2 ≤ ·.length)
  pure {
    tables := (OrdSet.ofList (parsed.tables.map stripDigits)).toList
    joins := (colGroups.flatMap anchored).insertionSort (· ≤ ·)
    filts := (parsed.filts.map (nf parsed.a2t)).insertionSort (· ≤ ·) }

/-- `canonicalize(parse_sql(text))` -/
def signature (text : Text) : Except Failure Signature := do
  match ← parseSql text with
  | some parsed => canonicalize parsed
  | none => .error .typeError

end Remap

end StarCE
