import StarCE.Data.Loop
import StarCE.Manager.State

/-!
# Recorded subqueries

What `ExecuteSql` of `main.cpp` notes of a main query and `RecordSubquery` of
`starce.hpp` of a subquery, and the two files of `main.cpp`: `outputSubquery`
writes the recorded texts and their cards, `readSubqueryCard` pairs the lines of
one file with the numbers of the other. Grouped by main query, the first file
has header lines and repetitions, the second has neither.
-/

namespace StarCE

variable {K : Type} [Field K] [LinearOrder K] [FloorRing K]

/-- What is kept of the main queries and of `RecordSubquery`. -/
structure Recorder (K : Type) where
  subqueries : OrdSet String := ∅
  recordingSubqueryCards : OrdMap String K := ∅
  subqueriesByMainQuery : OrdMap ℤ (String × List (String × K)) := ∅
  currentMainQueryId : ℤ := 0
  currentMainQuerySql : String := ""

/-- What `ExecuteSql` does to the recorder: it goes on to the main query of a line, whose
estimates then record subqueries. -/
inductive RecordStep (K : Type) where
  | executeSql (sqlid : ℤ) (sql : String)
  | recordSubquery (subquery : String) (card : K)

/-- `std::round` -/
def roundCard (x : K) : ℤ :=
  if 0 ≤ x then ⌊x + 1 / ((2 : ℕ) : K)⌋ else ⌈x - 1 / ((2 : ℕ) : K)⌉

/-- What `std::getline` reads until the end of a file. `line` is what has been read of the line. -/
def getlines (line : List Char) : List Char → List String
  | [] => if line = [] then [] else [String.ofList line.reverse]
  | c :: file => if c = '\n' then String.ofList line.reverse :: getlines [] file
    else getlines (c :: line) file

namespace Recorder

/-- A line of the file of main queries that is not empty, while subqueries are recorded. -/
def executeSql (groupByMain : Bool) (r : Recorder K) (sqlid : ℤ) (sql : String) : Recorder K :=
  let r := { r with currentMainQueryId := sqlid, currentMainQuerySql := sql }
  if groupByMain then
    let entry := (r.subqueriesByMainQuery.find? sqlid).getD ("", [])
    { r with subqueriesByMainQuery := r.subqueriesByMainQuery.insert sqlid (sql, entry.2) }
  else r

def recordSubquery (groupByMain : Bool) (r : Recorder K) (subquery : String) (card : K) :
    Recorder K :=
  let r := { r with
    subqueries := r.subqueries.insert subquery
    recordingSubqueryCards := r.recordingSubqueryCards.insert subquery card }
  if groupByMain then
    let entry := (r.subqueriesByMainQuery.find? r.currentMainQueryId).getD ("", [])
    let sql := if entry.1 = "" then r.currentMainQuerySql else entry.1
    let entry := (sql, entry.2 ++ [(subquery, card)])
    { r with subqueriesByMainQuery := r.subqueriesByMainQuery.insert r.currentMainQueryId entry }
  else r

def step (groupByMain : Bool) (r : Recorder K) : RecordStep K → Recorder K
  | .executeSql sqlid sql => r.executeSql groupByMain sqlid sql
  | .recordSubquery subquery card => r.recordSubquery groupByMain subquery card

def run (groupByMain : Bool) (steps : List (RecordStep K)) : Recorder K :=
  steps.foldl (step groupByMain) {}

/-- `(int64_t)(RecordingSubqueryCards[subquery])` -/
def cardOf (r : Recorder K) (subquery : String) : ℤ :=
  truncate ((r.recordingSubqueryCards.find? subquery).getD 0)

/-- The line over the subqueries of a main query. -/
def header (main_id : ℤ) : String := "=== " ++ toString main_id ++ " ==="

/-- The lines of the first file, grouped by main query. -/
def groupedLines (r : Recorder K) : List String :=
  r.subqueriesByMainQuery.toList.flatMap fun kv => header kv.1 :: kv.2.1 :: kv.2.2.map (·.1)

def outputLines (groupByMain : Bool) (r : Recorder K) : List String :=
  if groupByMain ∧ r.subqueriesByMainQuery.toList ≠ [] then r.groupedLines
  else r.subqueries.toList

/-- The two files: the characters of the first, the numbers of the second. -/
def outputSubquery (groupByMain : Bool) (r : Recorder K) : List Char × List ℤ :=
  ((outputLines groupByMain r).flatMap fun line => line.toList ++ ['\n'],
    r.subqueries.toList.map r.cardOf)

/-- What the reader has left of the second file, the value of `card`, and the cards so far. -/
structure Reading (K : Type) where
  numbers : List ℤ
  card : K
  subqueryCard : OrdMap String ℤ

/-- `file_result >> card` leaves the value at the end of the file. -/
def readLine (s : Reading K) (subquery : String) : Reading K :=
  let (card, numbers) := match s.numbers with
    | [] => (s.card, [])
    | n :: rest => ((n : K), rest)
  { numbers, card, subqueryCard := s.subqueryCard.insert subquery (roundCard card) }

/-- `card` starts out with whatever value. -/
def readSubqueryCard (card : K) (subqueryCard : OrdMap String ℤ) (files : List Char × List ℤ) :
    OrdMap String ℤ :=
  ((getlines [] files.1).foldl readLine { numbers := files.2, card, subqueryCard }).subqueryCard

end Recorder

/-! ## Lines -/

theorem getlines_append {line : List Char} (h : '\n' ∉ line) (read file : List Char) :
    getlines read (line ++ '\n' :: file) = String.ofList (read.reverse ++ line) :: getlines [] file := by
  induction line generalizing read with
  | nil => simp [getlines]
  | cons c line ih =>
    have hc : c ≠ '\n' := fun he => h (he ▸ .head _)
    rw [List.cons_append, getlines, if_neg hc, ih fun hm => h (.tail _ hm)]
    simp

/-- Lines that are written are read. -/
theorem getlines_lines {lines : List String} (h : ∀ l ∈ lines, '\n' ∉ l.toList) :
    getlines [] (lines.flatMap fun line => line.toList ++ ['\n']) = lines := by
  induction lines with
  | nil => rfl
  | cons l lines ih =>
    obtain ⟨hl, hlines⟩ := List.forall_mem_cons.mp h
    rw [List.flatMap_cons, List.append_assoc, List.singleton_append, getlines_append hl, ih hlines]
    simp

/-- The place of the last line with that text. -/
def lastIdxOf (lines : List String) (q : String) : ℕ := lines.length - 1 - lines.reverse.idxOf q

theorem lastIdxOf_append (lines more : List String) (q : String) :
    lastIdxOf (lines ++ more) q =
      if q ∈ more then lines.length + lastIdxOf more q else lastIdxOf lines q := by
  unfold lastIdxOf
  rw [List.length_append, List.reverse_append, List.idxOf_append]
  by_cases h : q ∈ more
  · have hlt := List.idxOf_lt_length_iff.mpr (List.mem_reverse.mpr h)
    rw [List.length_reverse] at hlt
    rw [if_pos (List.mem_reverse.mpr h), if_pos h]
    omega
  · rw [if_neg (by simpa using h), if_neg h, List.length_reverse]
    omega

theorem lastIdxOf_cons (l : String) {lines : List String} {q : String} (h : q ∈ lines) :
    lastIdxOf (l :: lines) q = lastIdxOf lines q + 1 := by
  have := lastIdxOf_append [l] lines q
  rw [if_pos h] at this
  rw [List.singleton_append] at this
  rw [this, List.length_singleton, Nat.add_comm]

theorem lastIdxOf_cons_self (l : String) {lines : List String} (h : l ∉ lines) :
    lastIdxOf (l :: lines) l = 0 := by
  have := lastIdxOf_append [l] lines l
  rw [if_neg h, List.singleton_append] at this
  rw [this]
  exact Nat.zero_sub _

theorem lastIdxOf_eq_idxOf {lines : List String} (h : lines.Nodup) {q : String} (hq : q ∈ lines) :
    lastIdxOf lines q = lines.idxOf q := by
  induction lines with
  | nil => cases hq
  | cons l lines ih =>
    obtain ⟨hnot, hn⟩ := List.nodup_cons.mp h
    by_cases hl : q = l
    · subst hl
      rw [lastIdxOf_cons_self _ hnot, List.idxOf_cons_self]
    · have hmem : q ∈ lines := (List.mem_cons.mp hq).resolve_left hl
      rw [lastIdxOf_cons _ hmem, ih hn hmem, List.idxOf_cons_ne _ (Ne.symm hl)]

namespace Recorder

/-! ## Reading -/

section Reading

variable [IsStrictOrderedRing K]

theorem roundCard_intCast (n : ℤ) : roundCard (n : K) = n := by
  unfold roundCard
  split
  · rw [Int.floor_eq_iff]
    constructor <;> linarith
  · rw [Int.ceil_eq_iff]
    constructor <;> linarith

/-- Every line is given the number at its place, or the last one. -/
theorem foldl_readLine {numbers : List ℤ} (hne : numbers ≠ []) (card : K)
    (subqueryCard : OrdMap String ℤ) (lines : List String) :
    let s := lines.foldl readLine { numbers, card, subqueryCard }
    s.numbers = numbers.drop lines.length ∧
      (lines ≠ [] → s.card = (numbers.getD (min (lines.length - 1) (numbers.length - 1)) 0 : ℤ)) ∧
      ∀ q ∈ lines, s.subqueryCard.find? q =
        some (numbers.getD (min (lastIdxOf lines q) (numbers.length - 1)) 0) := by
  have hpos := List.length_pos_of_ne_nil hne
  induction lines using List.reverseRecOn with
  | nil => exact ⟨rfl, fun h => absurd rfl h, fun q hq => by cases hq⟩
  | append_singleton lines l ih =>
    rw [List.foldl_append, List.foldl_cons, List.foldl_nil]
    set s := lines.foldl readLine { numbers, card, subqueryCard }
    obtain ⟨hnum, hcard, hfind⟩ := ih
    have hstep : (readLine s l).numbers = numbers.drop (lines.length + 1) ∧
        (readLine s l).card = (numbers.getD (min lines.length (numbers.length - 1)) 0 : ℤ) := by
      unfold readLine
      by_cases hlt : lines.length < numbers.length
      · rw [hnum, List.drop_eq_getElem_cons hlt]
        refine ⟨rfl, ?_⟩
        rw [min_eq_left (by omega), List.getD_eq_getElem _ _ hlt]
      · have hnil : numbers.drop lines.length = [] := List.drop_eq_nil_of_le (by omega)
        rw [hnum, hnil]
        refine ⟨(List.drop_eq_nil_of_le (by omega)).symm, ?_⟩
        show s.card = _
        rw [hcard (by rintro rfl; exact hlt hpos), min_eq_right (by omega),
          min_eq_right (by omega)]
    refine ⟨by rw [hstep.1, List.length_append, List.length_singleton], fun _ => ?_, fun q hq => ?_⟩
    · rw [hstep.2, List.length_append, List.length_singleton, Nat.add_sub_cancel]
    · show (s.subqueryCard.insert l (roundCard (readLine s l).card)).find? q = _
      rw [OrdMap.find?_insert, lastIdxOf_append, hstep.2, roundCard_intCast]
      by_cases hl : q = l
      · subst hl
        rw [if_pos rfl, if_pos (.head _), lastIdxOf_cons_self _ List.not_mem_nil, Nat.add_zero]
      · have hmem : q ∈ lines := (List.mem_append.mp hq).resolve_right (by simpa using hl)
        rw [if_neg hl, if_neg (by simpa using hl), hfind q hmem]

end Reading

/-! ## What was recorded -/

/-- A call of `RecordSubquery`, and the id of the main query it was made for. -/
structure RecordCall (K : Type) where
  mainId : ℤ
  subquery : String
  card : K

/-- The main query that is current after some steps, starting from `m`. -/
def mainAfter (m : ℤ × String) : List (RecordStep K) → ℤ × String
  | [] => m
  | .executeSql sqlid sql :: steps => mainAfter (sqlid, sql) steps
  | .recordSubquery _ _ :: steps => mainAfter m steps

/-- The calls, starting with the main query `id`. -/
def callsFrom (id : ℤ) : List (RecordStep K) → List (RecordCall K)
  | [] => []
  | .executeSql sqlid _ :: steps => callsFrom sqlid steps
  | .recordSubquery subquery card :: steps => ⟨id, subquery, card⟩ :: callsFrom id steps

def calls (steps : List (RecordStep K)) : List (RecordCall K) := callsFrom 0 steps

def mains (steps : List (RecordStep K)) : List (ℤ × String) :=
  steps.filterMap fun
    | .executeSql sqlid sql => some (sqlid, sql)
    | .recordSubquery _ _ => none

/-- The last text of a main query; none was executed under an id without one. -/
def sqlOf (steps : List (RecordStep K)) (id : ℤ) : String :=
  (((mains steps).reverse.find? fun m => m.1 = id).map (·.2)).getD ""

/-- The calls made for a main query, in order. -/
def asked (steps : List (RecordStep K)) (id : ℤ) : List (RecordCall K) :=
  (calls steps).filter (·.mainId = id)

/-- The main queries that were executed, or that calls were made for. -/
def ids (steps : List (RecordStep K)) : OrdSet ℤ :=
  .ofList ((mains steps).map (·.1) ++ (calls steps).map (·.mainId))

def texts (steps : List (RecordStep K)) : OrdSet String :=
  .ofList ((calls steps).map (·.subquery))

/-- The last card recorded for a text. -/
def lastCard (calls : List (RecordCall K)) (q : String) : Option K :=
  (calls.reverse.find? fun c => c.subquery = q).map (·.card)

section Recorded

variable {K : Type} {steps : List (RecordStep K)} {r : Recorder K} {groupByMain : Bool}

theorem callsFrom_append (m : ℤ × String) (steps more : List (RecordStep K)) :
    callsFrom m.1 (steps ++ more) = callsFrom m.1 steps ++ callsFrom (mainAfter m steps).1 more := by
  induction steps generalizing m with
  | nil => rfl
  | cons x steps ih =>
    cases x with
    | executeSql sqlid sql => exact ih (sqlid, sql)
    | recordSubquery subquery card => exact congrArg (_ :: ·) (ih m)

theorem mainAfter_append (m : ℤ × String) (steps more : List (RecordStep K)) :
    mainAfter m (steps ++ more) = mainAfter (mainAfter m steps) more := by
  induction steps generalizing m with
  | nil => rfl
  | cons x steps ih =>
    cases x with
    | executeSql sqlid sql => exact ih (sqlid, sql)
    | recordSubquery subquery card => exact ih m

theorem calls_executeSql (steps : List (RecordStep K)) (sqlid : ℤ) (sql : String) :
    calls (steps ++ [.executeSql sqlid sql]) = calls steps :=
  (callsFrom_append (0, "") steps _).trans (List.append_nil _)

theorem calls_recordSubquery (steps : List (RecordStep K)) (subquery : String) (card : K) :
    calls (steps ++ [.recordSubquery subquery card]) =
      calls steps ++ [⟨(mainAfter (0, "") steps).1, subquery, card⟩] :=
  callsFrom_append (0, "") steps _

theorem mains_executeSql (steps : List (RecordStep K)) (sqlid : ℤ) (sql : String) :
    mains (steps ++ [.executeSql sqlid sql]) = mains steps ++ [(sqlid, sql)] :=
  List.filterMap_append

theorem mains_recordSubquery (steps : List (RecordStep K)) (subquery : String) (card : K) :
    mains (steps ++ [.recordSubquery subquery card]) = mains steps :=
  List.filterMap_append.trans (List.append_nil _)

/-- The current main query has the current text. -/
theorem sqlOf_mainAfter (steps : List (RecordStep K)) :
    sqlOf steps (mainAfter (0, "") steps).1 = (mainAfter (0, "") steps).2 := by
  induction steps using List.reverseRecOn with
  | nil => rfl
  | append_singleton steps x ih =>
    rw [mainAfter_append]
    cases x with
    | executeSql sqlid sql =>
      rw [sqlOf, mains_executeSql, List.reverse_append, List.reverse_singleton,
        List.singleton_append, List.find?_cons_of_pos (by simp [mainAfter])]
      rfl
    | recordSubquery subquery card =>
      rw [sqlOf, mains_recordSubquery]
      exact ih

/-- What is kept of the steps. -/
structure Recorded (groupByMain : Bool) (steps : List (RecordStep K)) (r : Recorder K) : Prop where
  current : (r.currentMainQueryId, r.currentMainQuerySql) = mainAfter (0, "") steps
  subqueries : r.subqueries = texts steps
  cards : ∀ q, r.recordingSubqueryCards.find? q = lastCard (calls steps) q
  grouped : groupByMain = true → ∀ id, r.subqueriesByMainQuery.find? id =
    if id ∈ ids steps then some (sqlOf steps id, (asked steps id).map fun c => (c.subquery, c.card))
    else none

theorem mem_ids {id : ℤ} : id ∈ ids steps ↔
    (∃ m ∈ mains steps, m.1 = id) ∨ ∃ c ∈ calls steps, c.mainId = id := by
  rw [ids, OrdSet.mem_ofList, List.mem_append, List.mem_map, List.mem_map]

/-- Nothing is known of a main query without an entry. -/
theorem sqlOf_of_not_mem {id : ℤ} (h : id ∉ ids steps) : sqlOf steps id = "" := by
  rw [sqlOf, List.find?_eq_none.mpr]
  · rfl
  · intro m hm heq
    exact h (mem_ids.mpr (.inl ⟨m, List.mem_reverse.mp hm, by simpa using heq⟩))

theorem asked_of_not_mem {id : ℤ} (h : id ∉ ids steps) : asked steps id = [] := by
  refine List.filter_eq_nil_iff.mpr fun c hc heq => ?_
  exact h (mem_ids.mpr (.inr ⟨c, hc, by simpa using heq⟩))

/-- The entry of a main query, or the empty one that a first access makes. -/
theorem Recorded.entry (h : Recorded groupByMain steps r) (hg : groupByMain = true) (id : ℤ) :
    (r.subqueriesByMainQuery.find? id).getD ("", []) =
      (sqlOf steps id, (asked steps id).map fun c => (c.subquery, c.card)) := by
  rw [h.grouped hg]
  split
  · rfl
  · next hid =>
    rw [sqlOf_of_not_mem hid, asked_of_not_mem hid]
    rfl

theorem Recorded.executeSql (h : Recorded groupByMain steps r) (sqlid : ℤ) (sql : String) :
    Recorded groupByMain (steps ++ [.executeSql sqlid sql])
      (r.executeSql groupByMain sqlid sql) := by
  have hcalls := calls_executeSql steps sqlid sql
  have hmains := mains_executeSql steps sqlid sql
  have hasked : ∀ id, asked (steps ++ [.executeSql sqlid sql]) id = asked steps id := fun id => by
    rw [asked, hcalls, asked]
  have hsql : ∀ id, sqlOf (steps ++ [.executeSql sqlid sql]) id =
      if id = sqlid then sql else sqlOf steps id := fun id => by
    rw [sqlOf, hmains, List.reverse_append, List.reverse_singleton, List.singleton_append,
      List.find?_cons]
    by_cases hid : id = sqlid
    · simp [hid]
    · simp [hid, Ne.symm hid, sqlOf]
  have hmem : ∀ id, id ∈ ids (steps ++ [.executeSql sqlid sql]) ↔ id = sqlid ∨ id ∈ ids steps := by
    intro id
    rw [mem_ids, mem_ids, hmains, hcalls]
    simp only [List.mem_append, List.mem_singleton, or_and_right, exists_or, exists_eq_left,
      eq_comm (a := sqlid)]
    rw [or_right_comm, or_comm]
  refine ⟨?_, ?_, fun q => ?_, fun hg id => ?_⟩
  · rw [mainAfter_append]
    cases groupByMain <;> rfl
  · rw [texts, hcalls]
    cases groupByMain <;> exact h.subqueries
  · rw [hcalls]
    cases groupByMain <;> exact h.cards q
  · subst hg
    have hentry := h.entry rfl sqlid
    show (OrdMap.insert _ sqlid (sql, (OrdMap.find? _ sqlid |>.getD ("", [])).2)).find? id = _
    rw [OrdMap.find?_insert, hentry]
    by_cases hid : id = sqlid
    · rw [if_pos hid, if_pos ((hmem id).mpr (.inl hid)), hsql, if_pos hid, hasked, hid]
    · rw [if_neg hid, hsql, if_neg hid, hasked, h.grouped rfl]
      exact if_congr (by rw [hmem, or_iff_right hid]) rfl rfl

theorem Recorded.recordSubquery (h : Recorded groupByMain steps r) (subquery : String) (card : K) :
    Recorded groupByMain (steps ++ [.recordSubquery subquery card])
      (r.recordSubquery groupByMain subquery card) := by
  obtain ⟨hid, htext⟩ := Prod.mk.inj h.current
  have hcalls := calls_recordSubquery steps subquery card
  have hmains := mains_recordSubquery steps subquery card
  have hcurrent := sqlOf_mainAfter steps
  rw [← hid, ← htext] at hcurrent
  rw [← hid] at hcalls
  have hasked : ∀ id, asked (steps ++ [.recordSubquery subquery card]) id =
      if id = r.currentMainQueryId then asked steps id ++ [⟨id, subquery, card⟩]
      else asked steps id := fun id => by
    rw [asked, hcalls, List.filter_append, ← asked]
    by_cases heq : id = r.currentMainQueryId
    · simp [heq]
    · simp [heq, Ne.symm heq]
  have hmem : ∀ id, id ∈ ids (steps ++ [.recordSubquery subquery card]) ↔
      id = r.currentMainQueryId ∨ id ∈ ids steps := by
    intro id
    rw [mem_ids, mem_ids, hmains, hcalls]
    simp only [List.mem_append, List.mem_singleton, or_and_right, exists_or, exists_eq_left,
      eq_comm (a := r.currentMainQueryId)]
    rw [← or_assoc, or_comm]
  have hsql : ∀ id, sqlOf (steps ++ [.recordSubquery subquery card]) id = sqlOf steps id :=
    fun id => by rw [sqlOf, hmains, sqlOf]
  refine ⟨?_, ?_, fun q => ?_, fun hg id => ?_⟩
  · rw [mainAfter_append]
    cases groupByMain <;> exact h.current
  · have hnew : (r.recordSubquery groupByMain subquery card).subqueries =
        r.subqueries.insert subquery := by cases groupByMain <;> rfl
    rw [hnew, h.subqueries]
    unfold texts
    rw [hcalls, List.map_append, OrdSet.ofList, OrdSet.ofList, List.foldl_append]
    rfl
  · have hnew : (r.recordSubquery groupByMain subquery card).recordingSubqueryCards =
        r.recordingSubqueryCards.insert subquery card := by cases groupByMain <;> rfl
    rw [hnew, OrdMap.find?_insert, h.cards, hcalls, lastCard, lastCard, List.reverse_append,
      List.reverse_singleton, List.singleton_append, List.find?_cons]
    by_cases hq : q = subquery
    · simp [hq]
    · simp [hq, Ne.symm hq]
  · subst hg
    obtain ⟨entry, hentry⟩ : ∃ e, e =
      (r.subqueriesByMainQuery.find? r.currentMainQueryId).getD ("", []) := ⟨_, rfl⟩
    have hnew : (r.recordSubquery true subquery card).subqueriesByMainQuery =
        r.subqueriesByMainQuery.insert r.currentMainQueryId
          (if entry.1 = "" then r.currentMainQuerySql else entry.1,
            entry.2 ++ [(subquery, card)]) := by
      rw [hentry]
      rfl
    rw [h.entry rfl] at hentry
    rw [hnew, OrdMap.find?_insert, hentry, hcurrent, ite_self]
    by_cases heq : id = r.currentMainQueryId
    · rw [if_pos heq, if_pos ((hmem id).mpr (.inl heq)), hsql, hasked, if_pos heq, heq, hcurrent,
        List.map_append]
      rfl
    · rw [if_neg heq, hsql, hasked, if_neg heq, h.grouped rfl]
      exact if_congr (by rw [hmem, or_iff_right heq]) rfl rfl

theorem recorded (groupByMain : Bool) (steps : List (RecordStep K)) :
    Recorded groupByMain steps (run groupByMain steps) := by
  refine foldl_inv (fun l r => Recorded groupByMain l r) ?_ fun l x r _ h => ?_
  · exact ⟨rfl, rfl, fun _ => rfl, fun _ id => (if_neg (OrdSet.not_mem_empty id)).symm⟩
  · cases x with
    | executeSql sqlid sql => exact h.executeSql sqlid sql
    | recordSubquery subquery card => exact h.recordSubquery subquery card

end Recorded

/-! ## The places of the lines -/

section Places

variable {K : Type} {steps : List (RecordStep K)} {q : String} {id : ℤ}

/-- Where the last line `q` of a main query stands, counted from its header: past the header and
the text, unless it is one of them. -/
def offset (steps : List (RecordStep K)) (id : ℤ) (q : String) : Option ℕ :=
  if q ∈ (asked steps id).map (·.subquery) then
    some (lastIdxOf ((asked steps id).map (·.subquery)) q + 2)
  else if q = sqlOf steps id then some 1
  else if q = header id then some 0
  else none

/-- Two lines and the calls of every main query with a smaller id. -/
def linesBefore (steps : List (RecordStep K)) (id : ℤ) : ℕ :=
  (((ids steps).toList.filter (· < id)).map fun m => (asked steps m).length + 2).sum

/-- Where the last line `q` stands: in the last main query that has one. -/
def place (steps : List (RecordStep K)) (q : String) : ℕ :=
  ((ids steps).toList.reverse.findSome? fun id =>
    (offset steps id q).map (linesBefore steps id + ·)).getD 0

/-- The lines of one main query. -/
def block (steps : List (RecordStep K)) (id : ℤ) : List String :=
  header id :: sqlOf steps id :: (asked steps id).map (·.subquery)

theorem offset_of_mem (h : q ∈ block steps id) :
    offset steps id q = some (lastIdxOf (block steps id) q) := by
  unfold offset block
  by_cases hasked : q ∈ (asked steps id).map (·.subquery)
  · rw [if_pos hasked, lastIdxOf_cons _ (.tail _ hasked), lastIdxOf_cons _ hasked]
  · rw [if_neg hasked]
    by_cases hsql : q = sqlOf steps id
    · subst hsql
      rw [if_pos rfl, lastIdxOf_cons _ (.head _), lastIdxOf_cons_self _ hasked]
    · have hhead : q = header id := by
        rcases List.mem_cons.mp h with h | h
        · exact h
        · exact absurd ((List.mem_cons.mp h).resolve_left hsql) hasked
      have hnot : header id ∉ sqlOf steps id :: (asked steps id).map (·.subquery) := by
        rw [← hhead, List.mem_cons, not_or]
        exact ⟨hsql, hasked⟩
      rw [if_neg hsql, if_pos hhead, hhead, lastIdxOf_cons_self _ hnot]

theorem offset_of_not_mem (h : q ∉ block steps id) : offset steps id q = none := by
  unfold block at h
  rw [List.mem_cons, List.mem_cons, not_or, not_or] at h
  unfold offset
  rw [if_neg h.2.2, if_neg h.2.1, if_neg h.1]

theorem filter_lt_of_sorted {l more : List ℤ} (h : (l ++ id :: more).Pairwise (· < ·)) :
    (l ++ id :: more).filter (· < id) = l := by
  obtain ⟨-, hmore, hl⟩ := List.pairwise_append.mp h
  have h1 : l.filter (· < id) = l := List.filter_eq_self.mpr fun x hx => by
    simpa using hl x hx id (.head _)
  have h2 : (id :: more).filter (· < id) = [] := List.filter_eq_nil_iff.mpr fun x hx => by
    rcases List.mem_cons.mp hx with rfl | hx
    · simp
    · simpa using ((List.pairwise_cons.mp hmore).1 x hx).le
  rw [List.filter_append, h1, h2, List.append_nil]

theorem length_blocks (steps : List (RecordStep K)) (l : List ℤ) :
    (l.flatMap (block steps)).length = (l.map fun m => (asked steps m).length + 2).sum := by
  rw [List.length_flatMap]
  refine congrArg List.sum (List.map_congr_left fun m _ => ?_)
  unfold block
  rw [List.length_cons, List.length_cons, List.length_map]

theorem place_eq (h : q ∈ (ids steps).toList.flatMap (block steps)) :
    place steps q = lastIdxOf ((ids steps).toList.flatMap (block steps)) q := by
  have key : ∀ l more : List ℤ, (ids steps).toList = l ++ more → q ∈ l.flatMap (block steps) →
      (l.reverse.findSome? fun id => (offset steps id q).map (linesBefore steps id + ·)) =
        some (lastIdxOf (l.flatMap (block steps)) q) := by
    intro l
    induction l using List.reverseRecOn with
    | nil => exact fun more _ hq => absurd hq List.not_mem_nil
    | append_singleton l id ih =>
      intro more hl hq
      rw [List.append_assoc, List.singleton_append] at hl
      have hbefore : linesBefore steps id = (l.flatMap (block steps)).length := by
        have hsorted := (ids steps).sorted
        rw [hl] at hsorted
        rw [linesBefore, hl, filter_lt_of_sorted hsorted, length_blocks]
      rw [List.flatMap_append, List.flatMap_singleton] at hq ⊢
      rw [List.reverse_append, List.reverse_singleton, List.singleton_append,
        List.findSome?_cons, lastIdxOf_append]
      by_cases hb : q ∈ block steps id
      · rw [offset_of_mem hb, if_pos hb, ← hbefore]
        rfl
      · rw [offset_of_not_mem hb, if_neg hb]
        exact ih (id :: more) hl ((List.mem_append.mp hq).resolve_right hb)
  unfold place
  rw [key _ [] (List.append_nil _).symm h]
  rfl

theorem Recorded.groupedLines {r : Recorder K} (h : Recorded true steps r) :
    r.groupedLines = (ids steps).toList.flatMap (block steps) := by
  rw [Recorder.groupedLines, OrdMap.toList_of_find? (h.grouped rfl), List.flatMap_map]
  refine List.flatMap_congr fun id _ => ?_
  rw [block, List.map_map]
  rfl

/-! ### Line ends -/

theorem newline_not_mem_toString (n : ℤ) : '\n' ∉ (toString n).toList := by
  have hdigit : ∀ m : ℕ, '\n' ∉ (Nat.repr m).toList := fun m hm => by
    have := Nat.isDigit_of_mem_toDigits (b := 10) (by decide) (by decide)
      (show '\n' ∈ Nat.toDigits 10 m by simpa [Nat.repr] using hm)
    exact absurd this (by decide)
  cases n with
  | ofNat m => exact hdigit m
  | negSucc m =>
    show '\n' ∉ ("-" ++ Nat.repr (m + 1)).toList
    rw [String.toList_append, List.mem_append, not_or]
    exact ⟨by decide, hdigit _⟩

theorem newline_not_mem_header (id : ℤ) : '\n' ∉ (header id).toList := by
  unfold header
  rw [String.toList_append, String.toList_append, List.mem_append, List.mem_append]
  rintro ((hm | hm) | hm)
  · exact absurd hm (by decide)
  · exact newline_not_mem_toString _ hm
  · exact absurd hm (by decide)

theorem newline_not_mem_block (hsql : ∀ m ∈ mains steps, '\n' ∉ m.2.toList)
    (hsub : ∀ c ∈ calls steps, '\n' ∉ c.subquery.toList) {id : ℤ} :
    ∀ l ∈ block steps id, '\n' ∉ l.toList := by
  intro l hl
  rcases List.mem_cons.mp hl with rfl | hl
  · exact newline_not_mem_header id
  · rcases List.mem_cons.mp hl with rfl | hl
    · unfold sqlOf
      cases hf : (mains steps).reverse.find? fun m => m.1 = id with
      | none => exact List.not_mem_nil
      | some m => exact hsql m (List.mem_reverse.mp (List.mem_of_find?_eq_some hf))
    · obtain ⟨c, hc, rfl⟩ := List.mem_map.mp hl
      exact hsub c (List.mem_of_mem_filter hc)

end Places

/-! ## Reading back -/

/-- The recorded text of the rank `k`, the last one for any further `k`. -/
def ranked (steps : List (RecordStep K)) (k : ℕ) : String :=
  (texts steps).toList.getD (min k ((texts steps).size - 1)) ""

/-- The text whose rank is the place of `q` was last recorded with the same integer part. -/
def SameCard (steps : List (RecordStep K)) (q : String) : Prop :=
  (lastCard (calls steps) (ranked steps (place steps q))).map truncate =
    (lastCard (calls steps) q).map truncate

instance (steps : List (RecordStep K)) (q : String) : Decidable (SameCard steps q) :=
  inferInstanceAs (Decidable (_ = _))

section ReadBack

variable {steps : List (RecordStep K)} {r : Recorder K} {groupByMain : Bool}

/-- A text that stands in the first file is given the card of the text whose rank is its place. -/
theorem Recorded.find? (h : Recorded groupByMain steps r) [IsStrictOrderedRing K] {lines : List String}
    (hlines : outputLines groupByMain r = lines) (hnewline : ∀ l ∈ lines, '\n' ∉ l.toList) (card : K)
    (subqueryCard : OrdMap String ℤ) {q : String} (hq : q ∈ texts steps) (hline : q ∈ lines) :
    (readSubqueryCard card subqueryCard (outputSubquery groupByMain r)).find? q =
      (lastCard (calls steps) (ranked steps (lastIdxOf lines q))).map truncate := by
  have hpos : 0 < (texts steps).toList.length := List.length_pos_of_mem hq
  have hne : (texts steps).toList.map r.cardOf ≠ [] := fun hnil =>
    List.ne_nil_of_mem hq (List.map_eq_nil_iff.mp hnil)
  unfold readSubqueryCard outputSubquery
  rw [hlines, getlines_lines hnewline, h.subqueries]
  obtain ⟨-, -, hfind⟩ := foldl_readLine hne card subqueryCard lines
  have hlt : min (lastIdxOf lines q) ((texts steps).toList.length - 1) <
      (texts steps).toList.length := by omega
  have hrank : ranked steps (lastIdxOf lines q) = (texts steps).toList[min (lastIdxOf lines q)
      ((texts steps).toList.length - 1)] := List.getD_eq_getElem _ _ hlt
  have hmem : ranked steps (lastIdxOf lines q) ∈ texts steps := by
    rw [hrank]
    exact List.getElem_mem _
  obtain ⟨c, hc, heq⟩ := List.mem_map.mp (OrdSet.mem_ofList.mp hmem)
  rw [hfind q hline, List.length_map, List.getD_eq_getElem _ _ (by rwa [List.length_map]),
    List.getElem_map, ← hrank, cardOf, h.cards]
  cases hl : lastCard (calls steps) (ranked steps (lastIdxOf lines q)) with
  | some x => rfl
  | none =>
    have hnone := List.find?_eq_none.mp (Option.map_eq_none_iff.mp hl) c (List.mem_reverse.mpr hc)
    exact absurd heq (by simpa using hnone)

end ReadBack

section Example

/-- Two subqueries of one main query. -/
def twoSubqueries : List (RecordStep ℚ) :=
  [.executeSql 1 "m", .recordSubquery "p" 5, .recordSubquery "q" 7]

/-- A main query without subqueries, then one with three: all of them stand past the last rank,
and have the integer part of its card. -/
def laterMain : List (RecordStep ℚ) :=
  [.executeSql 1 "m", .executeSql 2 "n", .recordSubquery "a" 3, .recordSubquery "b" (7 / 2),
    .recordSubquery "c" 3]

end Example

end Recorder

end StarCE
