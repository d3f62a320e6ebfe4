import StarCE.Data.Ordered

/-!
# Equal sets

`equalset.hpp`: the columns of a schema that share a join domain, the subsets
statistics are collected for (`getAllSubset`, `getAllSubsetLimitSize`) and the
chunks a large star is split into (`split`). A subset with one entry stands
for its table and loses its column name.
-/

namespace StarCE

abbrev Table := String

/-- The exceptions the code lets out: `std::out_of_range`, a failed query's
`InvalidInputException` and `std::runtime_error`. -/
inductive Error where
  | outOfRange
  | invalidInput
  | runtimeError (what : String)
  deriving DecidableEq, Repr

/-- `std::map::at`. -/
def OrdMap.lookup {κ ν : Type} [LinearOrder κ] (m : OrdMap κ ν) (k : κ) : Except Error ν :=
  match m.find? k with
  | some v => .ok v
  | none => .error .outOfRange

theorem OrdMap.lookup_eq_ok {κ ν : Type} [LinearOrder κ] {m : OrdMap κ ν} {k : κ} {v : ν} :
    m.lookup k = .ok v ↔ m.find? k = some v := by
  unfold OrdMap.lookup
  cases m.find? k <;> simp

theorem OrdMap.isSome_of_lookup {κ ν : Type} [LinearOrder κ] {m : OrdMap κ ν} {k : κ} {v : ν}
    (h : m.lookup k = .ok v) : (m.find? k).isSome := by
  rw [OrdMap.lookup_eq_ok.mp h]
  rfl

/-- `d` is whatever the key could be given by default. -/
theorem OrdMap.lookup_of_isSome {κ ν : Type} [LinearOrder κ] {m : OrdMap κ ν} {k : κ} (d : ν)
    (h : (m.find? k).isSome) : m.lookup k = .ok ((m.find? k).getD d) := by
  obtain ⟨v, hv⟩ := Option.isSome_iff_exists.mp h
  rw [OrdMap.lookup, hv]
  rfl

@[ext] structure TableColumn where
  tableName : Table
  columnName : String
  deriving DecidableEq

namespace TableColumn

def key (c : TableColumn) : String ×ₗ String := toLex (c.tableName, c.columnName)

theorem key_injective : Function.Injective key := fun c d h => by
  simpa [key, TableColumn.ext_iff] using h

/-- By table name, then by column name. -/
instance : LinearOrder TableColumn := LinearOrder.lift' key key_injective

end TableColumn

structure EqualSet where
  entries : OrdSet TableColumn
  deriving DecidableEq

namespace EqualSet

instance : LinearOrder EqualSet :=
  LinearOrder.lift' entries fun s t h => by cases s; cases t; congr

instance : Inhabited EqualSet := ⟨⟨∅⟩⟩

/-! ## Serialisation -/

def hexDigit (n : ℕ) : Char := Char.ofNat (if n < 10 then 48 + n else 87 + n)

/-- A character of a JSON string. -/
def escape (c : Char) : String :=
  if c = '"' then "\\\""
  else if c = '\\' then "\\\\"
  else if c.toNat = 8 then "\\b"
  else if c.toNat = 9 then "\\t"
  else if c.toNat = 10 then "\\n"
  else if c.toNat = 12 then "\\f"
  else if c.toNat = 13 then "\\r"
  else if c.toNat < 32 ∨ c.toNat = 127 then
    "\\u00" ++ String.ofList [hexDigit (c.toNat / 16), hexDigit (c.toNat % 16)]
  else String.ofList [c]

def quote (s : String) : String := "\"" ++ String.join (s.toList.map escape) ++ "\""

def serializeEntry (c : TableColumn) : String :=
  "\x7b\"ColumnName\":" ++ quote c.columnName ++ ",\"TableName\":" ++ quote c.tableName ++ "\x7d"

/-- The compact JSON text; without entries the object is never created. -/
def serialize (e : EqualSet) : String :=
  if e.entries.toList = [] then "null"
  else "\x7b\"Entries\":[" ++ ",".intercalate (e.entries.toList.map serializeEntry) ++ "]\x7d"

/-! ## Subsets -/

/-- `{(table, "")}`. -/
def ofTable (table : Table) : EqualSet := ⟨OrdSet.insert ⟨table, ""⟩ ∅⟩

/-- A set with one entry is replaced by its table. -/
def nameTable (e : EqualSet) : EqualSet :=
  match e.entries.toList with
  | [c] => ofTable c.tableName
  | _ => e

/-- The entries, the first of which has index `i`, whose bit is set in `s`. -/
def pick (s : ℕ) : ℕ → List TableColumn → OrdSet TableColumn → OrdSet TableColumn
  | _, [], acc => acc
  | i, c :: l, acc => pick s (i + 1) l (if s.testBit i then acc.insert c else acc)

def subsetOf (e : EqualSet) (s : ℕ) : EqualSet := ⟨pick s 0 e.entries.toList ∅⟩

/-- The masks are natural numbers. The code's are `int`, the same masks for at most 30 entries;
from 31 on the shift `1 << size` overflows. -/
def getAllSubset (e : EqualSet) : List EqualSet :=
  (List.range (2 ^ e.entries.size)).map fun s => (e.subsetOf s).nameTable

/-- The masks are read as those of `getAllSubset`, for at most 30 entries. -/
def getAllSubsetLimitSize (e : EqualSet) (sizeLimit : ℕ) : List EqualSet :=
  (List.range (2 ^ e.entries.size)).filterMap fun s =>
    if sizeLimit < (e.subsetOf s).entries.size then none else some (e.subsetOf s).nameTable

/-- The loop of `split` over the entries not yet in a chunk. -/
def splitLoop (maxSize : ℤ) : ℕ → ℤ → List TableColumn → List EqualSet
  | 0, _, _ => []
  | _ + 1, _, [] => []
  | fuel + 1, remain, l =>
    let size := if remain - maxSize = 1 then maxSize - 1 else maxSize
    nameTable ⟨OrdSet.ofList (l.take size.toNat)⟩ ::
      splitLoop maxSize fuel (remain - size) (l.drop size.toNat)

def split (e : EqualSet) (maxSize : ℤ) : Except Error (List EqualSet) :=
  if maxSize < 3 then .error (.runtimeError "maxSize must be at least 3")
  else .ok (splitLoop maxSize e.entries.size e.entries.size e.entries.toList)

def getTableList (e : EqualSet) : List Table := e.entries.toList.map (·.tableName)

/-! ## What the subsets are -/

theorem ext_entries {e f : EqualSet} (h : ∀ c, c ∈ e.entries ↔ c ∈ f.entries) : e = f := by
  cases e; cases f; exact congrArg _ (OrdSet.ext_mem h)

theorem mem_pick {s : ℕ} {c : TableColumn} {i : ℕ} {l : List TableColumn}
    {acc : OrdSet TableColumn} :
    c ∈ pick s i l acc ↔ c ∈ acc ∨ ∃ j, l[j]? = some c ∧ s.testBit (i + j) = true := by
  induction l generalizing i acc with
  | nil => simp [pick]
  | cons d l ih =>
    rw [pick, ih]
    constructor
    · rintro (h | ⟨j, hj, hb⟩)
      · split at h
        · next hd =>
          rcases OrdSet.mem_insert.mp h with rfl | h
          · exact .inr ⟨0, rfl, hd⟩
          · exact .inl h
        · exact .inl h
      · exact .inr ⟨j + 1, hj, by rwa [Nat.add_comm j, ← Nat.add_assoc]⟩
    · rintro (h | ⟨j, hj, hb⟩)
      · refine .inl ?_
        split
        · exact OrdSet.mem_insert.mpr (.inr h)
        · exact h
      · cases j with
        | zero =>
          obtain rfl : d = c := by simpa using hj
          exact .inl (by rw [if_pos (by simpa using hb)]; exact OrdSet.mem_insert.mpr (.inl rfl))
        | succ j => exact .inr ⟨j, hj, by rwa [Nat.add_right_comm]⟩

theorem mem_subsetOf {e : EqualSet} {s : ℕ} {c : TableColumn} :
    c ∈ (e.subsetOf s).entries ↔ ∃ j, e.entries.toList[j]? = some c ∧ s.testBit j = true := by
  simp [subsetOf, mem_pick]

def Subset (f e : EqualSet) : Prop := ∀ c ∈ f.entries, c ∈ e.entries

theorem subsetOf_subset (e : EqualSet) (s : ℕ) : (e.subsetOf s).Subset e := by
  intro c hc
  obtain ⟨j, hj, _⟩ := mem_subsetOf.mp hc
  exact List.mem_of_getElem? hj

/-- Every part of the entries has a bit mask. -/
theorem exists_subsetOf {e f : EqualSet} (h : f.Subset e) :
    ∃ s < 2 ^ e.entries.size, e.subsetOf s = f := by
  refine ⟨Nat.ofBits fun j : Fin e.entries.size => decide (e.entries.toList.get j ∈ f.entries),
    Nat.ofBits_lt_two_pow _, ext_entries fun c => ?_⟩
  rw [mem_subsetOf]
  constructor
  · rintro ⟨j, hj, hb⟩
    obtain ⟨hlt, rfl⟩ := List.getElem?_eq_some_iff.mp hj
    simpa [Nat.testBit_ofBits, OrdSet.size, hlt] using hb
  · intro hc
    obtain ⟨j, hlt, rfl⟩ := List.mem_iff_getElem.mp (h c hc)
    refine ⟨j, List.getElem?_eq_getElem hlt, ?_⟩
    simpa [Nat.testBit_ofBits, OrdSet.size, hlt] using hc

theorem mem_getAllSubset {e k : EqualSet} :
    k ∈ e.getAllSubset ↔ ∃ f : EqualSet, f.Subset e ∧ f.nameTable = k := by
  simp only [getAllSubset, List.mem_map, List.mem_range]
  constructor
  · rintro ⟨s, _, rfl⟩; exact ⟨_, subsetOf_subset e s, rfl⟩
  · rintro ⟨f, hf, rfl⟩
    obtain ⟨s, hs, rfl⟩ := exists_subsetOf hf
    exact ⟨s, hs, rfl⟩

theorem mem_getAllSubsetLimitSize {e k : EqualSet} {n : ℕ} :
    k ∈ e.getAllSubsetLimitSize n ↔
      ∃ f : EqualSet, f.Subset e ∧ f.entries.size ≤ n ∧ f.nameTable = k := by
  simp only [getAllSubsetLimitSize, List.mem_filterMap, List.mem_range]
  constructor
  · rintro ⟨s, _, h⟩
    split at h
    · cases h
    · next hs => exact ⟨_, subsetOf_subset e s, not_lt.mp hs, Option.some.inj h⟩
  · rintro ⟨f, hf, hn, rfl⟩
    obtain ⟨s, hs, rfl⟩ := exists_subsetOf hf
    exact ⟨s, hs, by rw [if_neg (not_lt.mpr hn)]⟩

/-- Different masks pick different parts. -/
theorem subsetOf_injOn (e : EqualSet) {s s' : ℕ} (hs : s < 2 ^ e.entries.size)
    (hs' : s' < 2 ^ e.entries.size) (h : e.subsetOf s = e.subsetOf s') : s = s' := by
  have key : ∀ {s s' : ℕ}, e.subsetOf s = e.subsetOf s' → ∀ j < e.entries.toList.length,
      s.testBit j = true → s'.testBit j = true := by
    intro s s' h j hj hb
    have hc := mem_subsetOf.mpr ⟨j, List.getElem?_eq_getElem hj, hb⟩
    obtain ⟨i, hi, hb'⟩ := mem_subsetOf.mp (h ▸ hc)
    obtain ⟨hlt, he⟩ := List.getElem?_eq_some_iff.mp hi
    rwa [← (e.entries.nodup.getElem_inj_iff).mp he]
  refine Nat.eq_of_testBit_eq fun j => ?_
  by_cases hj : j < e.entries.toList.length
  · exact Bool.eq_iff_iff.mpr ⟨key h j hj, key h.symm j hj⟩
  · have hpow : 2 ^ e.entries.size ≤ 2 ^ j := Nat.pow_le_pow_right (by omega) (not_lt.mp hj)
    rw [Nat.testBit_lt_two_pow (hs.trans_le hpow), Nat.testBit_lt_two_pow (hs'.trans_le hpow)]

/-- The parts of the entries, by their masks. -/
def parts (e : EqualSet) : List EqualSet := (List.range (2 ^ e.entries.size)).map e.subsetOf

theorem nodup_parts (e : EqualSet) : e.parts.Nodup :=
  List.Nodup.map_on (fun _ hs _ hs' h =>
    subsetOf_injOn e (List.mem_range.mp hs) (List.mem_range.mp hs') h) List.nodup_range

theorem mem_parts {e f : EqualSet} : f ∈ e.parts ↔ f.Subset e := by
  simp only [parts, List.mem_map, List.mem_range]
  constructor
  · rintro ⟨s, _, rfl⟩; exact subsetOf_subset e s
  · exact exists_subsetOf

theorem getAllSubset_eq (e : EqualSet) : e.getAllSubset = e.parts.map nameTable := by
  rw [getAllSubset, parts, List.map_map]
  rfl

theorem getAllSubsetLimitSize_eq (e : EqualSet) (n : ℕ) :
    e.getAllSubsetLimitSize n = (e.parts.filter fun f => f.entries.size ≤ n).map nameTable := by
  rw [getAllSubsetLimitSize, parts, List.filter_map, List.map_map]
  induction List.range (2 ^ e.entries.size) with
  | nil => rfl
  | cons s l ih =>
    rw [List.filterMap_cons, List.filter_cons]
    by_cases h : n < (e.subsetOf s).entries.size
    · simp [h, ih, not_le.mpr h]
    · simp [h, ih, not_lt.mp h]

theorem nameTable_of_two_le {e : EqualSet} (h : 2 ≤ e.entries.size) : e.nameTable = e := by
  unfold nameTable
  split
  · next c hc => simp [OrdSet.size, hc] at h
  · rfl

/-- A key stands for a table, or is the part of the entries itself. -/
theorem nameTable_cases (e : EqualSet) :
    (∃ c, e.entries.toList = [c] ∧ e.nameTable = ofTable c.tableName) ∨
      e.entries.size ≠ 1 ∧ e.nameTable = e := by
  unfold nameTable
  split
  · next c hc => exact .inl ⟨c, hc, rfl⟩
  · next h =>
    refine .inr ⟨fun hs => ?_, rfl⟩
    obtain ⟨c, hc⟩ := List.length_eq_one_iff.mp hs
    exact h c hc

theorem getTableList_ofTable (t : Table) : (ofTable t).getTableList = [t] := rfl

theorem getTableList_nameTable (e : EqualSet) : e.nameTable.getTableList = e.getTableList := by
  rcases e.nameTable_cases with ⟨c, hc, he⟩ | ⟨-, he⟩
  · rw [he, getTableList, getTableList, hc]
    rfl
  · rw [he]

/-! ## What the chunks are -/

section Split

variable {maxSize : ℤ}

theorem splitLoop_nil (fuel : ℕ) (remain : ℤ) : splitLoop maxSize fuel remain [] = [] := by
  cases fuel <;> rfl

/-- The entries of a chunk that keeps its name. -/
theorem toList_nameTable_ofList {l : List TableColumn} (hl : l.Pairwise (· < ·))
    (h : 2 ≤ l.length) : (nameTable ⟨OrdSet.ofList l⟩).entries.toList = l := by
  rw [nameTable_of_two_le (by rwa [OrdSet.size, OrdSet.toList_ofList hl]), OrdSet.toList_ofList hl]

/-- While more than one chunk is left, a chunk leaves at least two entries behind. -/
theorem splitLoop_cons (hM : 3 ≤ maxSize) (fuel : ℕ) {l : List TableColumn}
    (hlen : maxSize < l.length) :
    ∃ n : ℕ, 2 ≤ n ∧ (n : ℤ) ≤ maxSize ∧ maxSize - 1 ≤ n ∧ n + 2 ≤ l.length ∧
      ((n : ℤ) < maxSize → (l.length : ℤ) = maxSize + 1) ∧
      splitLoop maxSize (fuel + 1) l.length l =
        nameTable ⟨OrdSet.ofList (l.take n)⟩ ::
          splitLoop maxSize fuel ((l.drop n).length : ℤ) (l.drop n) := by
  rw [splitLoop.eq_3 _ _ _ _ (by rintro rfl; simp at hlen; omega)]
  set size := if (l.length : ℤ) - maxSize = 1 then maxSize - 1 else maxSize with hsize
  have hs : size = maxSize - 1 ∧ (l.length : ℤ) = maxSize + 1 ∨
      size = maxSize ∧ maxSize + 2 ≤ (l.length : ℤ) := by
    rw [hsize]; split <;> omega
  refine ⟨size.toNat, by omega, by omega, by omega, by omega, by omega, ?_⟩
  rw [List.length_drop, Nat.cast_sub (by omega), Int.toNat_of_nonneg (by omega)]

theorem splitLoop_of_le (fuel : ℕ) {l : List TableColumn} (hM : 3 ≤ maxSize) (h0 : l ≠ [])
    (hlen : (l.length : ℤ) ≤ maxSize) :
    splitLoop maxSize (fuel + 1) l.length l = [nameTable ⟨OrdSet.ofList l⟩] := by
  rw [splitLoop.eq_3 _ _ _ _ h0, if_neg (by omega), List.take_of_length_le (by omega),
    List.drop_of_length_le (by omega), splitLoop_nil]

/-- The chunks are the entries in order, cut into parts of two to `maxSize` entries. -/
structure Chunks (maxSize : ℤ) (l : List TableColumn) (chunks : List EqualSet) : Prop where
  flatten : chunks.flatMap (·.entries.toList) = l
  size : ∀ c ∈ chunks, 2 ≤ c.entries.size ∧ (c.entries.size : ℤ) ≤ maxSize
  one_iff : chunks.length ≤ 1 ↔ (l.length : ℤ) ≤ maxSize
  two_iff : chunks.length ≤ 2 ↔ (l.length : ℤ) ≤ 2 * maxSize

theorem Chunks.subset {e : EqualSet} {chunks : List EqualSet}
    (h : Chunks maxSize e.entries.toList chunks) {c : EqualSet} (hc : c ∈ chunks) :
    c.Subset e := fun x hx => by
  rw [OrdSet.mem_def, ← h.flatten]
  exact List.mem_flatMap.mpr ⟨c, hc, hx⟩

theorem splitLoop_chunks (hM : 3 ≤ maxSize) (fuel : ℕ) {l : List TableColumn}
    (hl : l.Pairwise (· < ·)) (h1 : l.length ≠ 1) (hf : l.length ≤ fuel) :
    Chunks maxSize l (splitLoop maxSize fuel l.length l) := by
  induction fuel generalizing l with
  | zero =>
    obtain rfl := List.eq_nil_of_length_eq_zero (Nat.le_zero.mp hf)
    exact ⟨rfl, by simp [splitLoop], by simp [splitLoop]; omega, by simp [splitLoop]; omega⟩
  | succ fuel ih =>
    by_cases h0 : l = []
    · subst h0
      exact ⟨rfl, by simp [splitLoop], by simp [splitLoop]; omega, by simp [splitLoop]; omega⟩
    have hpos := List.length_pos_of_ne_nil h0
    by_cases hlen : (l.length : ℤ) ≤ maxSize
    · have hent := toList_nameTable_ofList hl (by omega)
      rw [splitLoop_of_le fuel hM h0 hlen]
      refine ⟨by simp [hent], ?_, by simp; omega, by simp; omega⟩
      simp only [List.mem_singleton, forall_eq, OrdSet.size, hent]
      omega
    · obtain ⟨n, hn2, hnM, hnM', hrest, hcut, heq⟩ := splitLoop_cons hM fuel (not_le.mp hlen)
      have hlt : (l.take n).length = n := by rw [List.length_take]; omega
      have hent := toList_nameTable_ofList (hl.sublist (List.take_sublist n l)) (by omega)
      have hd : (l.drop n).length = l.length - n := List.length_drop
      obtain ⟨hflat, hsize, hone, htwo⟩ := ih (hl.sublist (List.drop_sublist n l)) (by omega)
        (by omega)
      have hpos' : 0 < (splitLoop maxSize fuel ((l.drop n).length : ℤ) (l.drop n)).length := by
        refine List.length_pos_of_ne_nil fun h => ?_
        rw [h] at hflat
        rw [← hflat] at hd
        simp at hd
        omega
      rw [heq]
      refine ⟨?_, List.forall_mem_cons.mpr ⟨?_, hsize⟩, ?_, ?_⟩
      · rw [List.flatMap_cons, hflat, hent, List.take_append_drop]
      · rw [OrdSet.size, hent, hlt]; exact ⟨hn2, hnM⟩
      · rw [List.length_cons]; omega
      · rw [List.length_cons, Nat.succ_le_succ_iff, hone, hd]; omega

theorem split_chunks (hM : 3 ≤ maxSize) {e : EqualSet} (h : e.entries.size ≠ 1) :
    ∃ chunks, e.split maxSize = .ok chunks ∧ Chunks maxSize e.entries.toList chunks :=
  ⟨_, by rw [split, if_neg (by omega)]; rfl, splitLoop_chunks hM _ e.entries.sorted h le_rfl⟩

/-- The entries the first chunk gets. -/
def firstChunk (e : EqualSet) (maxSize : ℤ) : List TableColumn :=
  e.entries.toList.take
    (if (e.entries.size : ℤ) - maxSize = 1 then maxSize - 1 else maxSize).toNat

theorem head_split {e c : EqualSet} {chunks : List EqualSet}
    (h : e.split maxSize = .ok (c :: chunks)) :
    c.getTableList = (e.firstChunk maxSize).map (·.tableName) := by
  unfold split at h
  split at h
  · cases h
  · have h := Except.ok.inj h
    cases hl : e.entries.toList with
    | nil => rw [hl, splitLoop_nil] at h; cases h
    | cons x l =>
      have hs : e.entries.size = l.length + 1 := by rw [OrdSet.size, hl]; rfl
      rw [hs, hl, splitLoop.eq_3 _ _ _ _ (by simp)] at h
      rw [← (List.cons.inj h).1, getTableList_nameTable, getTableList, firstChunk, hs, hl,
        OrdSet.toList_ofList ((hl ▸ e.entries.sorted).sublist (List.take_sublist _ _))]

/-- A table is its own only chunk. -/
theorem split_ofTable (hM : 3 ≤ maxSize) (table : Table) :
    (ofTable table).split maxSize = .ok [ofTable table] := by
  have hone := splitLoop_of_le (l := [⟨table, ""⟩]) 0 hM (by simp) (by simp; omega)
  rw [split, if_neg (by omega)]
  exact congrArg Except.ok hone

end Split

end EqualSet

end StarCE
