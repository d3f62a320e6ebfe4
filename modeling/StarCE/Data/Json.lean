import StarCE.Data.Loop
import StarCE.Data.Ordered

/-!
# JSON values

The values of a JSON library, with the few operations an encoder and a decoder
use: a value is built by `set` and `pushBack` from `null` and read back by
`lookup` and `items`. Writing a value as text and reading it is left to the
library itself (`JsonLibrary`); `RoundTrips` says that it restores a value.
-/

namespace StarCE

/-- Numbers are integers or elements of `K`. The fields of an object are ordered by their keys. -/
inductive Json (K : Type) where
  | null
  | bool (b : Bool)
  | int (n : ℤ)
  | num (x : K)
  | str (s : String)
  | arr (l : List (Json K))
  | obj (fields : List (String × Json K))

/-- The exceptions: a text that is not JSON, a value of another type, a missing key. -/
inductive JsonError where
  | parseError
  | typeError
  | outOfRange
  deriving DecidableEq, Repr

structure JsonLibrary (K : Type) where
  dump : Json K → Except JsonError String
  parse : String → Except JsonError (Json K)

/-- The value is written, and reading the text gives an equal value. -/
def JsonLibrary.RoundTrips {K : Type} (lib : JsonLibrary K) (j : Json K) : Prop :=
  ∃ text, lib.dump j = .ok text ∧ lib.parse text = .ok j

namespace Json

variable {K α : Type}

instance : Inhabited (Json K) := ⟨null⟩

/-! ## Building -/

/-- An initializer list of pairs. -/
def object (pairs : List (String × Json K)) : Json K :=
  .obj (pairs.foldr (fun p fields => upsert Prod.fst p fields) [])

def pushBack (j v : Json K) : Except JsonError (Json K) :=
  match j with
  | .null => .ok (.arr [v])
  | .arr l => .ok (.arr (l ++ [v]))
  | _ => .error .typeError

def find? (j : Json K) (key : String) : Option (Json K) :=
  match j with
  | .obj fields => (fields.find? fun p => p.1 = key).map (·.2)
  | _ => none

/-- `j[key] = v`, where `null` becomes an object. -/
def set (j : Json K) (key : String) (v : Json K) : Except JsonError (Json K) :=
  match j with
  | .null => .ok (.obj [(key, v)])
  | .obj fields => .ok (.obj (upsert Prod.fst (key, v) fields))
  | _ => .error .typeError

/-- `j[key].push_back(v)`, where a missing element is `null`. -/
def pushBackAt (j : Json K) (key : String) (v : Json K) : Except JsonError (Json K) := do
  let items ← ((j.find? key).getD .null).pushBack v
  j.set key items

/-! ## Reading -/

/-- `j.at(key)` -/
def lookup (j : Json K) (key : String) : Except JsonError (Json K) :=
  match j with
  | .obj fields =>
    match fields.find? fun p => p.1 = key with
    | some p => .ok p.2
    | none => .error .outOfRange
  | _ => .error .typeError

/-- What `for (const auto &v : j)` goes through. -/
def items : Json K → List (Json K)
  | .null => []
  | .arr l => l
  | .obj fields => fields.map (·.2)
  | j => [j]

def getString : Json K → Except JsonError String
  | .str s => .ok s
  | _ => .error .typeError

/-- `get<double>` -/
def getDouble [IntCast K] : Json K → Except JsonError K
  | .num x => .ok x
  | .int n => .ok n
  | _ => .error .typeError

/-- `get<int64_t>`, where `trunc` converts a double. -/
def getInt (trunc : K → ℤ) : Json K → Except JsonError ℤ
  | .num x => .ok (trunc x)
  | .int n => .ok n
  | _ => .error .typeError

/-! ## Objects -/

variable {j : Json K} {key : String} {v : Json K}

theorem lookup_of_find? (h : j.find? key = some v) : j.lookup key = .ok v := by
  cases j with
  | obj fields =>
    obtain ⟨p, hp, rfl⟩ := Option.map_eq_some_iff.mp h
    rw [lookup, hp]
  | _ => cases h

/-- A value that elements can be set in. -/
inductive Fillable : Json K → Prop
  | null : Fillable .null
  | obj (fields : List (String × Json K)) : Fillable (.obj fields)

theorem find?_set (h : j.Fillable) (key : String) (v : Json K) :
    ∃ j', j.set key v = .ok j' ∧ j'.Fillable ∧
      ∀ k, j'.find? k = if k = key then some v else j.find? k := by
  cases h with
  | null =>
    refine ⟨_, rfl, .obj _, fun k => ?_⟩
    by_cases hk : k = key <;> simp [find?, hk, eq_comm]
  | obj fields =>
    refine ⟨_, rfl, .obj _, fun k => ?_⟩
    exact find?_upsert fields key k v

theorem find?_object (pairs : List (String × Json K)) (key : String) :
    (object pairs).find? key = (pairs.find? fun p => p.1 = key).map (·.2) := by
  induction pairs with
  | nil => rfl
  | cons p pairs ih =>
    refine (find?_upsert _ p.1 key p.2).trans ?_
    rw [List.find?_cons]
    by_cases h : key = p.1
    · simp [h]
    · rw [if_neg h, decide_eq_false (Ne.symm h)]
      exact ih

/-! ## Arrays -/

/-- What pushing the elements of a list on `null` gives. -/
def ofItems (l : List (Json K)) : Json K := if l = [] then .null else .arr l

@[simp] theorem items_ofItems (l : List (Json K)) : (ofItems l).items = l := by
  unfold ofItems
  split
  · next h => rw [h]; rfl
  · rfl

/-- The array of a key that something was pushed on is there. -/
theorem lookup_of_ofItems {l : List (Json K)} (h : (j.find? key).getD .null = ofItems l)
    (hne : l ≠ []) : ∃ v, j.lookup key = .ok v ∧ v.items = l := by
  cases hv : j.find? key with
  | some v =>
    rw [hv] at h
    exact ⟨v, lookup_of_find? hv, by rw [show v = ofItems l from h, items_ofItems]⟩
  | none =>
    rw [hv] at h
    have hnil := congrArg items h
    rw [items_ofItems] at hnil
    exact absurd hnil.symm hne

theorem pushBack_ofItems (l : List (Json K)) (v : Json K) :
    (ofItems l).pushBack v = .ok (ofItems (l ++ [v])) := by
  cases l <;> rfl

theorem foldlM_pushBack (f : α → Json K) (l : List α) :
    l.foldlM (fun j a => j.pushBack (f a)) Json.null = .ok (ofItems (l.map f)) := by
  have hrun : ∃ j, l.foldlM (fun j a => j.pushBack (f a)) Json.null = .ok j ∧
      j = ofItems (l.map f) := by
    refine foldlM_inv (fun l j => j = ofItems (l.map f)) rfl ?_
    rintro done a _ - rfl
    exact ⟨_, pushBack_ofItems _ _, by rw [List.map_append]; rfl⟩
  obtain ⟨_, hj, rfl⟩ := hrun
  exact hj

/-- Pushing on an element that is not there yet. -/
theorem foldlM_pushBackAt (key : String) {f : α → Except JsonError (Json K)} {g : α → Json K} {l : List α}
    (h : j.Fillable) (hkey : j.find? key = none) (hf : ∀ a ∈ l, f a = .ok (g a)) :
    ∃ j', l.foldlM (fun j a => do let v ← f a; j.pushBackAt key v) j = .ok j' ∧ j'.Fillable ∧
      (∀ k, k ≠ key → j'.find? k = j.find? k) ∧
      (j'.find? key).getD .null = ofItems (l.map g) := by
  refine foldlM_inv (fun l (j' : Json K) => j'.Fillable ∧ (∀ k, k ≠ key → j'.find? k = j.find? k) ∧
    (j'.find? key).getD .null = ofItems (l.map g)) ⟨h, fun _ _ => rfl, by rw [hkey]; rfl⟩ ?_
  rintro done a j' ha ⟨hj', hother, hitems⟩
  obtain ⟨j'', hset, hj'', hfind⟩ := find?_set hj' key (ofItems (done.map g ++ [g a]))
  refine ⟨j'', ?_, hj'', fun k hk => by rw [hfind, if_neg hk, hother k hk], by simp [hfind]⟩
  rw [hf a ha]
  change (((j'.find? key).getD .null).pushBack (g a) >>= fun items => j'.set key items) = _
  rw [hitems, pushBack_ofItems]
  exact hset

/-! ## Texts -/

section Text

variable (double : K → String) (quote : String → String)

mutual

/-- The compact text of a value. -/
def text : Json K → String
  | .null => "null"
  | .bool b => if b then "true" else "false"
  | .int n => toString n
  | .num x => double x
  | .str s => quote s
  | .arr l => "[" ++ texts l ++ "]"
  | .obj fields => "\x7b" ++ fieldTexts fields ++ "\x7d"

def texts : List (Json K) → String
  | [] => ""
  | [j] => text j
  | j :: j' :: l => text j ++ "," ++ texts (j' :: l)

def fieldTexts : List (String × Json K) → String
  | [] => ""
  | [p] => fieldText p
  | p :: p' :: l => fieldText p ++ "," ++ fieldTexts (p' :: l)

def fieldText : String × Json K → String
  | (key, j) => quote key ++ ":" ++ text j

end

/-- A library on the values of a table. -/
def tableLibrary (table : List (Json K)) : JsonLibrary K where
  dump j := .ok (text double quote j)
  parse str :=
    match table.find? fun j => text double quote j = str with
    | some j => .ok j
    | none => .error .parseError

/-- It restores them if their texts differ. -/
theorem roundTrips_tableLibrary {table : List (Json K)} (h : (table.map (text double quote)).Nodup)
    (hj : j ∈ table) : (tableLibrary double quote table).RoundTrips j := by
  refine ⟨text double quote j, rfl, ?_⟩
  have hfind : table.find? (fun i => text double quote i = text double quote j) = some j := by
    induction table with
    | nil => cases hj
    | cons i table ih =>
      obtain ⟨hi, hn⟩ := List.nodup_cons.mp (List.map_cons ▸ h)
      rcases List.mem_cons.mp hj with rfl | hj
      · simp
      · have hne : text double quote i ≠ text double quote j := fun he =>
          hi (he ▸ List.mem_map_of_mem hj)
        rw [List.find?_cons, decide_eq_false hne]
        exact ih hn hj
  show (match table.find? fun i => text double quote i = text double quote j with
    | some j => Except.ok j
    | none => .error JsonError.parseError) = .ok j
  rw [hfind]

end Text

end Json

end StarCE
