import Mathlib

/-!
# Ordered containers

`OrdSet α` is a strictly increasing list and `OrdMap κ ν` an association list
with strictly increasing keys: `std::set` and `std::map`, iterated in key
order. Both are extensional (`OrdSet.ext_mem`, `OrdMap.ext_find?`), so a
container is known from its members or its lookups alone.
-/

namespace StarCE

section Upsert

variable {κ β : Type} [LinearOrder κ] (key : β → κ)

/-- Insert `b` at its key's place, replacing an entry with the same key. -/
def upsert (b : β) : List β → List β
  | [] => [b]
  | c :: l =>
    if key b < key c then b :: c :: l
    else if key c < key b then c :: upsert b l
    else b :: l

variable {key}

theorem mem_upsert_key {b c : β} {l : List β} (h : c ∈ upsert key b l) : c = b ∨ c ∈ l := by
  induction l with
  | nil => exact .inl (by simpa [upsert] using h)
  | cons d l ih =>
    simp only [upsert] at h
    split at h
    · simpa using h
    · split at h
      · rcases List.mem_cons.mp h with rfl | h
        · simp
        · rcases ih h with h | h <;> simp [h]
      · rcases List.mem_cons.mp h with rfl | h <;> simp [*]

theorem pairwise_upsert {b : β} {l : List β} (h : l.Pairwise fun x y => key x < key y) :
    (upsert key b l).Pairwise fun x y => key x < key y := by
  induction l with
  | nil => simp [upsert]
  | cons d l ih =>
    obtain ⟨hd, hl⟩ := List.pairwise_cons.mp h
    simp only [upsert]
    split
    · next hlt =>
      refine List.pairwise_cons.mpr ⟨fun x hx => ?_, h⟩
      rcases List.mem_cons.mp hx with rfl | hx
      · exact hlt
      · exact hlt.trans (hd x hx)
    · split
      · next hlt =>
        refine List.pairwise_cons.mpr ⟨fun x hx => ?_, ih hl⟩
        rcases mem_upsert_key hx with rfl | hx
        · exact hlt
        · exact hd x hx
      · next h1 h2 =>
        have he : key b = key d := le_antisymm (not_lt.mp h2) (not_lt.mp h1)
        exact List.pairwise_cons.mpr ⟨fun x hx => he ▸ hd x hx, hl⟩

end Upsert

/-- Looking a key up after a value has been put at one. -/
theorem find?_upsert {κ ν : Type} [LinearOrder κ] (l : List (κ × ν)) (k k' : κ) (v : ν) :
    ((upsert Prod.fst (k, v) l).find? fun p => p.1 = k').map (·.2) =
      if k' = k then some v else (l.find? fun p => p.1 = k').map (·.2) := by
  induction l with
  | nil => by_cases h : k = k' <;> simp [upsert, h, eq_comm]
  | cons c l ih =>
    simp only [upsert]
    split
    · by_cases h : k = k'
      · simp [h]
      · simp [List.find?_cons_of_neg, h, Ne.symm h]
    · split
      · next hlt =>
        by_cases hc : c.1 = k'
        · simp [hc, (hc ▸ hlt.ne : k' ≠ k)]
        · simpa [List.find?_cons, hc] using ih
      · next h1 h2 =>
        have he : k = c.1 := le_antisymm (not_lt.mp h2) (not_lt.mp h1)
        subst he
        by_cases h : c.1 = k'
        · simp [h]
        · simp [List.find?_cons_of_neg, h, Ne.symm h]

/-! ## Sets -/

/-- A strictly increasing list. -/
structure OrdSet (α : Type) [LinearOrder α] where
  toList : List α
  sorted : toList.Pairwise (· < ·)
  deriving DecidableEq

namespace OrdSet

variable {α : Type} [LinearOrder α]

instance : EmptyCollection (OrdSet α) := ⟨⟨[], .nil⟩⟩

instance : Inhabited (OrdSet α) := ⟨∅⟩

instance : Membership α (OrdSet α) := ⟨fun s a => a ∈ s.toList⟩

instance (a : α) (s : OrdSet α) : Decidable (a ∈ s) := inferInstanceAs (Decidable (a ∈ s.toList))

instance : LinearOrder (OrdSet α) :=
  LinearOrder.lift' toList fun s t h => by cases s; cases t; congr

def insert (a : α) (s : OrdSet α) : OrdSet α := ⟨upsert id a s.toList, pairwise_upsert s.sorted⟩

def ofList (l : List α) : OrdSet α := l.foldl (fun s a => s.insert a) ∅

def union (s t : OrdSet α) : OrdSet α := t.toList.foldl (fun s a => s.insert a) s

def size (s : OrdSet α) : ℕ := s.toList.length

theorem mem_def {a : α} {s : OrdSet α} : a ∈ s ↔ a ∈ s.toList := Iff.rfl

@[simp] theorem mem_mk {a : α} {l : List α} (h : l.Pairwise (· < ·)) :
    a ∈ (⟨l, h⟩ : OrdSet α) ↔ a ∈ l := Iff.rfl

@[simp] theorem not_mem_empty (a : α) : a ∉ (∅ : OrdSet α) := by
  rw [mem_def]; exact List.not_mem_nil

@[simp] theorem toList_empty : (∅ : OrdSet α).toList = [] := rfl

@[simp] theorem mem_insert {a b : α} {s : OrdSet α} : a ∈ s.insert b ↔ a = b ∨ a ∈ s := by
  simp only [mem_def, insert]
  induction s.toList with
  | nil => simp [upsert]
  | cons c l ih =>
    simp only [upsert, id]
    split
    · simp
    · split
      · simp only [List.mem_cons, ih]; exact or_left_comm
      · next h1 h2 =>
        have : b = c := le_antisymm (not_lt.mp h2) (not_lt.mp h1)
        subst this; simp

theorem nodup (s : OrdSet α) : s.toList.Nodup := s.sorted.imp ne_of_lt

theorem ext_mem {s t : OrdSet α} (h : ∀ a, a ∈ s ↔ a ∈ t) : s = t := by
  have hp : s.toList.Perm t.toList := (List.perm_ext_iff_of_nodup s.nodup t.nodup).mpr h
  have he : s.toList = t.toList :=
    List.Perm.eq_of_pairwise (fun _ _ _ _ h1 h2 => absurd h1 (lt_asymm h2)) s.sorted t.sorted hp
  cases s; cases t; congr

theorem mem_foldl_insert {a : α} (l : List α) (s : OrdSet α) :
    a ∈ l.foldl (fun s a => s.insert a) s ↔ a ∈ s ∨ a ∈ l := by
  induction l generalizing s with
  | nil => simp
  | cons b l ih =>
    rw [List.foldl_cons, ih, mem_insert, List.mem_cons, or_comm (a := a = b), or_assoc]

@[simp] theorem mem_union {a : α} {s t : OrdSet α} : a ∈ s.union t ↔ a ∈ s ∨ a ∈ t :=
  mem_foldl_insert t.toList s

@[simp] theorem mem_ofList {a : α} {l : List α} : a ∈ ofList l ↔ a ∈ l := by
  rw [ofList, mem_foldl_insert]; simp

/-- Inserting an increasing list rebuilds it. -/
theorem ofList_eq {l : List α} (h : l.Pairwise (· < ·)) : ofList l = ⟨l, h⟩ :=
  ext_mem fun _ => by simp

theorem one_lt_size_iff {s : OrdSet α} : 1 < s.size ↔ ({a | a ∈ s} : Set α).Nontrivial := by
  obtain ⟨l, hs⟩ := s
  match l, hs with
  | [], _ => simp [size]
  | [a], _ =>
    refine iff_of_false (by simp [size]) fun ⟨x, hx, y, hy, hne⟩ => hne ?_
    rw [List.mem_singleton.mp hx, List.mem_singleton.mp hy]
  | a :: b :: l, hs =>
    have hab : a < b := (List.pairwise_cons.mp hs).1 b (.head _)
    exact iff_of_true (by simp [size]) ⟨a, .head _, b, .tail _ (.head _), hab.ne⟩

theorem toList_ofList {l : List α} (h : l.Pairwise (· < ·)) : (ofList l).toList = l := by
  rw [ofList_eq h]

end OrdSet

/-! ## Maps -/

/-- An association list with strictly increasing keys. -/
structure OrdMap (κ ν : Type) [LinearOrder κ] where
  toList : List (κ × ν)
  sorted : toList.Pairwise fun p q => p.1 < q.1

namespace OrdMap

variable {κ ν : Type} [LinearOrder κ]

instance : EmptyCollection (OrdMap κ ν) := ⟨⟨[], .nil⟩⟩

instance : Inhabited (OrdMap κ ν) := ⟨∅⟩

/-- Lexicographic, as for `std::map`. -/
instance [LinearOrder ν] : LinearOrder (OrdMap κ ν) :=
  LinearOrder.lift' (fun m => (m.toList.map toLex : List (κ ×ₗ ν))) fun m m' h => by
    have : m.toList = m'.toList := List.map_injective_iff.mpr toLex.injective h
    cases m; cases m'; congr

def find? (m : OrdMap κ ν) (k : κ) : Option ν := (m.toList.find? fun p => p.1 = k).map (·.2)

def insert (m : OrdMap κ ν) (k : κ) (v : ν) : OrdMap κ ν :=
  ⟨upsert Prod.fst (k, v) m.toList, pairwise_upsert m.sorted⟩

def erase (m : OrdMap κ ν) (k : κ) : OrdMap κ ν :=
  ⟨m.toList.filter fun p => p.1 ≠ k, m.sorted.filter _⟩

/-- The keys are those of `l`, in order, all mapped through `f`. -/
def ofKeys (l : List κ) (f : κ → ν) : OrdMap κ ν := l.foldl (fun m k => m.insert k (f k)) ∅

@[simp] theorem find?_empty (k : κ) : (∅ : OrdMap κ ν).find? k = none := rfl

theorem find?_insert (m : OrdMap κ ν) (k k' : κ) (v : ν) :
    (m.insert k v).find? k' = if k' = k then some v else m.find? k' :=
  find?_upsert m.toList k k' v

@[simp] theorem find?_insert_self (m : OrdMap κ ν) (k : κ) (v : ν) :
    (m.insert k v).find? k = some v := by simp [find?_insert]

theorem find?_insert_of_ne (m : OrdMap κ ν) {k k' : κ} (v : ν) (h : k' ≠ k) :
    (m.insert k v).find? k' = m.find? k' := by simp [find?_insert, h]

theorem find?_erase (m : OrdMap κ ν) (k k' : κ) :
    (m.erase k).find? k' = if k' = k then none else m.find? k' := by
  simp only [find?, erase, List.find?_filter]
  by_cases h : k' = k
  · subst h
    simp
  · rw [if_neg h]
    congr 2
    funext p
    by_cases hp : p.1 = k' <;> simp [hp, h]

theorem mem_toList {m : OrdMap κ ν} {k : κ} {v : ν} :
    (k, v) ∈ m.toList ↔ m.find? k = some v := by
  obtain ⟨l, hs⟩ := m
  simp only [find?]
  induction l with
  | nil => simp
  | cons c l ih =>
    obtain ⟨hc, hl⟩ := List.pairwise_cons.mp hs
    by_cases h : c.1 = k
    · simp only [List.mem_cons, List.find?_cons, h, decide_true, Option.map_some,
        Option.some.injEq]
      refine ⟨?_, fun e => .inl (by rw [← e, ← h])⟩
      rintro (e | hm)
      · rw [← e]
      · exact absurd (hc _ hm) (by simp [h])
    · have hne : (k, v) ≠ c := fun e => h (by rw [← e])
      simpa [List.find?_cons, h, hne] using ih hl

theorem ext_find? {m m' : OrdMap κ ν} (h : ∀ k, m.find? k = m'.find? k) : m = m' := by
  have hn : ∀ m : OrdMap κ ν, m.toList.Nodup := fun m =>
    m.sorted.imp fun {a b} (hlt : a.1 < b.1) he => (he ▸ hlt).false
  have hp : m.toList.Perm m'.toList :=
    (List.perm_ext_iff_of_nodup (hn m) (hn m')).mpr fun ⟨k, v⟩ => by
      rw [mem_toList, mem_toList, h]
  have he : m.toList = m'.toList :=
    List.Perm.eq_of_pairwise (fun _ _ _ _ h1 h2 => absurd h1 (lt_asymm h2)) m.sorted m'.sorted hp
  cases m; cases m'; congr

/-- A map from its keys and what it takes them to. -/
theorem toList_of_find? {m : OrdMap κ ν} {s : OrdSet κ} {f : κ → ν}
    (h : ∀ k, m.find? k = if k ∈ s then some (f k) else none) :
    m.toList = s.toList.map fun k => (k, f k) := by
  obtain ⟨m', hm'⟩ : ∃ m' : OrdMap κ ν, m'.toList = s.toList.map fun k => (k, f k) :=
    ⟨⟨s.toList.map fun k => (k, f k), List.pairwise_map.mpr s.sorted⟩, rfl⟩
  rw [← hm']
  refine congrArg toList (ext_find? fun k => Option.ext fun v => ?_)
  rw [← mem_toList (m := m'), hm', h, List.mem_map]
  constructor
  · intro hv
    split at hv
    · next hk => exact ⟨k, hk, by rw [Option.some.inj hv]⟩
    · cases hv
  · rintro ⟨k', hk', heq⟩
    obtain ⟨rfl, rfl⟩ := Prod.mk.inj heq
    exact if_pos hk'

theorem find?_ofKeys (l : List κ) (f : κ → ν) (k : κ) :
    (ofKeys l f).find? k = if k ∈ l then some (f k) else none := by
  have key : ∀ (l : List κ) (m : OrdMap κ ν),
      (l.foldl (fun m k => m.insert k (f k)) m).find? k =
        if k ∈ l then some (f k) else m.find? k := by
    intro l
    induction l with
    | nil => simp
    | cons c l ih =>
      intro m
      rw [List.foldl_cons, ih, find?_insert]
      by_cases hl : k ∈ l
      · simp [hl]
      · by_cases hc : k = c <;> simp [hl, hc]
  simpa [ofKeys] using key l ∅

/-- The last write wins. -/
theorem find?_foldl_insert {α : Type} (f : α → κ) (g : α → ν) (l : List α) (k : κ) :
    (l.foldl (fun (m : OrdMap κ ν) a => m.insert (f a) (g a)) ∅).find? k =
      (l.reverse.find? fun a => f a = k).map g := by
  induction l using List.reverseRecOn with
  | nil => rfl
  | append_singleton l a ih =>
    rw [List.foldl_append, List.foldl_cons, List.foldl_nil, find?_insert, List.reverse_append,
      List.reverse_singleton, List.singleton_append, List.find?_cons]
    by_cases h : f a = k
    · simp [h]
    · simp [h, Ne.symm h, ih]

/-- Only the set of keys matters. -/
theorem ofKeys_congr {l l' : List κ} (f : κ → ν) (h : ∀ k, k ∈ l ↔ k ∈ l') :
    ofKeys l f = ofKeys l' f :=
  ext_find? fun k => by simp only [find?_ofKeys, h]

/-! ### Bags -/

/-- The bag a map of multiplicities stands for. -/
def bag (m : OrdMap κ ℤ) : List κ := m.toList.flatMap fun c => List.replicate c.2.toNat c.1

theorem count_bag (m : OrdMap κ ℤ) (k : κ) :
    m.bag.count k = ((m.find? k).map Int.toNat).getD 0 := by
  obtain ⟨l, hs⟩ := m
  simp only [bag, find?]
  induction l with
  | nil => rfl
  | cons c l ih =>
    obtain ⟨hc, hl⟩ := List.pairwise_cons.mp hs
    rw [List.flatMap_cons, List.count_append, List.count_replicate, ih hl, List.find?_cons]
    by_cases h : c.1 = k
    · have hnone : l.find? (fun p => decide (p.1 = k)) = none :=
        List.find?_eq_none.mpr fun p hp => by simpa using (h ▸ hc p hp).ne'
      simp [h, hnone]
    · simp [h]

/-- Counting the members of a list rebuilds its bag. -/
theorem bag_ofKeys_count (l : List κ) : (ofKeys l fun k => (l.count k : ℤ)).bag.Perm l := by
  refine List.perm_iff_count.mpr fun k => ?_
  rw [count_bag, find?_ofKeys]
  split
  · simp
  · next h => simp [List.count_eq_zero.mpr h]

end OrdMap

end StarCE
