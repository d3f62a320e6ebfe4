import Mathlib

/-!
# Searching and splitting lists

Python's and C++'s string functions on lists of characters: the first
occurrence of one of some patterns (`cutAny`), the pieces between the
occurrences of a pattern (`split`), replacement, and white space. What is known
of a text comes from its parts: in a part where no occurrence of a pattern
starts (`Clear`) nothing is found, and a part whose end is in no occurrence
(`Fits`) is split on its own (`split_append`).
-/

namespace StarCE

variable {α : Type} {pat x y s : List α}

/-- No occurrence of `pat` starts in `x` when `s` follows. -/
def Clear (pat x s : List α) : Prop := ∀ y, y ≠ [] → y <:+ x → ¬pat <+: y ++ s

/-- Every occurrence of `pat` that starts in `x` when `s` follows lies in `x`. -/
def Fits (pat x s : List α) : Prop := ∀ y, y ≠ [] → y <:+ x → pat <+: y ++ s → pat <+: y

theorem Clear.nil : Clear pat [] s := fun _ hne hy => absurd (List.suffix_nil.mp hy) hne

theorem Clear.fits (h : Clear pat x s) : Fits pat x s := fun y hne hy hp => absurd hp (h y hne hy)

theorem Clear.of_cons {c : α} (h : Clear pat (c :: x) s) : Clear pat x s :=
  fun y hne hy => h y hne (hy.trans (List.suffix_cons c x))

theorem Fits.of_cons {c : α} (h : Fits pat (c :: x) s) : Fits pat x s :=
  fun y hne hy => h y hne (hy.trans (List.suffix_cons c x))

theorem suffix_append_iff {y x z : List α} (h : y <:+ x ++ z) :
    y <:+ z ∨ ∃ y', y' ≠ [] ∧ y' <:+ x ∧ y = y' ++ z := by
  induction x with
  | nil => exact .inl h
  | cons c x ih =>
    rcases List.suffix_cons_iff.mp h with rfl | h
    · exact .inr ⟨c :: x, by simp, List.suffix_rfl, rfl⟩
    · rcases ih h with h | ⟨y', hne, hy', rfl⟩
      · exact .inl h
      · exact .inr ⟨y', hne, hy'.trans (List.suffix_cons c x), rfl⟩

theorem Clear.append (hy : Clear pat y s) (hx : Clear pat x (y ++ s)) : Clear pat (x ++ y) s := by
  intro z hne hz
  rcases suffix_append_iff hz with hz | ⟨z', hne', hz', rfl⟩
  · exact hy z hne hz
  · rw [List.append_assoc]
    exact hx z' hne' hz'

/-- A pattern starts nowhere in a text without its first element. -/
theorem Clear.of_notMem {a : α} (h : a ∉ x) : Clear (a :: pat) x s := by
  intro y hne hy hp
  obtain ⟨c, y, rfl⟩ := List.exists_cons_of_ne_nil hne
  obtain ⟨rfl, -⟩ := List.cons_prefix_cons.mp hp
  exact h (hy.subset (.head _))

/-- A run of one element starts nothing that goes on with another. -/
theorem Clear.of_forall_eq {b c : α} (hx : ∀ a ∈ x, a = b) (hc : c ≠ b) (h : ¬c :: pat <+: s) :
    Clear (b :: c :: pat) x s := by
  intro y hne hy hp
  obtain ⟨d, y, rfl⟩ := List.exists_cons_of_ne_nil hne
  have hpat := (List.cons_prefix_cons.mp hp).2
  cases y with
  | nil => exact h hpat
  | cons e y =>
    have he : e = b := hx e (hy.subset (.tail _ (.head _)))
    exact hc ((List.cons_prefix_cons.mp hpat).1.trans he)

/-- A pattern is nowhere in a text without one of its elements. -/
theorem Clear.of_mem_notMem {a : α} (ha : a ∈ pat) (h : a ∉ x) : Clear pat x [] := by
  intro y _ hy hp
  rw [List.append_nil] at hp
  exact h (hy.subset (hp.subset ha))

theorem clear_nil (h : ¬pat <:+: x) : Clear pat x [] :=
  fun y _ hy hp => h ((List.append_nil y ▸ hp).isInfix.trans hy.isInfix)

theorem Clear.intercalate {sep : List α} {l : List (List α)} (hsep : ∀ s, Clear pat sep s)
    (h : ∀ x ∈ l, ∀ s, Clear pat x (sep ++ s)) (hlast : ∀ x ∈ l, Clear pat x s) :
    Clear pat (sep.intercalate l) s := by
  induction l with
  | nil => exact Clear.nil
  | cons x l ih =>
    obtain ⟨hx, hl⟩ := List.forall_mem_cons.mp h
    obtain ⟨hx', hlast⟩ := List.forall_mem_cons.mp hlast
    cases l with
    | nil => simpa [List.intercalate] using hx'
    | cons y l =>
      rw [List.intercalate_cons_cons, List.append_assoc]
      refine Clear.append (Clear.append (ih hl hlast) (hsep _)) ?_
      rw [List.append_assoc]
      exact hx _

/-! ## The first occurrence -/

variable [DecidableEq α]

/-- The first occurrence of one of the patterns, with what is before and after it. -/
def cutAny (pats : List (List α)) : List α → Option (List α × List α × List α)
  | [] => none
  | c :: s =>
    match pats.find? fun pat => pat <+: c :: s with
    | some pat => some ([], pat, (c :: s).drop pat.length)
    | none => (cutAny pats s).map fun p => (c :: p.1, p.2)

variable {pats : List (List α)}

theorem cutAny_append (h : ∀ pat ∈ pats, Clear pat x s) :
    cutAny pats (x ++ s) = (cutAny pats s).map fun p => (x ++ p.1, p.2) := by
  induction x with
  | nil => simp
  | cons c x ih =>
    have hnone : (pats.find? fun pat => pat <+: c :: (x ++ s)) = none := by
      rw [List.find?_eq_none]
      intro pat hp
      simpa using h pat hp (c :: x) (by simp) List.suffix_rfl
    rw [List.cons_append, cutAny, hnone, ih fun pat hp => (h pat hp).of_cons, Option.map_map]
    rfl

theorem cutAny_eq_some {l r : List α} (h : cutAny pats s = some (l, pat, r)) : s = l ++ (pat ++ r) := by
  induction s generalizing l with
  | nil => cases h
  | cons c s ih =>
    unfold cutAny at h
    split at h
    · next p hp =>
      obtain ⟨rfl, rfl, rfl⟩ : [] = l ∧ p = pat ∧ (c :: s).drop p.length = r := by simpa using h
      have hpre : p <+: c :: s := by simpa using List.find?_some hp
      rw [List.nil_append]
      exact (List.prefix_iff_eq_append.mp hpre).symm
    · obtain ⟨⟨l', pat', r'⟩, hcut, hl⟩ := Option.map_eq_some_iff.mp h
      obtain ⟨rfl, rfl, rfl⟩ : c :: l' = l ∧ pat' = pat ∧ r' = r := by simpa using hl
      rw [List.cons_append, ← ih hcut]

/-- The first occurrence of a pattern is after a part where none starts. -/
theorem cutAny_singleton (hne : pat ≠ []) (h : Clear pat x (pat ++ s)) :
    cutAny [pat] (x ++ (pat ++ s)) = some (x, pat, s) := by
  have hx : ∀ p ∈ [pat], Clear p x (pat ++ s) := by simpa using h
  rw [cutAny_append hx]
  obtain ⟨c, pat, rfl⟩ := List.exists_cons_of_ne_nil hne
  have hfind : ([c :: pat].find? fun p => p <+: c :: (pat ++ s)) = some (c :: pat) := by
    rw [List.find?_cons]
    have : (decide (c :: pat <+: c :: (pat ++ s))) = true := by simp
    rw [this]
  rw [List.cons_append, cutAny, hfind]
  simp

theorem isSome_cutAny_iff (hne : pat ≠ []) : (cutAny [pat] s).isSome ↔ pat <:+: s := by
  constructor
  · intro h
    obtain ⟨⟨l, p, r⟩, hcut⟩ := Option.isSome_iff_exists.mp h
    induction s generalizing l p r with
    | nil => cases hcut
    | cons c s ih =>
      unfold cutAny at hcut
      split at hcut
      · next q hq =>
        have hpre : q <+: c :: s := by simpa using List.find?_some hq
        rw [List.mem_singleton.mp (List.mem_of_find?_eq_some hq)] at hpre
        exact hpre.isInfix
      · obtain ⟨⟨l', p', r'⟩, hcut', -⟩ := Option.map_eq_some_iff.mp hcut
        exact (ih (by rw [hcut']; rfl) l' p' r' hcut').trans (List.suffix_cons c s).isInfix
  · rintro ⟨x, y, rfl⟩
    induction x with
    | nil =>
      obtain ⟨c, p, rfl⟩ := List.exists_cons_of_ne_nil hne
      simp [cutAny]
    | cons c x ih =>
      rw [List.cons_append, List.cons_append, cutAny]
      split
      · rfl
      · rw [Option.isSome_map]
        exact ih

/-! ## Pieces -/

/-- The pieces between the occurrences of `pat`, from the left; the first `k` elements are the rest
of an occurrence. -/
def splitFrom (pat : List α) : ℕ → List α → List (List α)
  | _, [] => [[]]
  | k + 1, _ :: s => splitFrom pat k s
  | 0, c :: s =>
    if pat <+: c :: s then [] :: splitFrom pat (pat.length - 1) s
    else (splitFrom pat 0 s).modifyHead (c :: ·)

/-- `s.split(pat)` -/
def split (pat s : List α) : List (List α) := splitFrom pat 0 s

/-- `s.replace(pat, new)` -/
def replace (pat new s : List α) : List α := List.intercalate new (split pat s)

/-- The pieces of two parts: the last of the one goes on in the first of the other. -/
def glue : List (List α) → List (List α) → List (List α)
  | [], r => r
  | [x], r => r.modifyHead (x ++ ·)
  | x :: y :: l, r => x :: glue (y :: l) r

section

omit [DecidableEq α]

theorem glue_modifyHead (c : α) {l : List (List α)} (hl : l ≠ []) (r : List (List α)) :
    glue (l.modifyHead (c :: ·)) r = (glue l r).modifyHead (c :: ·) := by
  obtain ⟨x, l, rfl⟩ := List.exists_cons_of_ne_nil hl
  cases l with
  | nil => cases r <;> rfl
  | cons y l => rfl

theorem glue_cons (x : List α) {l : List (List α)} (hl : l ≠ []) (r : List (List α)) :
    glue (x :: l) r = x :: glue l r := by
  obtain ⟨y, l, rfl⟩ := List.exists_cons_of_ne_nil hl
  rfl

theorem glue_concat (l : List (List α)) (x y : List α) (r : List (List α)) :
    glue (l ++ [x]) (y :: r) = l ++ (x ++ y) :: r := by
  induction l with
  | nil => rfl
  | cons z l ih => rw [List.cons_append, glue_cons z (by simp), ih, List.cons_append]

end

theorem splitFrom_ne_nil (pat : List α) (k : ℕ) (s : List α) : splitFrom pat k s ≠ [] := by
  induction s generalizing k with
  | nil => simp [splitFrom]
  | cons c s ih =>
    cases k with
    | zero =>
      unfold splitFrom
      split
      · simp
      · obtain ⟨y, l, hl⟩ := List.exists_cons_of_ne_nil (ih 0)
        rw [hl]
        simp
    | succ k => exact ih k

theorem splitFrom_append {k : ℕ} (hk : k ≤ x.length) (h : Fits pat x s) :
    splitFrom pat k (x ++ s) = glue (splitFrom pat k x) (splitFrom pat 0 s) := by
  induction x generalizing k with
  | nil =>
    obtain rfl : k = 0 := by simpa using hk
    obtain ⟨y, l, hl⟩ := List.exists_cons_of_ne_nil (splitFrom_ne_nil pat 0 s)
    rw [List.nil_append, hl]
    rfl
  | cons c x ih =>
    cases k with
    | succ k => exact ih (by simpa using hk) h.of_cons
    | zero =>
      rw [List.cons_append, splitFrom, splitFrom]
      by_cases hp : pat <+: c :: x
      · have hp' : pat <+: c :: (x ++ s) := hp.trans ⟨s, rfl⟩
        have hlen : pat.length - 1 ≤ x.length := by
          have := hp.length_le
          simp only [List.length_cons] at this
          omega
        rw [if_pos hp, if_pos hp', glue_cons _ (splitFrom_ne_nil _ _ _), ih hlen h.of_cons]
      · have hp' : ¬pat <+: c :: (x ++ s) := fun hp' =>
          hp (h (c :: x) (by simp) List.suffix_rfl hp')
        rw [if_neg hp, if_neg hp', glue_modifyHead _ (splitFrom_ne_nil _ _ _),
          ih (Nat.zero_le _) h.of_cons]

theorem split_append (h : Fits pat x s) : split pat (x ++ s) = glue (split pat x) (split pat s) :=
  splitFrom_append (Nat.zero_le _) h

theorem split_eq_self (h : Clear pat x []) : split pat x = [x] := by
  unfold split
  induction x with
  | nil => rfl
  | cons c x ih =>
    have hp : ¬pat <+: c :: x := by simpa using h (c :: x) (by simp) List.suffix_rfl
    rw [splitFrom, if_neg hp, ih h.of_cons]
    rfl

theorem splitFrom_drop {k : ℕ} (hk : x.length = k) : splitFrom pat k (x ++ s) = splitFrom pat 0 s := by
  induction x generalizing k with
  | nil =>
    obtain rfl : 0 = k := hk
    rfl
  | cons c x ih =>
    cases k with
    | zero => simp at hk
    | succ k => exact ih (by simpa using hk)

theorem split_pat (hne : pat ≠ []) (s : List α) : split pat (pat ++ s) = [] :: split pat s := by
  obtain ⟨c, p, rfl⟩ := List.exists_cons_of_ne_nil hne
  unfold split
  rw [List.cons_append, splitFrom, if_pos (by simp)]
  rw [splitFrom_drop (by simp)]

/-- A text that is split at an occurrence of the pattern. -/
theorem split_append_pat (hne : pat ≠ []) (h : Fits pat x (pat ++ s)) :
    split pat (x ++ (pat ++ s)) = split pat x ++ split pat s := by
  rw [split_append h, split_pat hne]
  obtain ⟨l, y, hl⟩ : ∃ l y, split pat x = l ++ [y] :=
    ⟨_, _, (List.dropLast_append_getLast (splitFrom_ne_nil pat 0 x)).symm⟩
  rw [hl, glue_concat, List.append_nil]
  simp

/-- The pieces are found again where no separator starts in one of them. -/
theorem split_intercalate (hne : pat ≠ []) {l : List (List α)} (hl : l ≠ [])
    (h : ∀ x ∈ l, (∀ s, Clear pat x (pat ++ s)) ∧ Clear pat x []) : split pat (pat.intercalate l) = l := by
  induction l with
  | nil => exact absurd rfl hl
  | cons x l ih =>
    obtain ⟨⟨hx, hx'⟩, h⟩ := List.forall_mem_cons.mp h
    cases l with
    | nil =>
      have hone : pat.intercalate [x] = x := by simp [List.intercalate]
      rw [hone, split_eq_self hx']
    | cons y l =>
      rw [List.intercalate_cons_cons, List.append_assoc, split_append_pat hne (hx _).fits, split_eq_self hx',
        ih (by simp) h]
      rfl

omit [DecidableEq α] in
theorem intercalate_cons_of_ne_nil (sep x : List α) {l : List (List α)} (hl : l ≠ []) :
    sep.intercalate (x :: l) = x ++ (sep ++ sep.intercalate l) := by
  obtain ⟨y, l, rfl⟩ := List.exists_cons_of_ne_nil hl
  rw [List.intercalate_cons_cons, List.append_assoc]

theorem replace_eq_self (new : List α) (h : Clear pat x []) : replace pat new x = x := by
  rw [replace, split_eq_self h]
  simp [List.intercalate]

/-- One occurrence is replaced. -/
theorem replace_once (new : List α) (hne : pat ≠ []) (hx : Clear pat x (pat ++ s))
    (hx' : Clear pat x []) (hs : Clear pat s []) : replace pat new (x ++ (pat ++ s)) = x ++ (new ++ s) := by
  rw [replace, split_append_pat hne hx.fits, split_eq_self hx', split_eq_self hs]
  simp [List.intercalate]

/-- A list with separators of two elements is split at the first of them. -/
theorem splitOn_intercalate {a b : α} (hab : b ≠ a) {l : List (List α)} (hx : a ∉ x)
    (hl : ∀ y ∈ l, a ∉ y) : ([a, b].intercalate (x :: l)).splitOn a = x :: l.map (b :: ·) := by
  induction l generalizing x with
  | nil =>
    rw [List.intercalate_singleton, List.splitOn, List.splitOnP_eq_singleton, List.map_nil]
    intro c hc
    exact beq_eq_false_iff_ne.mpr fun h => hx (h ▸ hc)
  | cons y l ih =>
    obtain ⟨hy, hl⟩ := List.forall_mem_cons.mp hl
    have hby : a ∉ b :: y := fun h => by
      rcases List.mem_cons.mp h with h | h
      · exact hab h.symm
      · exact hy h
    have hrest : x ++ [a, b] ++ [a, b].intercalate (y :: l) =
        x ++ a :: [a, b].intercalate ((b :: y) :: l) := by
      cases l with
      | nil => simp [List.intercalate]
      | cons z l => simp [List.intercalate_cons_cons]
    have hxa : ∀ c ∈ x, (c == a) = false := fun c hc => beq_eq_false_iff_ne.mpr fun h => hx (h ▸ hc)
    rw [List.intercalate_cons_cons, hrest, List.splitOn,
      List.splitOnP_append_cons_of_forall_mem hxa a (by simp)]
    have := ih hby hl
    rw [List.splitOn] at this
    rw [this]
    rfl

/-! ## White space -/

section Space

omit [DecidableEq α]

variable (sp : α → Bool) (blank : α)

/-- Every run of white space becomes one blank; `run` says that one is being read. -/
def collapseFrom : Bool → List α → List α
  | _, [] => []
  | run, c :: s =>
    if sp c then if run then collapseFrom true s else blank :: collapseFrom true s
    else c :: collapseFrom false s

/-- `re.sub(r'\s+', ' ', s)` -/
def collapse (s : List α) : List α := collapseFrom sp blank false s

/-- `s.strip()` -/
def strip (s : List α) : List α := (s.dropWhile sp).rdropWhile sp

/-- `s.split()` -/
def words (s : List α) : List (List α) := (s.splitOnP sp).filter fun x => !x.isEmpty

variable {sp blank} {c : α}

theorem collapseFrom_append (run : Bool) (x : List α) (hc : sp c = false) (s : List α) :
    collapseFrom sp blank run (x ++ c :: s) =
      collapseFrom sp blank run x ++ c :: collapseFrom sp blank false s := by
  induction x generalizing run with
  | nil => simp [collapseFrom, hc]
  | cons d x ih =>
    rw [List.cons_append, collapseFrom, collapseFrom, ih, ih]
    split
    · split <;> rfl
    · rfl

/-- A character that is no white space parts a text. -/
theorem collapse_append (x : List α) (hc : sp c = false) (s : List α) :
    collapse sp blank (x ++ c :: s) = collapse sp blank x ++ c :: collapse sp blank s :=
  collapseFrom_append false x hc s

theorem collapse_cons (hc : sp c = false) (s : List α) :
    collapse sp blank (c :: s) = c :: collapse sp blank s := collapse_append [] hc s

theorem collapse_append_of_forall (hx : ∀ c ∈ x, sp c = false) (s : List α) :
    collapse sp blank (x ++ s) = x ++ collapse sp blank s := by
  induction x with
  | nil => rfl
  | cons c x ih =>
    obtain ⟨hc, hx⟩ := List.forall_mem_cons.mp hx
    rw [List.cons_append, collapse_cons hc, ih hx, List.cons_append]

theorem collapse_eq_self (hx : ∀ c ∈ x, sp c = false) : collapse sp blank x = x := by
  have h : collapse sp blank (x ++ []) = x ++ collapse sp blank [] := collapse_append_of_forall hx []
  simpa [collapse, collapseFrom] using h

theorem collapse_append_of_head (x : List α) (hs : ∀ c ∈ s.head?, sp c = false) :
    collapse sp blank (x ++ s) = collapse sp blank x ++ collapse sp blank s := by
  cases s with
  | nil => simp [collapse, collapseFrom]
  | cons c s =>
    have hc : sp c = false := hs c rfl
    rw [collapse_append x hc, collapse_cons hc]

theorem head?_collapse (hs : ∀ c ∈ s.head?, sp c = false) :
    ∀ c ∈ (collapse sp blank s).head?, sp c = false := by
  cases s with
  | nil => simp [collapse, collapseFrom]
  | cons c s =>
    have hc : sp c = false := hs c rfl
    rw [collapse_cons hc]
    simpa using hc

/-- A text between characters that are no white space. -/
structure Tight (sp : α → Bool) (x : List α) : Prop where
  ne : x ≠ []
  head : ∀ c ∈ x.head?, sp c = false
  last : ∀ c ∈ x.getLast?, sp c = false

theorem Tight.of_forall (hne : x ≠ []) (h : ∀ c ∈ x, sp c = false) : Tight sp x where
  ne := hne
  head c hc := h c (List.mem_of_mem_head? hc)
  last c hc := h c (List.mem_of_mem_getLast? hc)

theorem Tight.append (hx : Tight sp x) (hy : Tight sp y) (s : List α) : Tight sp (x ++ (s ++ y)) where
  ne := by simp [hx.ne]
  head c hc := by
    rw [List.head?_append_of_ne_nil _ hx.ne] at hc
    exact hx.head c hc
  last c hc := by
    rw [← List.append_assoc, List.getLast?_append_of_ne_nil _ hy.ne] at hc
    exact hy.last c hc

theorem Tight.collapse_append (hx : Tight sp x) (s : List α) :
    collapse sp blank (x ++ s) = collapse sp blank x ++ collapse sp blank s := by
  rcases List.eq_nil_or_concat x with rfl | ⟨x, c, rfl⟩
  · rfl
  · rw [List.concat_eq_append] at hx ⊢
    have hc : sp c = false := hx.last c (by simp)
    rw [List.append_assoc, List.singleton_append, StarCE.collapse_append x hc,
      StarCE.collapse_append x hc]
    simp [collapse, collapseFrom]

/-- A separator between parts. -/
theorem Tight.collapse_append_append (hx : Tight sp x) (hy : Tight sp y) (s : List α) :
    collapse sp blank (x ++ (s ++ y)) =
      collapse sp blank x ++ (collapse sp blank s ++ collapse sp blank y) := by
  rw [hx.collapse_append, collapse_append_of_head s hy.head]

theorem Tight.intercalate {l : List (List α)} (hl : l ≠ []) (h : ∀ x ∈ l, Tight sp x) (sep : List α) :
    Tight sp (sep.intercalate l) := by
  induction l with
  | nil => exact absurd rfl hl
  | cons x l ih =>
    obtain ⟨hx, hl⟩ := List.forall_mem_cons.mp h
    cases l with
    | nil => simpa [List.intercalate] using hx
    | cons y l =>
      rw [List.intercalate_cons_cons, List.append_assoc]
      exact hx.append (ih (by simp) hl) sep

theorem collapse_intercalate {l : List (List α)} {sep : List α} (hsep : collapse sp blank sep = sep)
    (h : ∀ x ∈ l, Tight sp x) : collapse sp blank (sep.intercalate l) =
      sep.intercalate (l.map (collapse sp blank)) := by
  induction l with
  | nil => rfl
  | cons x l ih =>
    obtain ⟨hx, hl⟩ := List.forall_mem_cons.mp h
    cases l with
    | nil => simp [List.intercalate]
    | cons y l =>
      have hy := Tight.intercalate (by simp) hl sep
      rw [List.intercalate_cons_cons, List.append_assoc, hx.collapse_append_append hy, hsep, ih hl,
        List.map_cons, List.map_cons, List.map_cons, List.intercalate_cons_cons, List.append_assoc]

theorem Tight.collapse (hx : Tight sp x) : Tight sp (collapse sp blank x) where
  ne := by
    obtain ⟨c, s, rfl⟩ := List.exists_cons_of_ne_nil hx.ne
    rw [collapse_cons (hx.head c rfl)]
    simp
  head := head?_collapse hx.head
  last := by
    rcases List.eq_nil_or_concat x with rfl | ⟨x, c, rfl⟩
    · exact absurd rfl hx.ne
    · rw [List.concat_eq_append] at hx ⊢
      have hc : sp c = false := hx.last c (by simp)
      rw [StarCE.collapse_append x hc]
      simpa [StarCE.collapse, collapseFrom] using hc

theorem mem_collapse (h : c ∈ collapse sp blank s) : c = blank ∨ c ∈ s := by
  unfold collapse at h
  generalize false = run at h
  induction s generalizing run with
  | nil => simp [collapseFrom] at h
  | cons d s ih =>
    unfold collapseFrom at h
    split at h
    · split at h
      · exact (ih true h).imp id (.tail _)
      · rcases List.mem_cons.mp h with rfl | h
        · exact .inl rfl
        · exact (ih true h).imp id (.tail _)
    · rcases List.mem_cons.mp h with rfl | h
      · exact .inr (.head _)
      · exact (ih false h).imp id (.tail _)

theorem collapseFrom_ne_nil (hs : s ≠ []) : collapseFrom sp blank false s ≠ [] := by
  obtain ⟨c, s, rfl⟩ := List.exists_cons_of_ne_nil hs
  unfold collapseFrom
  split <;> simp

/-- After white space at the end there is a blank. -/
theorem getLast?_collapseFrom {d : α} (hd : sp d = true) (run : Bool) (x : List α)
    (h : c ∈ (collapseFrom sp blank run (x ++ [d])).getLast?) : c = blank := by
  induction x generalizing run with
  | nil => cases run <;> simp_all [collapseFrom]
  | cons e x ih =>
    rw [List.cons_append, collapseFrom] at h
    split at h
    · split at h
      · exact ih true h
      · cases hn : collapseFrom sp blank true (x ++ [d]) with
        | nil =>
          rw [hn] at h
          simpa using h.symm
        | cons f l =>
          rw [hn, List.getLast?_cons_cons] at h
          exact ih true (hn ▸ h)
    · have hne : collapseFrom sp blank false (x ++ [d]) ≠ [] := collapseFrom_ne_nil (by simp)
      obtain ⟨f, l, hn⟩ := List.exists_cons_of_ne_nil hne
      rw [hn, List.getLast?_cons_cons] at h
      exact ih false (hn ▸ h)

/-- The last character stays, or it is a blank. -/
theorem getLast?_collapse (h : c ∈ (collapse sp blank s).getLast?) : c ∈ s.getLast? ∨ c = blank := by
  rcases List.eq_nil_or_concat s with rfl | ⟨s, d, rfl⟩
  · simp [collapse, collapseFrom] at h
  · rw [List.concat_eq_append] at h ⊢
    cases hd : sp d with
    | false =>
      rw [collapse_append s hd] at h
      simp [collapse, collapseFrom] at h
      simp [h]
    | true => exact .inr (getLast?_collapseFrom hd false s h)

theorem strip_append (hx : Tight sp x) (y s : List α) :
    strip sp (y ++ (x ++ s)) = y.dropWhile sp ++ (x ++ s.rdropWhile sp) := by
  obtain ⟨hne, hhead, hlast⟩ := hx
  have hfront : ∀ s, (y ++ (x ++ s)).dropWhile sp = y.dropWhile sp ++ (x ++ s) := by
    intro s
    obtain ⟨c, x, rfl⟩ := List.exists_cons_of_ne_nil hne
    have hc : sp c = false := hhead c rfl
    induction y with
    | nil => simp [hc]
    | cons d y ih =>
      cases hd : sp d with
      | true => simpa [hd] using ih
      | false => simp [hd]
  have hback : ∀ y : List α, (y ++ (x ++ s)).rdropWhile sp = y ++ (x ++ s.rdropWhile sp) := by
    intro y
    induction s using List.reverseRecOn with
    | nil =>
      rcases List.eq_nil_or_concat x with rfl | ⟨x, c, rfl⟩
      · exact absurd rfl hne
      · rw [List.concat_eq_append] at hlast ⊢
        have hc : sp c = false := hlast c (by simp)
        rw [List.append_nil, ← List.append_assoc, List.rdropWhile_concat, hc]
        simp
    | append_singleton s d ih =>
      rw [← List.append_assoc, ← List.append_assoc, List.rdropWhile_concat, List.rdropWhile_concat]
      split
      · rw [List.append_assoc]
        exact ih
      · simp only [List.append_assoc]
  rw [strip, hfront, hback]

theorem strip_eq_self (hx : Tight sp x) : strip sp x = x := by
  simpa using strip_append hx [] []

theorem words_append (hne : x ≠ []) (hx : ∀ c ∈ x, sp c = false) (hc : sp c = true) (s : List α) :
    words sp (x ++ c :: s) = x :: words sp s := by
  rw [words, List.splitOnP_append_cons_of_forall_mem hx c hc s, List.filter_cons, words]
  simp [hne]

theorem words_eq_singleton (hne : x ≠ []) (hx : ∀ c ∈ x, sp c = false) : words sp x = [x] := by
  rw [words, List.splitOnP_eq_singleton hx]
  simp [hne]

/-! ### One blank between words -/

theorem collapseFrom_collapseFrom (hb : sp blank = true) (run : Bool) (s : List α) :
    collapseFrom sp blank run (collapseFrom sp blank run s) = collapseFrom sp blank run s := by
  induction s generalizing run with
  | nil => rfl
  | cons c s ih =>
    by_cases hc : sp c = true
    · cases run with
      | true => simpa [collapseFrom, hc] using ih true
      | false => simpa [collapseFrom, hc, hb] using ih true
    · have hc : sp c = false := by simpa using hc
      simpa [collapseFrom, hc] using ih false

/-- White space that is collapsed stays as it is. -/
theorem collapse_collapse (hb : sp blank = true) (s : List α) :
    collapse sp blank (collapse sp blank s) = collapse sp blank s :=
  collapseFrom_collapseFrom hb false s

theorem dropWhile_collapseFrom_true (s : List α) :
    (collapseFrom sp blank true s).dropWhile sp = collapseFrom sp blank true s := by
  induction s with
  | nil => rfl
  | cons c s ih =>
    by_cases hc : sp c = true
    · simpa [collapseFrom, hc] using ih
    · simp [collapseFrom, hc]

theorem dropWhile_collapse (hb : sp blank = true) (s : List α) :
    (collapse sp blank s).dropWhile sp = collapseFrom sp blank true s := by
  unfold collapse
  cases s with
  | nil => rfl
  | cons c s =>
    by_cases hc : sp c = true
    · simpa [collapseFrom, hc, hb] using dropWhile_collapseFrom_true s
    · simp [collapseFrom, hc]

theorem rdropWhile_cons (c : α) (s : List α) : (c :: s).rdropWhile sp =
    if sp c ∧ s.rdropWhile sp = [] then [] else c :: s.rdropWhile sp := by
  unfold List.rdropWhile
  rw [List.reverse_cons, List.dropWhile_append]
  by_cases hs : s.reverse.dropWhile sp = []
  · by_cases hc : sp c = true <;> simp [hs, hc]
  · simp [hs]

theorem words_nil : words sp [] = [] := by simp [words]

theorem words_cons_of_pos (hc : sp c = true) (s : List α) : words sp (c :: s) = words sp s := by
  rw [words, List.splitOnP_cons_eq_if_modifyHead, if_pos hc, List.filter_cons_of_neg (by simp), words]

theorem words_singleton_cons {d : α} (hc : sp c = false) (hd : sp d = true) (s : List α) :
    words sp (c :: d :: s) = [c] :: words sp s := by
  rw [words, List.splitOnP_cons_eq_if_modifyHead, if_neg (by simp [hc]), List.splitOnP_cons_eq_if_modifyHead, if_pos hd,
    List.modifyHead_cons, List.filter_cons_of_pos (by simp), words]

theorem words_cons_cons {d : α} (hc : sp c = false) (hd : sp d = false) (s : List α) :
    words sp (c :: d :: s) = (words sp (d :: s)).modifyHead (c :: ·) := by
  obtain ⟨x, l, hl⟩ := List.exists_cons_of_ne_nil (List.splitOnP_ne_nil sp s)
  rw [words, words, List.splitOnP_cons_eq_if_modifyHead, if_neg (by simp [hc]), List.splitOnP_cons_eq_if_modifyHead,
    if_neg (by simp [hd]), hl, List.modifyHead_cons, List.modifyHead_cons,
    List.filter_cons_of_pos (by simp), List.filter_cons_of_pos (by simp), List.modifyHead_cons]

theorem words_cons_ne_nil (hc : sp c = false) (s : List α) : words sp (c :: s) ≠ [] := by
  obtain ⟨x, l, hl⟩ := List.exists_cons_of_ne_nil (List.splitOnP_ne_nil sp s)
  rw [words, List.splitOnP_cons_eq_if_modifyHead, if_neg (by simp [hc]), hl, List.modifyHead_cons,
    List.filter_cons_of_pos (by simp)]
  simp

theorem intercalate_words_eq_nil {s : List α} :
    [blank].intercalate (words sp s) = [] ↔ words sp s = [] := by
  constructor
  · intro h
    cases hw : words sp s with
    | nil => rfl
    | cons w l =>
      have hne : w ≠ [] := by
        have : w ∈ words sp s := hw ▸ .head _
        simpa using (List.mem_filter.mp this).2
      rw [hw] at h
      cases l with
      | nil => exact absurd (by simpa [List.intercalate] using h) hne
      | cons v l => simp [List.intercalate_cons_cons] at h
  · intro h
    rw [h]
    rfl

/-- Without white space at its ends a text with collapsed white space is its words, with blanks
between them. -/
theorem strip_collapse (hb : sp blank = true) (s : List α) :
    strip sp (collapse sp blank s) = [blank].intercalate (words sp s) := by
  rw [strip, dropWhile_collapse hb]
  have key : ∀ s : List α,
      (collapseFrom sp blank true s).rdropWhile sp = [blank].intercalate (words sp s) ∧
      ∀ c, sp c = false → (c :: collapseFrom sp blank false s).rdropWhile sp =
        [blank].intercalate (words sp (c :: s)) := by
    intro s
    induction s with
    | nil =>
      refine ⟨by rw [words_nil]; rfl, fun c hc => ?_⟩
      rw [words_eq_singleton (by simp) (by simpa using hc), collapseFrom, rdropWhile_cons,
        if_neg (by simp [hc])]
      rfl
    | cons d s ih =>
      by_cases hd : sp d = true
      · refine ⟨?_, fun c hc => ?_⟩
        · rw [words_cons_of_pos hd, ← ih.1, collapseFrom, if_pos hd, if_pos rfl]
        · rw [words_singleton_cons hc hd, collapseFrom, if_pos hd, if_neg (by simp), rdropWhile_cons,
            if_neg (by simp [hc]), rdropWhile_cons, ih.1]
          by_cases hw : words sp s = []
          · simp [hw, hb, List.intercalate]
          · rw [if_neg fun h => hw (intercalate_words_eq_nil.mp h.2), intercalate_cons_of_ne_nil _ _ hw]
            rfl
      · have hd : sp d = false := by simpa using hd
        have hfirst : collapseFrom sp blank true (d :: s) = d :: collapseFrom sp blank false s := by
          simp [collapseFrom, hd]
        refine ⟨by rw [hfirst, ih.2 d hd], fun c hc => ?_⟩
        have hrest : collapseFrom sp blank false (d :: s) = d :: collapseFrom sp blank false s := by
          simp [collapseFrom, hd]
        rw [hrest, rdropWhile_cons, if_neg (by simp [hc]), ih.2 d hd, words_cons_cons hc hd]
        obtain ⟨w, l, hw⟩ := List.exists_cons_of_ne_nil (words_cons_ne_nil hd s)
        rw [hw, List.modifyHead_cons]
        cases l with
        | nil => simp [List.intercalate]
        | cons v l =>
          rw [List.intercalate_cons_cons, List.intercalate_cons_cons]
          rfl
  exact (key s).1

end Space

end StarCE
