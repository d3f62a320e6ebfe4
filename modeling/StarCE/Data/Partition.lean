import Mathlib

/-!
# Disjoint sets and the equivalence they stand for

A list of pairwise disjoint sets relates the elements that share a set
(`Same`). Joining a pair replaces the sets that hold one of its elements by
their union (`Joined`); the relation that the sets stand for then grows to the
equivalence that the old one and the pair generate (`Joined.same_iff`).
-/

namespace StarCE

variable {α S : Type} [Membership α S]

/-- No element lies in two sets of the list. -/
def Apart (l : List S) : Prop := l.Pairwise fun s t => ∀ a ∈ s, a ∉ t

/-- Equal, or in one set of the list. -/
def Same (l : List S) (a b : α) : Prop := a = b ∨ ∃ s ∈ l, a ∈ s ∧ b ∈ s

theorem apart_symm : Std.Symm fun s t : S => ∀ a : α, a ∈ s → a ∉ t :=
  ⟨fun _ _ h a ht hs => h a hs ht⟩

theorem Apart.perm {l l' : List S} (h : Apart (α := α) l) (hp : l.Perm l') :
    Apart (α := α) l' := (hp.pairwise_iff fun h => apart_symm.symm _ _ h).mp h

theorem Apart.eq {l : List S} (h : Apart (α := α) l) {s t : S} (hs : s ∈ l) (ht : t ∈ l) {a : α}
    (has : a ∈ s) (hat : a ∈ t) : s = t := by
  have := apart_symm (α := α) (S := S)
  by_contra hne
  exact List.Pairwise.forall h hs ht hne a has hat

theorem Apart.nodup {l : List S} (h : Apart (α := α) l) (hne : ∀ s ∈ l, ∃ a : α, a ∈ s) :
    l.Nodup :=
  List.Pairwise.imp_of_mem (fun hs _ hst he => by
    obtain ⟨a, ha⟩ := hne _ hs
    exact hst a ha (he ▸ ha)) h

theorem Apart.same_equivalence {l : List S} (h : Apart (α := α) l) :
    Equivalence (Same (α := α) l) where
  refl _ := .inl rfl
  symm := by
    rintro a b (rfl | ⟨s, hs, ha, hb⟩)
    · exact .inl rfl
    · exact .inr ⟨s, hs, hb, ha⟩
  trans := by
    rintro a b c (rfl | ⟨s, hs, ha, hb⟩) (rfl | ⟨t, ht, hb', hc⟩)
    · exact .inl rfl
    · exact .inr ⟨t, ht, hb', hc⟩
    · exact .inr ⟨s, hs, ha, hb⟩
    · obtain rfl := h.eq hs ht hb hb'
      exact .inr ⟨s, hs, ha, hc⟩

/-- `l'` is `l` with the sets that hold `a` or `b` united, together with `a` and `b`. -/
def Joined (a b : α) (l l' : List S) : Prop :=
  ∃ (olds : List S) (new : S) (rest : List S), l.Perm (olds ++ rest) ∧ l'.Perm (new :: rest) ∧
    (∀ x, x ∈ new ↔ x = a ∨ x = b ∨ ∃ s ∈ olds, x ∈ s) ∧
    (∀ s ∈ olds, a ∈ s ∨ b ∈ s) ∧ ∀ s ∈ rest, a ∉ s ∧ b ∉ s

namespace Joined

variable {a b : α} {l l' : List S}

theorem comm (h : Joined a b l l') : Joined b a l l' := by
  obtain ⟨olds, new, rest, hp, hp', hnew, holds, hrest⟩ := h
  exact ⟨olds, new, rest, hp, hp', fun x => by rw [hnew, or_left_comm],
    fun s hs => (holds s hs).symm, fun s hs => (hrest s hs).symm⟩

theorem apart (h : Joined a b l l') (hl : Apart (α := α) l) : Apart (α := α) l' := by
  obtain ⟨olds, new, rest, hp, hp', hnew, -, hrest⟩ := h
  obtain ⟨-, hr, hor⟩ := List.pairwise_append.mp (hl.perm hp)
  refine Apart.perm (List.pairwise_cons.mpr ⟨fun t ht x hx hxt => ?_, hr⟩) hp'.symm
  obtain rfl | rfl | ⟨s, hs, hxs⟩ := (hnew x).mp hx
  · exact (hrest t ht).1 hxt
  · exact (hrest t ht).2 hxt
  · exact hor s hs t ht x hxs hxt

theorem same_of_same (h : Joined a b l l') {x y : α} (hs : Same l x y) : Same l' x y := by
  obtain ⟨olds, new, rest, hp, hp', hnew, -, -⟩ := h
  obtain rfl | ⟨s, hs, hx, hy⟩ := hs
  · exact .inl rfl
  · rcases List.mem_append.mp (hp.mem_iff.mp hs) with ho | hr
    · exact .inr ⟨new, hp'.mem_iff.mpr (.head _), (hnew x).mpr (.inr (.inr ⟨s, ho, hx⟩)),
        (hnew y).mpr (.inr (.inr ⟨s, ho, hy⟩))⟩
    · exact .inr ⟨s, hp'.mem_iff.mpr (.tail _ hr), hx, hy⟩

theorem same_pair (h : Joined a b l l') : Same l' a b := by
  obtain ⟨olds, new, rest, -, hp', hnew, -, -⟩ := h
  exact .inr ⟨new, hp'.mem_iff.mpr (.head _), (hnew a).mpr (.inl rfl),
    (hnew b).mpr (.inr (.inl rfl))⟩

/-- The sets stand for the equivalence that the pairs joined so far generate. -/
theorem same_iff (h : Joined a b l l') (hl : Apart (α := α) l) {r : α → α → Prop}
    (hr : ∀ x y, Same l x y ↔ Relation.EqvGen r x y) (x y : α) :
    Same l' x y ↔ Relation.EqvGen (fun x y => r x y ∨ x = a ∧ y = b) x y := by
  set r' := fun x y => r x y ∨ x = a ∧ y = b with hr'
  have hmono : ∀ {x y}, Same l x y → Relation.EqvGen r' x y := fun hs =>
    ((hr _ _).mp hs).mono fun _ _ => .inl
  have hab : Relation.EqvGen r' a b := .rel _ _ (.inr ⟨rfl, rfl⟩)
  constructor
  · obtain ⟨olds, new, rest, hp, hp', hnew, holds, -⟩ := h
    -- every element of the new set is related to `a`
    have hall : ∀ z ∈ new, Relation.EqvGen r' a z := fun z hz => by
      obtain rfl | rfl | ⟨s, hs, hzs⟩ := (hnew z).mp hz
      · exact .refl _
      · exact hab
      · have hsl := hp.mem_iff.mpr (List.mem_append_left rest hs)
        rcases holds s hs with ha | hb
        · exact hmono (.inr ⟨s, hsl, ha, hzs⟩)
        · exact hab.trans _ _ _ (hmono (.inr ⟨s, hsl, hb, hzs⟩))
    rintro (rfl | ⟨s, hs, hx, hy⟩)
    · exact .refl _
    · rcases List.mem_cons.mp (hp'.mem_iff.mp hs) with rfl | hs
      · exact ((hall x hx).symm _ _).trans _ _ _ (hall y hy)
      · exact hmono (.inr ⟨s, hp.mem_iff.mpr (List.mem_append_right _ hs), hx, hy⟩)
  · intro hg
    rw [← (h.apart hl).same_equivalence.eqvGen_iff]
    refine hg.mono fun u v huv => ?_
    rcases huv with huv | ⟨rfl, rfl⟩
    · exact h.same_of_same ((hr u v).mpr (.rel _ _ huv))
    · exact h.same_pair

end Joined

/-- The sets with two elements are the classes with two elements. -/
theorem Apart.mem_classes_iff {l : List S} (hl : Apart (α := α) l)
    (htwo : ∀ s ∈ l, ({a | a ∈ s} : Set α).Nontrivial) {r : α → α → Prop}
    (hr : ∀ x y, Same l x y ↔ Relation.EqvGen r x y) (c : Set α) :
    (∃ s ∈ l, c = {a | a ∈ s}) ↔ c ∈ (Relation.EqvGen.setoid r).classes ∧ c.Nontrivial := by
  -- a set of the list is the class of each of its elements
  have hset : ∀ s ∈ l, ∀ a ∈ s, {x | x ∈ s} = {x | Relation.EqvGen r x a} := by
    intro s hs a ha
    ext x
    refine ⟨fun hx => (hr x a).mp (.inr ⟨s, hs, hx, ha⟩), fun hx => ?_⟩
    obtain rfl | ⟨t, ht, hxt, hat⟩ := (hr x a).mpr hx
    · exact ha
    · exact hl.eq hs ht ha hat ▸ hxt
  constructor
  · rintro ⟨s, hs, rfl⟩
    obtain ⟨a, ha, -⟩ := htwo s hs
    exact ⟨⟨a, hset s hs a ha⟩, htwo s hs⟩
  · rintro ⟨⟨a, rfl⟩, b, hb, c, hc, hne⟩
    have hbc : Relation.EqvGen r b c := hb.trans _ _ _ (hc.symm _ _)
    obtain rfl | ⟨s, hs, hbs, -⟩ := (hr b c).mpr hbc
    · exact absurd rfl hne
    · refine ⟨s, hs, ?_⟩
      rw [hset s hs b hbs]
      ext x
      exact ⟨fun hx => hx.trans _ _ _ (hb.symm _ _), fun hx => hx.trans _ _ _ hb⟩

end StarCE
