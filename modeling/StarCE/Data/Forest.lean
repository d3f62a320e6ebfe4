import StarCE.Data.Loop
import StarCE.Data.Ordered
import StarCE.Data.Partition

/-!
# Union-find in a dictionary

The parents are kept in a map; a root is its own parent, and an element is
added when it is first looked for. `find` compresses paths. A forest stands for
a choice of roots (`Rooted`): `find` keeps it, `union` sends one tree to the
root of another, and after a list of pairs two elements have one root when the
pairs make them equivalent (`unite_spec`). The trees with two elements are then
the classes with two elements (`trees_spec`).
-/

namespace StarCE

namespace Forest

variable {α ε : Type} [LinearOrder α]

/-- The root of `x`; all elements on the way are pointed at it. `e` reports that the fuel ran out. -/
def find (e : ε) : ℕ → OrdMap α α → α → Except ε (α × OrdMap α α)
  | 0, _, _ => .error e
  | fuel + 1, parent, x =>
    match parent.find? x with
    | none => .ok (x, parent.insert x x)
    | some p =>
      if p = x then .ok (x, parent)
      else do
        let (root, parent) ← find e fuel parent p
        pure (root, parent.insert x root)

/-- `parent[find(x)] = find(y)`: the right-hand side comes first. -/
def union (e : ε) (fuel : ℕ) (parent : OrdMap α α) (x y : α) : Except ε (OrdMap α α) := do
  let (rooty, parent) ← find e fuel parent y
  let (rootx, parent) ← find e fuel parent x
  pure (parent.insert rootx rooty)

/-- One pair: its elements are united and looked for once more. -/
def unitePair (e : ε) (fuel : ℕ) (parent : OrdMap α α) (p : α × α) : Except ε (OrdMap α α) := do
  let parent ← union e fuel parent p.1 p.2
  let (_, parent) ← find e fuel parent p.1
  let (_, parent) ← find e fuel parent p.2
  pure parent

/-- The elements by their roots. -/
def groups (e : ε) (fuel : ℕ) (parent : OrdMap α α) :
    Except ε (OrdMap α α × OrdMap α (OrdSet α)) :=
  (parent.toList.map (·.1)).foldlM (fun s n => do
    let (root, parent) ← find e fuel s.1 n
    pure (parent, s.2.insert root (((s.2.find? root).getD ∅).insert n))) (parent, ∅)

/-- `root` and `depth` describe the trees. -/
structure Rooted (parent : OrdMap α α) (root : α → α) (depth : α → ℕ) : Prop where
  out : ∀ {x}, parent.find? x = none → root x = x
  up : ∀ {x p}, parent.find? x = some p → root p = root x ∧ (parent.find? p).isSome
  top : ∀ {x}, parent.find? x = some x → root x = x
  deeper : ∀ {x p}, parent.find? x = some p → p ≠ x → depth p < depth x
  flat : ∀ {x}, root x = x → depth x = 0

variable {e : ε} {parent : OrdMap α α} {root : α → α} {depth : α → ℕ} {x r : α}

namespace Rooted

theorem empty : Rooted (∅ : OrdMap α α) id fun _ => 0 where
  out _ := rfl
  up h := by simp at h
  top h := by simp at h
  deeper h := by simp at h
  flat _ := rfl

/-- What holds of the roots and goes down from a parent to a child holds. -/
theorem rec_up (h : Rooted parent root depth) {P : α → Prop} (hroot : ∀ x, root x = x → P x)
    (hstep : ∀ x p, parent.find? x = some p → p ≠ x → P p → P x) (x : α) : P x := by
  induction hd : depth x using Nat.strong_induction_on generalizing x with
  | _ d ih =>
    cases hx : parent.find? x with
    | none => exact hroot x (h.out hx)
    | some p =>
      by_cases hp : p = x
      · rw [hp] at hx
        exact hroot x (h.top hx)
      · exact hstep x p hx hp (ih _ (hd ▸ h.deeper hx hp) p rfl)

theorem root_root (h : Rooted parent root depth) (x : α) : root (root x) = root x := by
  refine h.rec_up (P := fun x => root (root x) = root x) (fun x hx => by rw [hx, hx]) ?_ x
  intro x p hx _ hp
  rwa [(h.up hx).1] at hp

theorem isSome_root (h : Rooted parent root depth) (hx : (parent.find? x).isSome) :
    (parent.find? (root x)).isSome := by
  revert hx
  refine h.rec_up (P := fun x => (parent.find? x).isSome → (parent.find? (root x)).isSome)
    (fun x hr hx => by rwa [hr]) ?_ x
  intro x p hx _ hp _
  rw [← (h.up hx).1]
  exact hp (h.up hx).2

/-- A new element, or a shortcut. -/
theorem insert (h : Rooted parent root depth) (hr : root r = root x)
    (hin : r = x ∨ (parent.find? r).isSome) (htop : r = x → root x = x)
    (hd : r ≠ x → depth r < depth x) : Rooted (parent.insert x r) root depth where
  out {z} hz := by
    rw [OrdMap.find?_insert] at hz
    split at hz
    · cases hz
    · exact h.out hz
  up {z p} hz := by
    have hkeep : ∀ {w}, (parent.find? w).isSome → ((parent.insert x r).find? w).isSome := by
      intro w hw
      rw [OrdMap.find?_insert]
      split
      · rfl
      · exact hw
    rw [OrdMap.find?_insert] at hz
    split at hz
    · next hzx =>
      cases hz
      subst hzx
      refine ⟨hr, ?_⟩
      rcases hin with hrx | hin
      · rw [hrx, OrdMap.find?_insert_self]
        rfl
      · exact hkeep hin
    · exact ⟨(h.up hz).1, hkeep (h.up hz).2⟩
  top {z} hz := by
    rw [OrdMap.find?_insert] at hz
    split at hz
    · next hzx =>
      subst hzx
      exact htop (Option.some.inj hz)
    · exact h.top hz
  deeper {z p} hz hne := by
    rw [OrdMap.find?_insert] at hz
    split at hz
    · next hzx =>
      cases hz
      subst hzx
      exact hd hne
    · exact h.deeper hz hne
  flat := h.flat

/-- A root is pointed at another. -/
theorem link {rx ry : α} (h : Rooted parent root depth) (hx : root rx = rx) (hy : root ry = ry)
    (hne : rx ≠ ry) (hin : (parent.find? ry).isSome) :
    Rooted (parent.insert rx ry) (fun z => if root z = rx then ry else root z)
      fun z => if root z = rx then depth z + 1 else depth z where
  out {z} hz := by
    rw [OrdMap.find?_insert] at hz
    split at hz
    · cases hz
    · next hzx =>
      have := h.out hz
      rw [if_neg (by rwa [this]), this]
  up {z p} hz := by
    have hkeep : ∀ {w}, (parent.find? w).isSome → ((parent.insert rx ry).find? w).isSome := by
      intro w hw
      rw [OrdMap.find?_insert]
      split
      · rfl
      · exact hw
    rw [OrdMap.find?_insert] at hz
    split at hz
    · next hzx =>
      cases hz
      subst hzx
      rw [if_pos hx, hy, if_neg hne.symm]
      exact ⟨rfl, hkeep hin⟩
    · rw [(h.up hz).1]
      exact ⟨rfl, hkeep (h.up hz).2⟩
  top {z} hz := by
    rw [OrdMap.find?_insert] at hz
    split at hz
    · next hzx => exact absurd (hzx.symm.trans (Option.some.inj hz).symm) hne
    · next hzx => rw [if_neg (by rwa [h.top hz]), h.top hz]
  deeper {z p} hz hpz := by
    rw [OrdMap.find?_insert] at hz
    split at hz
    · next hzx =>
      cases hz
      subst hzx
      rw [if_pos hx, hy, if_neg hne.symm, h.flat hy]
      omega
    · have hlt := h.deeper hz hpz
      rw [(h.up hz).1]
      split
      · omega
      · exact hlt
  flat {z} hz := by
    split at hz
    · next hzx =>
      rw [← hz, hy] at hzx
      exact absurd hzx.symm hne
    · next hzx =>
      rw [if_neg hzx, h.flat hz]

end Rooted

/-- The keys of a map after one more look-up. -/
def Added (parent parent' : OrdMap α α) (x : α) : Prop :=
  ∀ z, (parent'.find? z).isSome ↔ z = x ∨ (parent.find? z).isSome

theorem added_insert (parent : OrdMap α α) (x r : α) : Added parent (parent.insert x r) x := by
  intro z
  rw [OrdMap.find?_insert]
  by_cases hz : z = x <;> simp [hz]

theorem find_spec {fuel : ℕ} (h : Rooted parent root depth) (hf : depth x < fuel) :
    ∃ parent', find e fuel parent x = .ok (root x, parent') ∧ Rooted parent' root depth ∧
      Added parent parent' x := by
  induction fuel generalizing x with
  | zero => omega
  | succ fuel ih =>
    unfold find
    cases hx : parent.find? x with
    | none =>
      refine ⟨_, ?_, h.insert rfl (.inl rfl) (fun _ => h.out hx) (absurd rfl), added_insert parent x x⟩
      rw [h.out hx]
    | some p =>
      show ∃ parent', (if p = x then _ else _) = _ ∧ _
      by_cases hp : p = x
      · rw [if_pos hp]
        rw [hp] at hx
        refine ⟨parent, by rw [h.top hx], h, fun z => ⟨.inr, ?_⟩⟩
        rintro (rfl | hz)
        · rw [hx]
          rfl
        · exact hz
      · have hlt := h.deeper hx hp
        obtain ⟨hroot, hin⟩ := h.up hx
        obtain ⟨parent', hok, h', hadd⟩ := @ih p (by omega)
        have htop : root x ≠ x := fun hr => by
          have := h.flat hr
          omega
        have hxin : (parent.find? x).isSome := by
          rw [hx]
          rfl
        have hd : root x ≠ x → depth (root x) < depth x := fun _ => by
          rw [h.flat (h.root_root x)]
          omega
        rw [if_neg hp, hok, hroot]
        refine ⟨parent'.insert x (root x), rfl, h'.insert (h.root_root x) (.inr ?_)
          (fun hr => absurd hr htop) hd, fun z => ?_⟩
        · exact (hadd _).mpr (.inr (h.isSome_root hxin))
        · rw [added_insert parent' x (root x) z, hadd z]
          constructor
          · rintro (hz | rfl | hz)
            · exact .inl hz
            · exact .inr hin
            · exact .inr hz
          · rintro (hz | hz)
            · exact .inl hz
            · exact .inr (.inr hz)

/-- The pair joins two trees. -/
theorem same_or_pair {s : α → α → Prop} {root root' : α → α} {x y : α}
    (hs : ∀ z w, root z = root w ↔ Relation.EqvGen s z w)
    (hr : ∀ z, root' z = if root z = root x then root y else root z) (z w : α) :
    root' z = root' w ↔ Relation.EqvGen (fun a b => s a b ∨ a = x ∧ b = y) z w := by
  have hmono : ∀ {z w}, root z = root w → Relation.EqvGen (fun a b => s a b ∨ a = x ∧ b = y) z w :=
    fun h => ((hs _ _).mp h).mono fun _ _ => .inl
  have hxy : Relation.EqvGen (fun a b => s a b ∨ a = x ∧ b = y) x y := .rel _ _ (.inr ⟨rfl, rfl⟩)
  constructor
  · intro h
    rw [hr, hr] at h
    by_cases hz : root z = root x <;> by_cases hw : root w = root x
    · exact hmono (hz.trans hw.symm)
    · rw [if_pos hz, if_neg hw] at h
      exact (hmono hz).trans _ _ _ (hxy.trans _ _ _ (hmono h))
    · rw [if_neg hz, if_pos hw] at h
      exact ((hmono hw).trans _ _ _ (hxy.trans _ _ _ (hmono h.symm))).symm
    · rw [if_neg hz, if_neg hw] at h
      exact hmono h
  · intro h
    induction h with
    | rel a b hab =>
      rcases hab with hab | ⟨rfl, rfl⟩
      · rw [hr, hr, (hs a b).mpr (.rel _ _ hab)]
      · rw [hr, hr, if_pos rfl]
        split <;> rfl
    | refl a => rfl
    | symm a b _ ih => exact ih.symm
    | trans a b c _ _ ih1 ih2 => exact ih1.trans ih2

/-- The forest after a list of pairs. -/
structure Stands (pairs : List (α × α)) (parent : OrdMap α α) (root : α → α) (depth : α → ℕ) :
    Prop where
  rooted : Rooted parent root depth
  depth_le : ∀ z, depth z ≤ pairs.length
  same : ∀ z w, root z = root w ↔ Relation.EqvGen (fun a b => (a, b) ∈ pairs) z w
  keys : ∀ z, (parent.find? z).isSome ↔ ∃ p ∈ pairs, z = p.1 ∨ z = p.2

theorem stands_empty : Stands [] (∅ : OrdMap α α) id fun _ => 0 where
  rooted := .empty
  depth_le _ := le_rfl
  same z w := by
    constructor
    · rintro rfl
      exact .refl _
    · intro h
      induction h with
      | rel a b hab => cases hab
      | refl a => rfl
      | symm a b _ ih => exact ih.symm
      | trans a b c _ _ ih1 ih2 => exact ih1.trans ih2
  keys z := by simp

theorem unitePair_spec {pairs : List (α × α)} {fuel : ℕ} (h : Stands pairs parent root depth)
    (p : α × α) (hf : pairs.length + 1 < fuel) : ∃ parent' root' depth',
      unitePair e fuel parent p = .ok parent' ∧ Stands (pairs ++ [p]) parent' root' depth' := by
  obtain ⟨x, y⟩ := p
  have hfuel : ∀ z, depth z < fuel := fun z => by
    have := h.depth_le z
    omega
  obtain ⟨m1, hok1, h1, hadd1⟩ := find_spec (e := e) h.rooted (hfuel y)
  obtain ⟨m2, hok2, h2, hadd2⟩ := find_spec (e := e) h1 (hfuel x)
  have hx := h.rooted.root_root x
  have hy := h.rooted.root_root y
  have hyin : (m2.find? (root y)).isSome := (hadd2 _).mpr (.inr (h1.isSome_root ((hadd1 y).mpr (.inl rfl))))
  have hxin : (m2.find? (root x)).isSome := h2.isSome_root ((hadd2 x).mpr (.inl rfl))
  -- the trees after the link, and how deep they can be
  obtain ⟨root', depth', h3, hroot, hdepth⟩ : ∃ (root' : α → α) (depth' : α → ℕ),
      Rooted (m2.insert (root x) (root y)) root' depth' ∧
      (∀ z, root' z = if root z = root x then root y else root z) ∧ ∀ z, depth' z ≤ depth z + 1 := by
    by_cases hne : root x = root y
    · refine ⟨root, depth, ?_, fun z => ?_, fun z => Nat.le_succ _⟩
      · rw [← hne]
        exact h2.insert rfl (.inl rfl) (fun _ => hx) (absurd rfl)
      · split
        · next hz => rw [hz, hne]
        · rfl
    · refine ⟨_, _, h2.link hx hy hne hyin, fun _ => rfl, fun z => ?_⟩
      split <;> omega
  have hfuel' : ∀ z, depth' z < fuel := fun z => by
    have := h.depth_le z
    have := hdepth z
    omega
  obtain ⟨m4, hok4, h4, hadd4⟩ := find_spec (e := e) (x := x) h3 (hfuel' x)
  obtain ⟨m5, hok5, h5, hadd5⟩ := find_spec (e := e) (x := y) h4 (hfuel' y)
  have hunion : union e fuel parent x y = .ok (m2.insert (root x) (root y)) :=
    bind_eq_ok.mpr ⟨_, hok1, bind_eq_ok.mpr ⟨_, hok2, rfl⟩⟩
  refine ⟨m5, root', depth', bind_eq_ok.mpr ⟨_, hunion, bind_eq_ok.mpr ⟨_, hok4,
    bind_eq_ok.mpr ⟨_, hok5, rfl⟩⟩⟩, ?_⟩
  refine ⟨h5, fun z => ?_, fun z w => ?_, fun z => ?_⟩
  · have := h.depth_le z
    have := hdepth z
    rw [List.length_append, List.length_singleton]
    omega
  · rw [same_or_pair h.same hroot]
    simp only [List.mem_append, List.mem_singleton, Prod.mk.injEq]
  · rw [hadd2, hadd1, h.keys] at hxin
    rw [hadd5, hadd4, added_insert, hadd2, hadd1, h.keys]
    simp only [List.mem_append, List.mem_singleton, or_and_right, exists_or, exists_eq_left]
    constructor
    · rintro (rfl | rfl | rfl | rfl | rfl | hz)
      · exact .inr (.inr rfl)
      · exact .inr (.inl rfl)
      · rcases hxin with hx' | hy' | hz
        · exact .inr (.inl hx')
        · exact .inr (.inr hy')
        · exact .inl hz
      · exact .inr (.inl rfl)
      · exact .inr (.inr rfl)
      · exact .inl hz
    · rintro (hz | rfl | rfl)
      · exact .inr (.inr (.inr (.inr (.inr hz))))
      · exact .inr (.inl rfl)
      · exact .inl rfl

/-- A list of pairs, with enough fuel. -/
theorem unite_spec {pairs : List (α × α)} {fuel : ℕ} (hf : pairs.length < fuel) :
    ∃ parent root depth, pairs.foldlM (unitePair e fuel) ∅ = .ok parent ∧
      Stands pairs parent root depth := by
  induction pairs using List.reverseRecOn with
  | nil => exact ⟨_, _, _, rfl, stands_empty⟩
  | append_singleton pairs p ih =>
    rw [List.length_append, List.length_singleton] at hf
    obtain ⟨parent, root, depth, hok, h⟩ := ih (by omega)
    obtain ⟨parent', root', depth', hok', h'⟩ := unitePair_spec (e := e) h p hf
    refine ⟨parent', root', depth', ?_, h'⟩
    rw [List.foldlM_append, hok]
    exact bind_eq_ok.mpr ⟨_, rfl, bind_eq_ok.mpr ⟨_, hok', rfl⟩⟩

/-- Every tree is a set under its root. -/
theorem groups_spec {fuel : ℕ} (h : Rooted parent root depth) (hf : ∀ z, depth z < fuel) :
    ∃ parent' g, groups e fuel parent = .ok (parent', g) ∧
      (∀ r s, g.find? r = some s → (∃ a, a ∈ s) ∧ ∀ a ∈ s, root a = r) ∧
      ∀ a, (parent.find? a).isSome → ∃ s, g.find? (root a) = some s ∧ a ∈ s := by
  suffices hrun : ∃ s, groups e fuel parent = .ok s ∧ Rooted s.1 root depth ∧
      (∀ r t, s.2.find? r = some t → (∃ a, a ∈ t) ∧ ∀ a ∈ t, root a = r) ∧
      ∀ a ∈ parent.toList.map (·.1), ∃ t, s.2.find? (root a) = some t ∧ a ∈ t by
    obtain ⟨⟨parent', g⟩, hok, -, hin, hall⟩ := hrun
    refine ⟨parent', g, hok, hin, fun a ha => hall a ?_⟩
    obtain ⟨p, hp⟩ := Option.isSome_iff_exists.mp ha
    exact List.mem_map.mpr ⟨(a, p), OrdMap.mem_toList.mpr hp, rfl⟩
  refine foldlM_inv (fun done (s : OrdMap α α × OrdMap α (OrdSet α)) => Rooted s.1 root depth ∧
      (∀ r t, s.2.find? r = some t → (∃ a, a ∈ t) ∧ ∀ a ∈ t, root a = r) ∧
      ∀ a ∈ done, ∃ t, s.2.find? (root a) = some t ∧ a ∈ t) ⟨h, by simp, by simp⟩ ?_
  rintro done n ⟨m, g⟩ - ⟨hm, hin, hall⟩
  obtain ⟨m', hok, hm', -⟩ := find_spec (e := e) hm (hf n)
  refine ⟨_, bind_eq_ok.mpr ⟨_, hok, rfl⟩, hm', fun r t ht => ?_, fun a ha => ?_⟩
  · rw [OrdMap.find?_insert] at ht
    split at ht
    · next hr =>
      subst hr
      obtain rfl := Option.some.inj ht
      refine ⟨⟨n, OrdSet.mem_insert.mpr (.inl rfl)⟩, fun a ha => ?_⟩
      rcases OrdSet.mem_insert.mp ha with rfl | ha
      · rfl
      · cases hg : g.find? (root n) with
        | none =>
          rw [hg] at ha
          exact absurd ha (OrdSet.not_mem_empty a)
        | some t =>
          rw [hg] at ha
          exact (hin _ t hg).2 a ha
    · exact hin r t ht
  · by_cases hr : root a = root n
    · rw [hr, OrdMap.find?_insert_self]
      refine ⟨_, rfl, OrdSet.mem_insert.mpr ?_⟩
      rcases List.mem_append.mp ha with ha | ha
      · obtain ⟨t, ht, hat⟩ := hall a ha
        rw [hr] at ht
        rw [ht]
        exact .inr hat
      · exact .inl (List.mem_singleton.mp ha)
    · rw [OrdMap.find?_insert_of_ne _ _ hr]
      rcases List.mem_append.mp ha with ha | ha
      · exact hall a ha
      · exact absurd (congrArg root (List.mem_singleton.mp ha)) hr

/-- The trees with two elements are the classes with two elements. -/
theorem trees_spec {pairs : List (α × α)} {fuel : ℕ} (hf : pairs.length < fuel) :
    ∃ parent parent' g, pairs.foldlM (unitePair e fuel) ∅ = .ok parent ∧
      groups e fuel parent = .ok (parent', g) ∧ (g.toList.map (·.2)).Nodup ∧
      (∀ s ∈ g.toList.map (·.2), ∃ a, a ∈ s) ∧
      ∀ c : Set α, (∃ s ∈ g.toList.map (·.2), 1 < s.size ∧ c = {a | a ∈ s}) ↔
        c ∈ (Relation.EqvGen.setoid fun a b => (a, b) ∈ pairs).classes ∧ c.Nontrivial := by
  obtain ⟨parent, root, depth, hok, h⟩ := unite_spec (e := e) hf
  have hfuel : ∀ z, depth z < fuel := fun z => (h.depth_le z).trans_lt hf
  obtain ⟨parent', g, hg, hin, hall⟩ := groups_spec (e := e) h.rooted hfuel
  have hfind : ∀ {s}, s ∈ g.toList.map (·.2) → ∃ r, g.find? r = some s := by
    intro s hs
    obtain ⟨⟨r, t⟩, ht, rfl⟩ := List.mem_map.mp hs
    exact ⟨r, OrdMap.mem_toList.mp ht⟩
  have hapart : Apart (α := α) (g.toList.map (·.2)) := by
    refine List.pairwise_map.mpr (g.sorted.imp_of_mem ?_)
    rintro ⟨r, s⟩ ⟨r', t⟩ hs ht hlt a has hat
    have hs' := (hin r s (OrdMap.mem_toList.mp hs)).2 a has
    have ht' := (hin r' t (OrdMap.mem_toList.mp ht)).2 a hat
    exact absurd (hs'.symm.trans ht') (ne_of_lt hlt)
  have hne : ∀ s ∈ g.toList.map (·.2), ∃ a, a ∈ s := fun s hs => by
    obtain ⟨r, hr⟩ := hfind hs
    exact (hin r s hr).1
  refine ⟨parent, parent', g, hok, hg, hapart.nodup hne, hne, fun c => ?_⟩
  have hfilter : ∀ s, s ∈ (g.toList.map (·.2)).filter (fun s => 1 < s.size) ↔
      s ∈ g.toList.map (·.2) ∧ 1 < s.size := fun s => by
    rw [List.mem_filter, decide_eq_true_eq]
  have hin_of_ne : ∀ {x y}, root x = root y → x ≠ y → (parent.find? x).isSome := by
    intro x y hxy hxy'
    by_contra hx
    have hx' := h.rooted.out (Option.not_isSome_iff_eq_none.mp hx)
    cases hy : parent.find? y with
    | none =>
      rw [hx', h.rooted.out hy] at hxy
      exact hxy' hxy
    | some p =>
      have := h.rooted.isSome_root (x := y) (by rw [hy]; rfl)
      rw [← hxy, hx'] at this
      exact hx this
  have hsame : ∀ x y, Same ((g.toList.map (·.2)).filter fun s => 1 < s.size) x y ↔
      Relation.EqvGen (fun a b => (a, b) ∈ pairs) x y := by
    intro x y
    rw [← h.same]
    constructor
    · rintro (rfl | ⟨s, hs, hx, hy⟩)
      · rfl
      · obtain ⟨r, hr⟩ := hfind ((hfilter s).mp hs).1
        exact ((hin r s hr).2 x hx).trans ((hin r s hr).2 y hy).symm
    · intro hxy
      by_cases he : x = y
      · exact .inl he
      · obtain ⟨s, hs, hx⟩ := hall x (hin_of_ne hxy he)
        obtain ⟨t, ht, hy⟩ := hall y (hin_of_ne hxy.symm (Ne.symm he))
        rw [hxy] at hs
        obtain rfl := Option.some.inj (hs.symm.trans ht)
        refine .inr ⟨s, (hfilter s).mpr ⟨List.mem_map.mpr ⟨_, OrdMap.mem_toList.mpr hs, rfl⟩, ?_⟩, hx, hy⟩
        exact OrdSet.one_lt_size_iff.mpr ⟨x, hx, y, hy, he⟩
  have hapart' : Apart (α := α) ((g.toList.map (·.2)).filter fun s => 1 < s.size) :=
    List.Pairwise.filter _ (show List.Pairwise _ _ from hapart)
  rw [← hapart'.mem_classes_iff (fun s hs => OrdSet.one_lt_size_iff.mp ((hfilter s).mp hs).2) hsame c]
  simp only [hfilter, and_assoc]

end Forest

end StarCE
