import Mathlib

/-!
# Loops

Rules for `foldl` and for `foldlM` over `Except`, with an invariant indexed by
the part of the list that has been processed.
-/

namespace StarCE

variable {α β ε : Type}

theorem foldl_inv {f : β → α → β} (I : List α → β → Prop) {xs : List α} {b : β} (h0 : I [] b)
    (hstep : ∀ l x b, x ∈ xs → I l b → I (l ++ [x]) (f b x)) : I xs (xs.foldl f b) := by
  have key : ∀ (ys l : List α) (b : β), (∀ y ∈ ys, y ∈ xs) → I l b →
      I (l ++ ys) (ys.foldl f b) := by
    intro ys
    induction ys with
    | nil => intro l b _ h; simpa using h
    | cons y ys ih =>
      intro l b hsub h
      have := ih (l ++ [y]) (f b y) (fun z hz => hsub z (.tail _ hz))
        (hstep l y b (hsub y (.head _)) h)
      rwa [List.append_assoc, List.singleton_append] at this
  exact key xs [] b (fun _ => id) h0

/-- A loop whose body succeeds and keeps the invariant succeeds and keeps it. -/
theorem foldlM_inv {f : β → α → Except ε β} (I : List α → β → Prop) {xs : List α} {b : β}
    (h0 : I [] b)
    (hstep : ∀ l x b, x ∈ xs → I l b → ∃ b', f b x = .ok b' ∧ I (l ++ [x]) b') :
    ∃ b', xs.foldlM f b = .ok b' ∧ I xs b' := by
  have key : ∀ (ys l : List α) (b : β), (∀ y ∈ ys, y ∈ xs) → I l b →
      ∃ b', ys.foldlM f b = .ok b' ∧ I (l ++ ys) b' := by
    intro ys
    induction ys with
    | nil => intro l b _ h; exact ⟨b, rfl, by simpa using h⟩
    | cons y ys ih =>
      intro l b hsub h
      obtain ⟨b', hb', hI⟩ := hstep l y b (hsub y (.head _)) h
      obtain ⟨b'', hb'', hI'⟩ := ih (l ++ [y]) b' (fun z hz => hsub z (.tail _ hz)) hI
      refine ⟨b'', ?_, by rwa [List.append_assoc, List.singleton_append] at hI'⟩
      rw [List.foldlM_cons, hb']
      exact hb''
  exact key xs [] b (fun _ => id) h0

theorem bind_eq_ok {γ : Type} {x : Except ε α} {f : α → Except ε γ} {c : γ} :
    x >>= f = .ok c ↔ ∃ a, x = .ok a ∧ f a = .ok c := by
  cases x with
  | ok a => simp [bind, Except.bind]
  | error e => simp [bind, Except.bind]

/-- The results of a map, with a relation to its arguments. -/
theorem mapM_ok {f : α → Except ε β} {R : α → β → Prop} {xs : List α}
    (h : ∀ x ∈ xs, ∃ y, f x = .ok y ∧ R x y) : ∃ ys, xs.mapM f = .ok ys ∧ List.Forall₂ R xs ys := by
  induction xs with
  | nil => exact ⟨[], rfl, .nil⟩
  | cons x xs ih =>
    obtain ⟨y, hy, hR⟩ := h x (.head _)
    obtain ⟨ys, hys, hRs⟩ := ih fun z hz => h z (.tail _ hz)
    exact ⟨y :: ys, by rw [List.mapM_cons, hy, hys]; rfl, .cons hR hRs⟩

theorem mapM_eq_ok {f : α → Except ε β} {xs : List α} {ys : List β} :
    xs.mapM f = .ok ys ↔ List.Forall₂ (fun x y => f x = .ok y) xs ys := by
  constructor
  · intro h
    induction xs generalizing ys with
    | nil =>
      obtain rfl := Except.ok.inj h
      exact .nil
    | cons x xs ih =>
      rw [List.mapM_cons] at h
      obtain ⟨y, hy, h⟩ := bind_eq_ok.mp h
      obtain ⟨ys', hys, h⟩ := bind_eq_ok.mp h
      obtain rfl := Except.ok.inj h
      exact .cons hy (ih hys)
  · intro h
    induction h with
    | nil => rfl
    | cons hy _ ih =>
      rw [List.mapM_cons, hy, ih]
      rfl

theorem mapM_eq_map {f : α → Except ε β} {k : α → β} {l : List α} (h : ∀ a ∈ l, f a = .ok (k a)) :
    l.mapM f = .ok (l.map k) := by
  induction l with
  | nil => rfl
  | cons a l ih =>
    rw [List.mapM_cons, h a (.head _), ih fun b hb => h b (.tail _ hb)]
    rfl

/-- Mapping over results that are all taken back. -/
theorem mapM_map_ok {γ : Type} {f : β → Except ε γ} {g : α → β} {k : α → γ} {l : List α}
    (h : ∀ a ∈ l, f (g a) = .ok (k a)) : (l.map g).mapM f = .ok (l.map k) := by
  rw [List.mapM_map]
  exact mapM_eq_map h

/-- A loop that succeeds keeps what every successful body keeps. -/
theorem foldlM_keeps {f : β → α → Except ε β} {I : β → Prop} {xs : List α} {b b' : β}
    (h : xs.foldlM f b = .ok b') (h0 : I b)
    (hstep : ∀ x ∈ xs, ∀ b b', I b → f b x = .ok b' → I b') : I b' := by
  induction xs generalizing b with
  | nil =>
    obtain rfl := Except.ok.inj h
    exact h0
  | cons y ys ih =>
    rw [List.foldlM_cons] at h
    obtain ⟨c, hc, h'⟩ := bind_eq_ok.mp h
    exact ih h' (hstep y (.head _) b c h0 hc) fun x hx => hstep x (.tail _ hx)

/-- Loops whose bodies agree on the list. -/
theorem foldl_congr {f g : β → α → β} {xs : List α} {b : β} (h : ∀ b, ∀ x ∈ xs, f b x = g b x) :
    xs.foldl f b = xs.foldl g b := by
  induction xs generalizing b with
  | nil => rfl
  | cons y ys ih =>
    rw [List.foldl_cons, List.foldl_cons, h b y (.head _)]
    exact ih fun b x hx => h b x (.tail _ hx)

theorem foldlM_congr {f g : β → α → Except ε β} {xs : List α} {b : β}
    (h : ∀ b, ∀ x ∈ xs, f b x = g b x) : xs.foldlM f b = xs.foldlM g b := by
  induction xs generalizing b with
  | nil => rfl
  | cons y ys ih =>
    rw [List.foldlM_cons, List.foldlM_cons, h b y (.head _)]
    exact bind_congr fun c => ih fun b x hx => h b x (.tail _ hx)

theorem mapM_congr {f g : α → Except ε β} {xs : List α} (h : ∀ x ∈ xs, f x = g x) :
    xs.mapM f = xs.mapM g := by
  induction xs with
  | nil => rfl
  | cons y ys ih =>
    rw [List.mapM_cons, List.mapM_cons, h y (.head _), ih fun x hx => h x (.tail _ hx)]

theorem foldlM_id {f : β → α → Except ε β} {xs : List α} {b : β} (h : ∀ x ∈ xs, f b x = .ok b) :
    xs.foldlM f b = .ok b := by
  induction xs with
  | nil => rfl
  | cons y ys ih =>
    rw [List.foldlM_cons, h y (.head _)]
    exact ih fun x hx => h x (.tail _ hx)

/-- A loop of which one element alone does something. -/
theorem foldlM_single {f : β → α → Except ε β} {xs : List α} {x : α} {b b' : β} (hn : xs.Nodup)
    (hx : x ∈ xs) (hok : f b x = .ok b') (hother : ∀ c, ∀ y ∈ xs, y ≠ x → f c y = .ok c) :
    xs.foldlM f b = .ok b' := by
  obtain ⟨l, l', rfl⟩ := List.append_of_mem hx
  have hnot : x ∉ l ∧ x ∉ l' := by
    have := (List.nodup_middle.mp hn)
    rw [List.nodup_cons, List.mem_append, not_or] at this
    exact this.1
  have hl : l.foldlM f b = .ok b := foldlM_id fun y hy =>
    hother b y (List.mem_append_left _ hy) fun h => hnot.1 (h ▸ hy)
  have hl' : l'.foldlM f b' = .ok b' := foldlM_id fun y hy =>
    hother b' y (List.mem_append_right _ (.tail _ hy)) fun h => hnot.2 (h ▸ hy)
  rw [List.foldlM_append, hl]
  change (x :: l').foldlM f b = _
  rw [List.foldlM_cons, hok]
  exact hl'

/-- A loop that succeeds has done so at every element. -/
theorem exists_ok_of_foldlM {f : β → α → Except ε β} {xs : List α} {b b' : β}
    (h : xs.foldlM f b = .ok b') : ∀ x ∈ xs, ∃ c c', f c x = .ok c' := by
  induction xs generalizing b with
  | nil => simp
  | cons y ys ih =>
    rw [List.foldlM_cons] at h
    obtain ⟨c, hc, h'⟩ := bind_eq_ok.mp h
    exact List.forall_mem_cons.mpr ⟨⟨b, c, hc⟩, ih h'⟩

theorem map_getD_range (l : List α) (d : α) : (List.range l.length).map (l.getD · d) = l := by
  refine List.ext_getElem (by simp) fun k hk hk' => ?_
  rw [List.getElem_map, List.getElem_range, List.getD_eq_getElem _ _ hk']

end StarCE
