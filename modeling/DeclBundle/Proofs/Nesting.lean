import DeclBundle.Syntax.Region
import Mathlib.Data.List.Lex
import Mathlib.Order.Basic

/-!
# Nested trees

What it means for two regions of a nested tree that one address is less than another: either the
second address begins with the first, and the second region lies in the first, or the first region
ends before the second begins (`Nested.of_lt`). So regions begin in the order of their addresses
(`Nested.start_le`).

`Corresponding R t r` says that two trees have the same addresses and that a relation holds
between the regions at each.
-/

namespace DeclBundle

namespace Region

variable {α : Type}

theorem nested_iff (r : Region α) :
    Nested r ↔ r.start ≤ r.stop ∧ NestedFrom r.start r.stop r.children := by
  obtain ⟨label, start, stop, children⟩ := r
  rw [Nested]

@[simp] theorem nestedFrom_nil (low high : Nat) :
    NestedFrom low high ([] : List (Region α)) ↔ low ≤ high := by
  rw [NestedFrom]

theorem nestedFrom_cons (low high : Nat) (c : Region α) (cs : List (Region α)) :
    NestedFrom low high (c :: cs) ↔ low ≤ c.start ∧ Nested c ∧ NestedFrom c.stop high cs := by
  rw [NestedFrom]

theorem NestedFrom.le {low high : Nat} {cs : List (Region α)} (h : NestedFrom low high cs) :
    low ≤ high := by
  induction cs generalizing low with
  | nil => exact (nestedFrom_nil low high).1 h
  | cons c cs ih =>
      obtain ⟨hlow, hc, hcs⟩ := (nestedFrom_cons low high c cs).1 h
      have hstop := ((nested_iff c).1 hc).1
      exact hlow.trans (hstop.trans (ih hcs))

theorem NestedFrom.mono_left {low low' high : Nat} {cs : List (Region α)} (h : NestedFrom low high cs)
    (hle : low' ≤ low) : NestedFrom low' high cs := by
  cases cs with
  | nil => exact (nestedFrom_nil low' high).2 (hle.trans h.le)
  | cons c cs =>
      obtain ⟨hlow, hc, hcs⟩ := (nestedFrom_cons low high c cs).1 h
      exact (nestedFrom_cons low' high c cs).2 ⟨hle.trans hlow, hc, hcs⟩

theorem NestedFrom.child {low high i : Nat} {c : Region α} {cs : List (Region α)}
    (h : NestedFrom low high cs) (hc : cs[i]? = some c) :
    low ≤ c.start ∧ Nested c ∧ c.stop ≤ high := by
  induction cs generalizing low i with
  | nil => simp at hc
  | cons d cs ih =>
      obtain ⟨hlow, hd, hcs⟩ := (nestedFrom_cons low high d cs).1 h
      cases i with
      | zero =>
          obtain rfl : d = c := by simpa using hc
          exact ⟨hlow, hd, hcs.le⟩
      | succ i =>
          obtain ⟨hstart, hnested, hstop⟩ := ih hcs (by simpa using hc)
          have hd' := ((nested_iff d).1 hd).1
          exact ⟨hlow.trans (hd'.trans hstart), hnested, hstop⟩

theorem NestedFrom.stop_le_start {low high i j : Nat} {c d : Region α} {cs : List (Region α)}
    (h : NestedFrom low high cs) (hc : cs[i]? = some c) (hd : cs[j]? = some d) (hij : i < j) :
    c.stop ≤ d.start := by
  induction cs generalizing low i j with
  | nil => simp at hc
  | cons e cs ih =>
      obtain ⟨-, -, hcs⟩ := (nestedFrom_cons low high e cs).1 h
      cases j with
      | zero => exact absurd hij (Nat.not_lt_zero i)
      | succ j =>
          cases i with
          | zero =>
              obtain rfl : e = c := by simpa using hc
              exact (hcs.child (by simpa using hd)).1
          | succ i =>
              exact ih hcs (by simpa using hc) (by simpa using hd) (Nat.lt_of_succ_lt_succ hij)

mutual

/-- What holds of a region if it holds of its children holds of all regions. -/
@[elab_as_elim]
theorem induction {motive : Region α → Prop}
    (node : ∀ r, (∀ c ∈ r.children, motive c) → motive r) : ∀ r, motive r
  | ⟨_, _, _, children⟩ => node _ (forall_mem_induction node children)

theorem forall_mem_induction {motive : Region α → Prop}
    (node : ∀ r, (∀ c ∈ r.children, motive c) → motive r) :
    ∀ cs : List (Region α), ∀ c ∈ cs, motive c
  | [] => List.forall_mem_nil _
  | c :: cs => List.forall_mem_cons.2 ⟨induction node c, forall_mem_induction node cs⟩

end

theorem mem_preorders_iff {x : Region α} {cs : List (Region α)} :
    x ∈ preorders cs ↔ ∃ c ∈ cs, x ∈ preorder c := by
  induction cs with
  | nil => simp [preorders]
  | cons c cs ih => simp [preorders, ih]

theorem mem_preorder_iff {r x : Region α} :
    x ∈ preorder r ↔ x = r ∨ ∃ c ∈ r.children, x ∈ preorder c := by
  obtain ⟨_, _, _, children⟩ := r
  rw [preorder, List.mem_cons, mem_preorders_iff]

theorem mem_preorder_self (r : Region α) : r ∈ preorder r := mem_preorder_iff.2 (Or.inl rfl)

theorem mem_preorder_of_mem {r c x : Region α} (hc : c ∈ r.children) (hx : x ∈ preorder c) :
    x ∈ preorder r := mem_preorder_iff.2 (Or.inr ⟨c, hc, hx⟩)

theorem mem_preorder_trans {r x y : Region α} (hy : y ∈ preorder x) (hx : x ∈ preorder r) :
    y ∈ preorder r := by
  induction r using Region.induction with
  | node r ih =>
      rcases mem_preorder_iff.1 hx with rfl | ⟨c, hc, hx⟩
      · exact hy
      · exact mem_preorder_of_mem hc (ih c hc hx)

theorem Nested.of_mem_children {r c : Region α} (h : Nested r) (hc : c ∈ r.children) :
    r.start ≤ c.start ∧ Nested c ∧ c.stop ≤ r.stop := by
  obtain ⟨i, hi⟩ := List.mem_iff_getElem?.1 hc
  exact ((nested_iff r).1 h).2.child hi

theorem NestedFrom.exists_of_append {low high : Nat} {cs ds : List (Region α)}
    (h : NestedFrom low high (cs ++ ds)) :
    ∃ mid, NestedFrom low mid cs ∧ NestedFrom mid high ds := by
  induction cs generalizing low with
  | nil => exact ⟨low, (nestedFrom_nil low low).2 le_rfl, h⟩
  | cons c cs ih =>
      obtain ⟨hlow, hc, hrest⟩ := (nestedFrom_cons low high c (cs ++ ds)).1 h
      obtain ⟨mid, hcs, hds⟩ := ih hrest
      exact ⟨mid, (nestedFrom_cons low mid c cs).2 ⟨hlow, hc, hcs⟩, hds⟩

theorem NestedFrom.getLast {low high : Nat} {cs : List (Region α)} (h : NestedFrom low high cs)
    (hne : cs ≠ []) :
    NestedFrom low (cs.getLast hne).stop cs ∧ (cs.getLast hne).stop ≤ high := by
  induction cs generalizing low with
  | nil => exact absurd rfl hne
  | cons c cs ih =>
      obtain ⟨hlow, hc, hcs⟩ := (nestedFrom_cons low high c cs).1 h
      cases cs with
      | nil =>
          have hnil : NestedFrom c.stop c.stop ([] : List (Region α)) := (nestedFrom_nil _ _).2 le_rfl
          exact ⟨(nestedFrom_cons low c.stop c []).2 ⟨hlow, hc, hnil⟩, hcs.le⟩
      | cons d ds =>
          obtain ⟨hrest, hle⟩ := ih hcs (List.cons_ne_nil d ds)
          rw [List.getLast_cons (List.cons_ne_nil d ds)]
          exact ⟨(nestedFrom_cons _ _ c _).2 ⟨hlow, hc, hrest⟩, hle⟩

theorem exists_child_of_get?_cons {r x : Region α} {i : Nat} {a : List Nat}
    (h : r.get? (i :: a) = some x) : ∃ c, r.children[i]? = some c ∧ c.get? a = some x := by
  rw [get?_cons] at h
  exact Option.bind_eq_some_iff.1 h

theorem Nested.descendant {r x : Region α} (h : Nested r) :
    ∀ {a : List Nat}, r.get? a = some x → r.start ≤ x.start ∧ Nested x ∧ x.stop ≤ r.stop := by
  intro a
  induction a generalizing r with
  | nil =>
      intro hx
      obtain rfl : r = x := by simpa using hx
      exact ⟨le_rfl, h, le_rfl⟩
  | cons i a ih =>
      intro hx
      obtain ⟨c, hc, hcx⟩ := exists_child_of_get?_cons hx
      obtain ⟨hstart, hnested, hstop⟩ := ((nested_iff r).1 h).2.child hc
      obtain ⟨hstart', hnested', hstop'⟩ := ih hnested hcx
      exact ⟨hstart.trans hstart', hnested', hstop'.trans hstop⟩

/-- Of two regions of a nested tree the one with the less address holds the other or ends before it.
-/
theorem Nested.of_lt {r x y : Region α} (h : Nested r) :
    ∀ {a b : List Nat}, r.get? a = some x → r.get? b = some y → a < b →
      (a <+: b ∧ x.start ≤ y.start ∧ y.stop ≤ x.stop) ∨ x.stop ≤ y.start := by
  intro a
  induction a generalizing r with
  | nil =>
      intro b hx hy _
      obtain rfl : r = x := by simpa using hx
      obtain ⟨hstart, -, hstop⟩ := h.descendant hy
      exact Or.inl ⟨List.nil_prefix, hstart, hstop⟩
  | cons i a ih =>
      intro b hx hy hlt
      obtain ⟨c, hc, hcx⟩ := exists_child_of_get?_cons hx
      have hall := ((nested_iff r).1 h).2
      cases b with
      | nil => exact absurd hlt (List.not_lt_nil _)
      | cons j b =>
          obtain ⟨d, hd, hdy⟩ := exists_child_of_get?_cons hy
          rcases List.cons_lt_cons_iff.1 hlt with hij | ⟨rfl, hab⟩
          · have hx' := (hall.child hc).2.1.descendant hcx
            have hy' := (hall.child hd).2.1.descendant hdy
            have hcd := hall.stop_le_start hc hd hij
            exact Or.inr (hx'.2.2.trans (hcd.trans hy'.1))
          · obtain rfl : c = d := by simpa [hc] using hd
            rcases ih (hall.child hc).2.1 hcx hdy hab with ⟨hp, hin⟩ | hout
            · exact Or.inl ⟨(List.prefix_cons_inj i).2 hp, hin⟩
            · exact Or.inr hout

theorem Nested.start_le {r x y : Region α} (h : Nested r) {a b : List Nat}
    (hx : r.get? a = some x) (hy : r.get? b = some y) (hab : a < b) : x.start ≤ y.start := by
  rcases h.of_lt hx hy hab with ⟨-, hstart, -⟩ | hstop
  · exact hstart
  · exact ((nested_iff x).1 (h.descendant hx).2.1).1.trans hstop

/-- Two trees have the same addresses and a relation holds between the regions at each. -/
def Corresponding (R : Region α → Region α → Prop) (t r : Region α) : Prop :=
  ∀ a, Option.Rel R (t.get? a) (r.get? a)

theorem Corresponding.exists_left {R : Region α → Region α → Prop} {t r y : Region α}
    (h : Corresponding R t r) {a : List Nat} (hy : r.get? a = some y) :
    ∃ x, t.get? a = some x ∧ R x y := by
  have ha := h a
  rw [hy] at ha
  cases hx : t.get? a with
  | none =>
      rw [hx] at ha
      cases ha
  | some x =>
      rw [hx] at ha
      cases ha with
      | some hxy => exact ⟨x, rfl, hxy⟩

theorem rel_getElem?_of_forall₂ {β γ : Type} {R : β → γ → Prop} {xs : List β} {ys : List γ}
    (h : List.Forall₂ R xs ys) (i : Nat) : Option.Rel R xs[i]? ys[i]? := by
  induction h generalizing i with
  | nil => exact .none
  | cons hxy _ ih =>
      cases i with
      | zero => exact .some hxy
      | succ i => exact ih i

/-- Trees correspond if their roots are related and their children correspond one by one. -/
theorem corresponding_of_children {R : Region α → Region α → Prop} {t r : Region α} (h : R t r)
    (hc : List.Forall₂ (Corresponding R) t.children r.children) : Corresponding R t r := by
  intro a
  cases a with
  | nil =>
      rw [get?_nil, get?_nil]
      exact Option.Rel.some h
  | cons i a =>
      rw [get?_cons, get?_cons]
      have hi := rel_getElem?_of_forall₂ hc i
      generalize t.children[i]? = x at hi ⊢
      generalize r.children[i]? = y at hi ⊢
      cases hi with
      | none => exact .none
      | some hxy => exact hxy a

theorem forall₂_of_getElem? {R : Region α → Region α → Prop} :
    ∀ {ts rs : List (Region α)}, (∀ i : Nat, Option.Rel R ts[i]? rs[i]?) → List.Forall₂ R ts rs
  | [], [], _ => .nil
  | [], r :: _, h => nomatch h 0
  | t :: _, [], h => nomatch h 0
  | t :: ts, r :: rs, h => by
      have hfirst := h 0
      simp only [List.getElem?_cons_zero, Option.rel_some_some] at hfirst
      exact .cons hfirst (forall₂_of_getElem? fun i => by simpa using h (i + 1))

theorem Corresponding.children {R : Region α → Region α → Prop} {t r : Region α}
    (h : Corresponding R t r) : List.Forall₂ (Corresponding R) t.children r.children := by
  refine forall₂_of_getElem? fun i => ?_
  have hchild : ∀ a : List Nat,
      Option.Rel R (t.children[i]?.bind (get? · a)) (r.children[i]?.bind (get? · a)) := by
    intro a
    rw [← get?_cons, ← get?_cons]
    exact h (i :: a)
  generalize t.children[i]? = x at hchild
  generalize r.children[i]? = y at hchild
  cases x with
  | none =>
      cases y with
      | none => exact .none
      | some y => exact nomatch hchild []
  | some x =>
      cases y with
      | none => exact nomatch hchild []
      | some y => exact .some hchild

theorem Corresponding.root {R : Region α → Region α → Prop} {t r : Region α}
    (h : Corresponding R t r) : R t r := by
  have hroot := h []
  rw [get?_nil, get?_nil] at hroot
  cases hroot with
  | some h => exact h

theorem Corresponding.map_get? {β : Type} {R : Region α → Region α → Prop} {t r : Region α}
    (h : Corresponding R t r) (g : Region α → β) (hg : ∀ x y, R x y → g x = g y) (a : List Nat) :
    (t.get? a).map g = (r.get? a).map g := by
  have ha := h a
  generalize t.get? a = x at ha ⊢
  generalize r.get? a = y at ha ⊢
  cases ha with
  | none => rfl
  | some hxy => exact congrArg some (hg _ _ hxy)

end Region

end DeclBundle
