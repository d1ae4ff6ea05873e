import DeclBundle.Splice

/-!
# Visits

A walk asks for the replacement of one region after another. `visits replace r` lists these visits
with the address and the parent of each region, and without a cursor: the regions are those above
which nothing is replaced (`mem_visits_iff`), each occurs once and in the order of the addresses
(`visits_sorted`). An address that another one begins with comes before it, so that order is the one
in which every region comes before its children.

`edits` are the stretches that are replaced, with what is put in for them.
-/

namespace DeclBundle

namespace Region

variable {α : Type}

/-- A region that is asked for, with its place in the tree. -/
structure Visit (α : Type) where
  address : List Nat
  parent : Option (Region α)
  region : Region α

/-- A stretch of a text and what is put in for it. -/
structure Edit where
  start : Nat
  stop : Nat
  text : String
deriving DecidableEq, Repr

namespace Visit

/-- The same visit, seen from the parent of a tree that is its child at a position. -/
def under (i : Nat) (v : Visit α) : Visit α := { v with address := i :: v.address }

def edit? (replace : Replacement α) (v : Visit α) : Option Edit :=
  (replace v.parent v.region).map fun text => ⟨v.region.start, v.region.stop, text⟩

@[simp] theorem address_under (i : Nat) (v : Visit α) : (v.under i).address = i :: v.address := rfl

@[simp] theorem parent_under (i : Nat) (v : Visit α) : (v.under i).parent = v.parent := rfl

@[simp] theorem region_under (i : Nat) (v : Visit α) : (v.under i).region = v.region := rfl

@[simp] theorem edit?_under (replace : Replacement α) (i : Nat) (v : Visit α) :
    (v.under i).edit? replace = v.edit? replace := rfl

end Visit

mutual

def visitsFrom (replace : Replacement α) (parent : Option (Region α)) : Region α → List (Visit α)
  | ⟨label, start, stop, children⟩ =>
    let r : Region α := ⟨label, start, stop, children⟩
    ⟨[], parent, r⟩ ::
      match replace parent r with
      | some _ => []
      | none => visitsAll replace (some r) 0 children

/-- The visits of a row of trees, the first of which has a position. -/
def visitsAll (replace : Replacement α) (parent : Option (Region α)) (i : Nat) :
    List (Region α) → List (Visit α)
  | [] => []
  | c :: cs =>
    (visitsFrom replace parent c).map (Visit.under i) ++ visitsAll replace parent (i + 1) cs

end

def visits (replace : Replacement α) (r : Region α) : List (Visit α) := visitsFrom replace none r

/-- What is replaced in a tree below a parent, in the order of the visits. -/
def editsFrom (replace : Replacement α) (parent : Option (Region α)) (r : Region α) : List Edit :=
  (visitsFrom replace parent r).filterMap (Visit.edit? replace)

def editsAll (replace : Replacement α) (parent : Option (Region α)) (rs : List (Region α)) :
    List Edit :=
  (visitsAll replace parent 0 rs).filterMap (Visit.edit? replace)

def edits (replace : Replacement α) (r : Region α) : List Edit := editsFrom replace none r

def placedEdits (replace : Replacement α) (r : Region α) : List (List Nat × Edit) :=
  (visits replace r).filterMap fun v => (v.edit? replace).map fun e => (v.address, e)

/-- The parent of the region at an address, the tree itself having a given one. -/
def parentAt (above : Option (Region α)) (r : Region α) (a : List Nat) : Option (Region α) :=
  if a = [] then above else r.get? a.dropLast

theorem visitsFrom_of_some {replace : Replacement α} {parent : Option (Region α)} {r : Region α}
    {text : String} (h : replace parent r = some text) :
    visitsFrom replace parent r = [⟨[], parent, r⟩] := by
  obtain ⟨label, start, stop, children⟩ := r
  rw [visitsFrom]
  simp only [h]

theorem visitsFrom_of_none {replace : Replacement α} {parent : Option (Region α)} {r : Region α}
    (h : replace parent r = none) :
    visitsFrom replace parent r =
      ⟨[], parent, r⟩ :: visitsAll replace (some r) 0 r.children := by
  obtain ⟨label, start, stop, children⟩ := r
  rw [visitsFrom]
  simp only [h]

@[simp] theorem visitsAll_nil (replace : Replacement α) (parent : Option (Region α)) (i : Nat) :
    visitsAll replace parent i [] = [] := by
  rw [visitsAll]

theorem visitsAll_cons (replace : Replacement α) (parent : Option (Region α)) (i : Nat)
    (c : Region α) (cs : List (Region α)) :
    visitsAll replace parent i (c :: cs) =
      (visitsFrom replace parent c).map (Visit.under i) ++ visitsAll replace parent (i + 1) cs := by
  rw [visitsAll]

theorem filterMap_edit?_visitsAll (replace : Replacement α) (parent : Option (Region α)) :
    ∀ (i : Nat) (rs : List (Region α)),
      (visitsAll replace parent i rs).filterMap (Visit.edit? replace) =
        rs.flatMap (editsFrom replace parent)
  | i, [] => by simp
  | i, c :: cs => by
      have ih := filterMap_edit?_visitsAll replace parent (i + 1) cs
      have hunder : Visit.edit? replace ∘ Visit.under i = Visit.edit? replace := rfl
      rw [visitsAll_cons, List.filterMap_append, List.filterMap_map, hunder, ih,
        List.flatMap_cons, editsFrom]

theorem editsFrom_of_some {replace : Replacement α} {parent : Option (Region α)} {r : Region α}
    {text : String} (h : replace parent r = some text) :
    editsFrom replace parent r = [⟨r.start, r.stop, text⟩] := by
  simp [editsFrom, visitsFrom_of_some h, Visit.edit?, h]

theorem editsFrom_of_none {replace : Replacement α} {parent : Option (Region α)} {r : Region α}
    (h : replace parent r = none) :
    editsFrom replace parent r = editsAll replace (some r) r.children := by
  simp [editsFrom, editsAll, visitsFrom_of_none h, Visit.edit?, h]

@[simp] theorem editsAll_nil (replace : Replacement α) (parent : Option (Region α)) :
    editsAll replace parent [] = [] := by
  simp [editsAll]

theorem editsAll_cons (replace : Replacement α) (parent : Option (Region α)) (c : Region α)
    (cs : List (Region α)) :
    editsAll replace parent (c :: cs) =
      editsFrom replace parent c ++ editsAll replace parent cs := by
  simp only [editsAll, filterMap_edit?_visitsAll, List.flatMap_cons]

mutual

/-- A walk asks for the regions that are visited, wherever its cursor starts. -/
theorem visited_walk (replace : Replacement α) (parent : Option (Region α)) (cursor : Nat) :
    ∀ r : Region α,
      (walk replace parent cursor r).visited = (visitsFrom replace parent r).map Visit.region
  | ⟨label, start, stop, children⟩ => by
      rw [walk, visitsFrom]
      cases h : replace parent ⟨label, start, stop, children⟩ with
      | some text => simp only [List.map_cons, List.map_nil]
      | none =>
          have ih := visited_walkAll replace (some ⟨label, start, stop, children⟩)
            (max cursor start) 0 children
          simp only [List.map_cons, ih]

theorem visited_walkAll (replace : Replacement α) (parent : Option (Region α)) (cursor i : Nat) :
    ∀ rs : List (Region α),
      (walkAll replace parent cursor rs).visited =
        (visitsAll replace parent i rs).map Visit.region
  | [] => by simp [walkAll]
  | c :: cs => by
      have hc := visited_walk replace parent cursor c
      have hcs := visited_walkAll replace parent (walk replace parent cursor c).cursor (i + 1) cs
      have hunder : Visit.region ∘ Visit.under (α := α) i = Visit.region := rfl
      rw [walkAll, visitsAll_cons, List.map_append, List.map_map, hunder, ← hc, ← hcs]

end

theorem visited_eq_map_visits (root : Region α) (replace : Replacement α) :
    root.visited replace = (root.visits replace).map Visit.region :=
  visited_walk replace none 0 root

theorem mem_visitsAll {replace : Replacement α} {parent : Option (Region α)} {v : Visit α} :
    ∀ {i : Nat} {rs : List (Region α)}, v ∈ visitsAll replace parent i rs ↔
      ∃ j c w, rs[j]? = some c ∧ w ∈ visitsFrom replace parent c ∧ v = w.under (i + j)
  | i, [] => by simp
  | i, c :: cs => by
      rw [visitsAll_cons, List.mem_append, mem_visitsAll, List.mem_map]
      constructor
      · rintro (⟨w, hw, rfl⟩ | ⟨j, d, w, hd, hw, rfl⟩)
        · exact ⟨0, c, w, rfl, hw, rfl⟩
        · refine ⟨j + 1, d, w, by simpa using hd, hw, ?_⟩
          rw [Nat.add_assoc, Nat.add_comm 1 j]
      · rintro ⟨j, d, w, hd, hw, rfl⟩
        cases j with
        | zero =>
            obtain rfl : c = d := by simpa using hd
            exact Or.inl ⟨w, hw, rfl⟩
        | succ j =>
            refine Or.inr ⟨j, d, w, by simpa using hd, hw, ?_⟩
            rw [Nat.add_assoc, Nat.add_comm 1 j]

theorem mem_visitsFrom_nil {replace : Replacement α} {parent p : Option (Region α)}
    {r n : Region α} :
    ⟨[], p, n⟩ ∈ visitsFrom replace parent r ↔ p = parent ∧ n = r := by
  have hall : ⟨[], p, n⟩ ∉ visitsAll replace (some r) 0 r.children := by
    intro h
    obtain ⟨j, c, w, -, -, hv⟩ := mem_visitsAll.1 h
    simpa using congrArg Visit.address hv
  cases h : replace parent r with
  | some text => simp [visitsFrom_of_some h]
  | none => simp [visitsFrom_of_none h, hall]

theorem mem_visitsFrom_cons {replace : Replacement α} {parent p : Option (Region α)}
    {r n : Region α} {i : Nat} {a : List Nat} :
    ⟨i :: a, p, n⟩ ∈ visitsFrom replace parent r ↔
      replace parent r = none ∧
        ∃ c, r.children[i]? = some c ∧ ⟨a, p, n⟩ ∈ visitsFrom replace (some r) c := by
  cases h : replace parent r with
  | some text => simp [visitsFrom_of_some h]
  | none =>
      rw [visitsFrom_of_none h, List.mem_cons, mem_visitsAll]
      constructor
      · rintro (h | ⟨j, c, w, hc, hw, hv⟩)
        · simpa using congrArg Visit.address h
        · obtain ⟨b, q, m⟩ := w
          simp only [Visit.under, Nat.zero_add, Visit.mk.injEq, List.cons.injEq] at hv
          obtain ⟨⟨rfl, rfl⟩, rfl, rfl⟩ := hv
          exact ⟨rfl, c, hc, hw⟩
      · rintro ⟨-, c, hc, hw⟩
        exact Or.inr ⟨i, c, _, hc, hw, by simp [Visit.under]⟩

theorem get?_cons_of_child {r c : Region α} {i : Nat} (hc : r.children[i]? = some c)
    (a : List Nat) : r.get? (i :: a) = c.get? a := by
  rw [get?_cons, hc, Option.bind_some]

theorem parentAt_cons_of_child {above : Option (Region α)} {r c : Region α} {i : Nat}
    (hc : r.children[i]? = some c) (a : List Nat) :
    parentAt above r (i :: a) = parentAt (some r) c a := by
  cases a with
  | nil => simp [parentAt]
  | cons j a =>
      have hdrop : (i :: j :: a).dropLast = i :: (j :: a).dropLast := rfl
      rw [parentAt, parentAt, if_neg (by simp), if_neg (by simp), hdrop, get?_cons_of_child hc]

theorem forall_prefix_cons_iff {Q : List Nat → Prop} {i : Nat} {a : List Nat} :
    (∀ b, b <+: i :: a → b ≠ i :: a → Q b) ↔
      Q [] ∧ ∀ b, b <+: a → b ≠ a → Q (i :: b) := by
  constructor
  · intro h
    refine ⟨h [] List.nil_prefix (by simp), fun b hb hne => h (i :: b) ?_ (by simpa using hne)⟩
    exact (List.prefix_cons_inj i).2 hb
  · rintro ⟨hnil, hcons⟩ b hb hne
    cases b with
    | nil => exact hnil
    | cons j b =>
        obtain ⟨rfl, hba⟩ := List.cons_prefix_cons.1 hb
        exact hcons b hba (by simpa using hne)

theorem mem_visitsFrom_iff {replace : Replacement α} {p : Option (Region α)} {n : Region α} :
    ∀ {parent : Option (Region α)} {r : Region α} {a : List Nat},
      ⟨a, p, n⟩ ∈ visitsFrom replace parent r ↔
        r.get? a = some n ∧ p = parentAt parent r a ∧
          ∀ b, b <+: a → b ≠ a → ∀ m, r.get? b = some m → replace (parentAt parent r b) m = none
  | parent, r, [] => by
      rw [mem_visitsFrom_nil]
      constructor
      · rintro ⟨rfl, rfl⟩
        exact ⟨get?_nil n, rfl, fun b hb hne => absurd (List.prefix_nil.1 hb) hne⟩
      · rintro ⟨hn, hp, -⟩
        rw [get?_nil, Option.some.injEq] at hn
        exact ⟨hp, hn.symm⟩
  | parent, r, i :: a => by
      rw [mem_visitsFrom_cons, forall_prefix_cons_iff]
      constructor
      · rintro ⟨hr, c, hc, hv⟩
        obtain ⟨hn, hp, habove⟩ := mem_visitsFrom_iff.1 hv
        refine ⟨by rw [get?_cons_of_child hc, hn], by rw [parentAt_cons_of_child hc, hp], ?_, ?_⟩
        · intro m hm
          rw [get?_nil, Option.some.injEq] at hm
          simpa [parentAt, ← hm] using hr
        · intro b hb hne m hm
          rw [get?_cons_of_child hc] at hm
          rw [parentAt_cons_of_child hc]
          exact habove b hb hne m hm
      · rintro ⟨hn, hp, hr, habove⟩
        cases hc : r.children[i]? with
        | none => simp [get?_cons, hc] at hn
        | some c =>
            refine ⟨by simpa [parentAt] using hr r (get?_nil r), c, rfl, mem_visitsFrom_iff.2 ?_⟩
            rw [get?_cons_of_child hc] at hn
            rw [parentAt_cons_of_child hc] at hp
            refine ⟨hn, hp, fun b hb hne m hm => ?_⟩
            have := habove b hb hne m (by rw [get?_cons_of_child hc, hm])
            rwa [parentAt_cons_of_child hc] at this

theorem mem_visits_iff {replace : Replacement α} {root n : Region α} {p : Option (Region α)}
    {a : List Nat} :
    ⟨a, p, n⟩ ∈ root.visits replace ↔
      root.get? a = some n ∧ p = parentAt none root a ∧
        ∀ b, b <+: a → b ≠ a → ∀ m, root.get? b = some m →
          replace (parentAt none root b) m = none :=
  mem_visitsFrom_iff

theorem exists_child_of_mem_visitsAll {replace : Replacement α} {parent : Option (Region α)}
    {i : Nat} {rs : List (Region α)} {v : Visit α} (h : v ∈ visitsAll replace parent i rs) :
    ∃ j a, i ≤ j ∧ v.address = j :: a := by
  obtain ⟨j, c, w, -, -, rfl⟩ := mem_visitsAll.1 h
  exact ⟨i + j, w.address, Nat.le_add_right i j, rfl⟩

mutual

theorem sorted_visitsFrom (replace : Replacement α) (parent : Option (Region α)) :
    ∀ r : Region α, ((visitsFrom replace parent r).map Visit.address).Pairwise (· < ·)
  | ⟨label, start, stop, children⟩ => by
      cases h : replace parent ⟨label, start, stop, children⟩ with
      | some text => simp [visitsFrom_of_some h]
      | none =>
          have ih := sorted_visitsAll replace (some ⟨label, start, stop, children⟩) 0 children
          rw [visitsFrom_of_none h, List.map_cons, List.pairwise_cons]
          refine ⟨?_, ih⟩
          intro a ha
          obtain ⟨v, hv, rfl⟩ := List.mem_map.1 ha
          obtain ⟨j, b, -, hb⟩ := exists_child_of_mem_visitsAll hv
          rw [hb]
          exact List.nil_lt_cons j b

theorem sorted_visitsAll (replace : Replacement α) (parent : Option (Region α)) (i : Nat) :
    ∀ rs : List (Region α), ((visitsAll replace parent i rs).map Visit.address).Pairwise (· < ·)
  | [] => by simp
  | c :: cs => by
      have hc := sorted_visitsFrom replace parent c
      have hcs := sorted_visitsAll replace parent (i + 1) cs
      have hunder : Visit.address ∘ Visit.under (α := α) i = (i :: ·) ∘ Visit.address := rfl
      rw [visitsAll_cons, List.map_append, List.map_map, hunder, ← List.map_map,
        List.pairwise_append]
      refine ⟨?_, hcs, ?_⟩
      · rw [List.pairwise_map]
        exact hc.imp fun hab => List.cons_lt_cons_iff.2 (Or.inr ⟨rfl, hab⟩)
      · intro a ha b hb
        obtain ⟨a', -, rfl⟩ := List.mem_map.1 ha
        obtain ⟨v, hv, rfl⟩ := List.mem_map.1 hb
        obtain ⟨j, b', hj, hb'⟩ := exists_child_of_mem_visitsAll hv
        rw [hb']
        exact List.cons_lt_cons_iff.2 (Or.inl (Nat.lt_of_succ_le hj))

end

theorem visits_sorted (replace : Replacement α) (r : Region α) :
    ((r.visits replace).map Visit.address).Pairwise (· < ·) :=
  sorted_visitsFrom replace none r

theorem map_snd_placedEdits (replace : Replacement α) (r : Region α) :
    (r.placedEdits replace).map Prod.snd = r.edits replace := by
  have hsnd : (fun v : Visit α => ((v.edit? replace).map fun e => (v.address, e)).map Prod.snd) =
      Visit.edit? replace := by
    funext v
    cases h : v.edit? replace with
    | none => rfl
    | some e => rfl
  rw [placedEdits, edits, editsFrom, List.map_filterMap, hsnd]
  rfl

theorem mem_placedEdits_iff {replace : Replacement α} {r : Region α} {a : List Nat} {e : Edit} :
    (a, e) ∈ r.placedEdits replace ↔
      ∃ p n, ⟨a, p, n⟩ ∈ r.visits replace ∧ Visit.edit? replace ⟨a, p, n⟩ = some e := by
  rw [placedEdits, List.mem_filterMap]
  constructor
  · rintro ⟨⟨b, p, n⟩, hv, he⟩
    obtain ⟨d, hd, heq⟩ := Option.map_eq_some_iff.1 he
    obtain ⟨rfl, rfl⟩ := Prod.mk.inj heq
    exact ⟨p, n, hv, hd⟩
  · rintro ⟨p, n, hv, he⟩
    exact ⟨⟨a, p, n⟩, hv, by rw [he, Option.map_some]⟩

theorem placedEdits_sorted (replace : Replacement α) (r : Region α) :
    (r.placedEdits replace).Pairwise fun x y => x.1 < y.1 := by
  rw [placedEdits, List.pairwise_filterMap]
  refine (List.pairwise_map.1 (visits_sorted replace r)).imp fun {v w} hvw x hx y hy => ?_
  obtain ⟨_, -, rfl⟩ := Option.map_eq_some_iff.1 hx
  obtain ⟨_, -, rfl⟩ := Option.map_eq_some_iff.1 hy
  exact hvw

theorem exists_visit_of_get? {r n : Region α} {a : List Nat} (h : r.get? a = some n) :
    ∃ v ∈ r.visits (fun _ _ => none), v.address = a ∧ v.region = n :=
  ⟨⟨a, parentAt none r a, n⟩, mem_visits_iff.2 ⟨h, rfl, fun _ _ _ _ _ => rfl⟩, rfl, rfl⟩

end Region

end DeclBundle
