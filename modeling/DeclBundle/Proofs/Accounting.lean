import DeclBundle.Proofs.ParsedOrder
import Mathlib.Algebra.Order.Group.Multiset
import Mathlib.Tactic.Abel

/-!
# Accounting for nodes

`Accounted text N C` says what became of the trees `C` of the grammar in the nodes `N`. A node stands for
a tree (`Stands`), or is a reference that was added; a tree has a node that stands for it, or is missing,
and then it has no characters or is a bracketed string or its statement (`Missing`). Both sides count
every node and tree as often as it occurs.

All trees below a nested tree are accounted for in the node that is made of it
(`partedBelow_and_accounted`). What is put together is accounted for by its parts (`accounted_joined`), and
for these the children of a node are parted among the trees that they come from (`Part`).
-/

namespace DeclBundle.Node

open Region

variable {text : List Char}

/-- A node stands for a tree: it has what is known of it and begins where it does, and if the tree is a
token it also ends there, but for the blank behind a keyword. -/
structure Stands (text : List Char) (c : Cst) (n : Node) : Prop where
  label : n.label = (ofCst text c).label
  start : n.start = Text.place text c.start
  token : n.children = [] ↔ c.children = []
  stop : c.children = [] → Ends text n (Text.place text c.stop)

/-- What may be left out: a tree without characters, and the statement of a bracketed string with the
brackets. -/
def Missing (text : List Char) (c : Cst) : Prop :=
  Text.place text c.stop ≤ Text.place text c.start ∨
    c.children ≠ [] ∧ (c.type = "expression_statement" ∨ c.type = "parenthesized_expression")

/-- What became of trees of the grammar in nodes. -/
inductive Accounted (text : List Char) : Multiset Node → Multiset Cst → Prop
  | zero : Accounted text 0 0
  | stands {n : Node} {c : Cst} {N : Multiset Node} {C : Multiset Cst} :
      Stands text c n → Accounted text N C → Accounted text (n ::ₘ N) (c ::ₘ C)
  | reference {n : Node} {N : Multiset Node} {C : Multiset Cst} :
      n.kind = .externalModuleReference → n.children ≠ [] → Accounted text N C →
        Accounted text (n ::ₘ N) C
  | missing {c : Cst} {N : Multiset Node} {C : Multiset Cst} :
      Missing text c → Accounted text N C → Accounted text N (c ::ₘ C)

def below (ns : List Node) : Multiset Node := ↑(preorders ns)

def treesBelow (cs : List Cst) : Multiset Cst := ↑(preorders cs)

theorem Stands.of_ne_nil {c : Cst} {n : Node} (hlabel : n.label = (ofCst text c).label)
    (hstart : n.start = (ofCst text c).start) (hn : n.children ≠ []) (hc : c.children ≠ []) :
    Stands text c n where
  label := hlabel
  start := hstart.trans (start_ofCst text c)
  token := iff_of_false hn hc
  stop h := absurd h hc

theorem Accounted.add {N M : Multiset Node} {C D : Multiset Cst} (h : Accounted text N C)
    (h' : Accounted text M D) : Accounted text (N + M) (C + D) := by
  induction h with
  | zero => simpa using h'
  | stands hstands _ ih =>
      rw [Multiset.cons_add, Multiset.cons_add]
      exact .stands hstands ih
  | reference hkind hne _ ih =>
      rw [Multiset.cons_add]
      exact .reference hkind hne ih
  | missing hmissing _ ih =>
      rw [Multiset.cons_add]
      exact .missing hmissing ih

theorem accounted_of_missing {C : Multiset Cst} (h : ∀ c ∈ C, Missing text c) : Accounted text 0 C := by
  induction C using Multiset.induction with
  | empty => exact .zero
  | cons c C ih =>
      rw [Multiset.forall_mem_cons] at h
      exact .missing h.1 (ih h.2)

section Preorder

variable {α : Type}

theorem preorders_append (xs ys : List (Region α)) :
    preorders (xs ++ ys) = preorders xs ++ preorders ys := by
  induction xs with
  | nil => simp [preorders]
  | cons x xs ih => simp [preorders, ih]

theorem preorder_eq (r : Region α) : preorder r = r :: preorders r.children := by
  obtain ⟨_, _, _, _⟩ := r
  rw [preorder]

end Preorder

@[simp] theorem below_nil : below [] = 0 := by simp [below, preorders]

@[simp] theorem below_append (ns ms : List Node) : below (ns ++ ms) = below ns + below ms := by
  simp [below, preorders_append]

theorem below_cons (n : Node) (ns : List Node) : below (n :: ns) = n ::ₘ (below n.children + below ns) := by
  simp [below, preorders, preorder_eq]

@[simp] theorem treesBelow_nil : treesBelow [] = 0 := by simp [treesBelow, preorders]

@[simp] theorem treesBelow_append (cs ds : List Cst) :
    treesBelow (cs ++ ds) = treesBelow cs + treesBelow ds := by
  simp [treesBelow, preorders_append]

theorem treesBelow_cons (c : Cst) (cs : List Cst) :
    treesBelow (c :: cs) = c ::ₘ (treesBelow c.children + treesBelow cs) := by
  simp [treesBelow, preorders, preorder_eq]

theorem mem_treesBelow_singleton {c x : Cst} : x ∈ treesBelow [c] ↔ x ∈ c.preorder := by
  simp [treesBelow, preorders]

/-- A child of a node with the trees that it comes from: it is made of one, or put together. -/
inductive Part (text : List Char) : Node → List Cst → Prop
  | made {c : Cst} : c.Nested → Accounted text (below [ofCst text c]) (treesBelow [c]) →
      Part text (ofCst text c) [c]
  | joined {n : Node} {cs : List Cst} : n.type = "export_statement" → n.isWide = true →
      Accounted text (below [n]) (treesBelow cs) → Part text n cs

/-- The children of a node are parted among the trees that they come from. -/
def Parted (text : List Char) (ns : List Node) (cs : List Cst) : Prop :=
  ∃ parts : List (List Cst), parts.flatten = cs ∧ List.Forall₂ (Part text) ns parts

theorem Part.accounted {n : Node} {cs : List Cst} (h : Part text n cs) :
    Accounted text (below [n]) (treesBelow cs) := by
  cases h with
  | made _ h => exact h
  | joined _ _ h => exact h

theorem Missing.of_mem_preorder {c x : Cst} (hc : c.Nested)
    (hnarrow : Text.place text c.stop ≤ Text.place text c.start) (hx : x ∈ c.preorder) :
    Missing text x := by
  induction c using Region.induction with
  | node c ih =>
      rcases mem_preorder_iff.1 hx with rfl | ⟨d, hd, hx⟩
      · exact Or.inl hnarrow
      · obtain ⟨hstart, hnested, hstop⟩ := hc.of_mem_children hd
        have hstart' := Text.place_le_place (s := text) hstart
        have hstop' := Text.place_le_place (s := text) hstop
        exact ih d hd hnested (by omega) hx

theorem Part.accounted_zero {n : Node} {cs : List Cst} (h : Part text n cs) (hwide : n.isWide = false) :
    Accounted text 0 (treesBelow cs) := by
  cases h with
  | joined _ hwide' _ => simp [hwide] at hwide'
  | @made c hc _ =>
      refine accounted_of_missing fun x hx => .of_mem_preorder hc ?_ (mem_treesBelow_singleton.1 hx)
      simp only [isWide, start_ofCst, decide_eq_false_iff_not, not_lt] at hwide
      rcases ends_ofCst text c with hstop | ⟨-, hstop, -⟩ <;> omega

namespace Parted

variable {ns ms : List Node} {cs ds : List Cst} {n : Node}

theorem nil : Parted text [] [] := ⟨[], rfl, .nil⟩

theorem cons (h : Part text n cs) (h' : Parted text ns ds) : Parted text (n :: ns) (cs ++ ds) := by
  obtain ⟨parts, rfl, hparts⟩ := h'
  exact ⟨cs :: parts, rfl, .cons h hparts⟩

theorem exists_of_cons (h : Parted text (n :: ns) cs) :
    ∃ as bs, cs = as ++ bs ∧ Part text n as ∧ Parted text ns bs := by
  obtain ⟨parts, rfl, hparts⟩ := h
  cases hparts with
  | @cons _ as _ bss hn hns => exact ⟨as, bss.flatten, rfl, hn, bss, rfl, hns⟩

theorem exists_of_append (h : Parted text (ns ++ ms) cs) :
    ∃ as bs, cs = as ++ bs ∧ Parted text ns as ∧ Parted text ms bs := by
  induction ns generalizing cs with
  | nil => exact ⟨[], cs, rfl, .nil, h⟩
  | cons n ns ih =>
      obtain ⟨as, rest, rfl, hn, hrest⟩ := h.exists_of_cons
      obtain ⟨bs, ds, rfl, hns, hms⟩ := ih hrest
      exact ⟨as ++ bs, ds, by rw [List.append_assoc], .cons hn hns, hms⟩

theorem accounted (h : Parted text ns cs) : Accounted text (below ns) (treesBelow cs) := by
  obtain ⟨parts, rfl, hparts⟩ := h
  induction hparts with
  | nil => simpa using Accounted.zero
  | @cons n as ns bss hn _ ih =>
      have hsplit : below (n :: ns) = below [n] + below ns := below_append [n] ns
      rw [hsplit, List.flatten_cons, treesBelow_append]
      exact hn.accounted.add ih

theorem accounted_filter (h : Parted text ns cs) :
    Accounted text (below (ns.filter Region.isWide)) (treesBelow cs) := by
  obtain ⟨parts, rfl, hparts⟩ := h
  induction hparts with
  | nil => simpa using Accounted.zero
  | @cons n as ns bss hn _ ih =>
      rw [List.flatten_cons, treesBelow_append, List.filter_cons]
      split
      case isTrue =>
        have hsplit : below (n :: ns.filter Region.isWide) = below [n] + below (ns.filter Region.isWide) :=
          below_append [n] _
        rw [hsplit]
        exact hn.accounted.add ih
      case isFalse hwide =>
        rw [← Multiset.zero_add (below _)]
        exact (hn.accounted_zero (Bool.eq_false_iff.2 hwide)).add ih

theorem exists_made (h : Parted text (n :: ns) cs) (htype : n.type ≠ "export_statement") :
    ∃ c ds, cs = c :: ds ∧ ofCst text c = n ∧ c.Nested ∧ Parted text ns ds := by
  obtain ⟨as, bs, rfl, hn, hns⟩ := h.exists_of_cons
  cases hn with
  | joined hexport _ _ => exact absurd hexport htype
  | @made c hc _ => exact ⟨c, bs, rfl, rfl, hc, hns⟩

end Parted

/-- The children of all nodes made of trees in a tree, clauses apart, are parted. -/
def PartedBelow (text : List Char) (t : Cst) : Prop :=
  ∀ x ∈ t.preorder, Cst.type x ≠ "import_require_clause" → Parted text (ofCst text x).children x.children

variable {s : SplitImport} {c d t : Cst} {cs : List Cst}

theorem foldAll_eq_nil_iff {ns : List Node} : foldAll text ns = [] ↔ ns = [] := by
  fun_cases foldAll text ns <;> simp

theorem children_ofCst_eq_nil_iff (text : List Char) : (ofCst text t).children = [] ↔ t.children = [] := by
  by_cases htype : t.type = "import_require_clause"
  · rcases children_clause htype text with h | ⟨before, word, after, hparts, h⟩
    · rw [h, List.map_eq_nil_iff]
    · simp [h, hparts]
  · rw [children_ofCst, arrange_of_ne htype, foldAll_eq_nil_iff, List.map_eq_nil_iff]

theorem below_joined {n m : Node} (hwide : s.joinedImport.isWide = true) :
    below (s.joined n m).children =
      below (s.before.filter Region.isWide) +
        s.joinedImport ::ₘ (below (s.left.filter Region.isWide) + below (s.right.filter Region.isWide) +
          s.reference ::ₘ (below [s.word] + below s.call.children) +
            below (s.after.filter Region.isWide)) + below s.rest := by
  have hreference : below s.reference.children = below [s.word] + below s.call.children :=
    below_append [s.word] s.call.children
  have himported : below s.joinedImport.children = below (s.left.filter Region.isWide) +
      below (s.right.filter Region.isWide) + s.reference ::ₘ below s.reference.children := by
    rw [SplitImport.joinedImport, List.filter_append, below_append, below_append, below_cons,
      below_nil, Multiset.add_zero]
  rw [← hreference, ← himported, SplitImport.joined, List.filter_append, List.filter_cons_of_pos hwide,
    below_append, below_append, below_cons]

theorem accounted_joined (hs : s.Reads text (ofCst text c) (ofCst text d)) (hc : PartedBelow text c)
    (hd : PartedBelow text d) (hwide : s.joinedImport.isWide = true) :
    Accounted text (below [s.joined (ofCst text c) (ofCst text d)]) (treesBelow [c, d]) := by
  have htype : c.type = "export_statement" := by rw [← type_ofCst text, hs.statement_type]
  have htype' : d.type = "expression_statement" := by rw [← type_ofCst text, hs.following_type]
  -- The trees of the parts, from the outside in.
  have hstatement := hc c (mem_preorder_self c) (by simp [htype])
  rw [hs.statement_children] at hstatement
  obtain ⟨bs, rest, hcs, hbefore, hrest⟩ := hstatement.exists_of_append
  obtain ⟨e, as, rfl, he, -, hafter⟩ := hrest.exists_made (by simp [hs.imported_type])
  have hetype : e.type = "import_alias" := by rw [← type_ofCst text, he, hs.imported_type]
  have himported := hc e (mem_preorder_of_mem (by simp [hcs]) (mem_preorder_self e)) (by simp [hetype])
  rw [he, hs.imported_children] at himported
  obtain ⟨ls, rest, hes, hleft, hrest⟩ := himported.exists_of_append
  obtain ⟨ws, rs, rfl, hword, hright⟩ := hrest.exists_of_cons
  have hfollowing := hd d (mem_preorder_self d) (by simp [htype'])
  rw [hs.following_children] at hfollowing
  obtain ⟨g, ts, hds, hg, -, hbehind⟩ := hfollowing.exists_made (by simp [hs.call_type])
  have hgtype : g.type = "parenthesized_expression" := by rw [← type_ofCst text, hg, hs.call_type]
  have hcall := hd g (mem_preorder_of_mem (by simp [hds]) (mem_preorder_self g)) (by simp [hgtype])
  rw [hg] at hcall
  have hparts := ((((((hbefore.accounted_filter.add hleft.accounted_filter).add
    hright.accounted_filter).add hafter.accounted_filter).add hword.accounted).add
      hcall.accounted).add hbehind.accounted)
  have hcne : c.children ≠ [] := by simp [hcs]
  have hene : e.children ≠ [] := by
    intro hnil
    have hempty := (children_ofCst_eq_nil_iff text).2 hnil
    simp [he, hs.imported_children] at hempty
  have hgne : g.children ≠ [] := by
    intro hnil
    have hempty := (children_ofCst_eq_nil_iff text).2 hnil
    rw [hg] at hempty
    simpa [hempty] using hs.call_tokens
  have hjoined : Stands text c (s.joined (ofCst text c) (ofCst text d)) :=
    .of_ne_nil rfl rfl (by simp [SplitImport.joined, hwide]) hcne
  have himport : Stands text e s.joinedImport :=
    .of_ne_nil (by rw [he]; rfl) (by rw [he]; rfl) (by simp [SplitImport.joinedImport]) hene
  have hall := Accounted.stands hjoined (.stands himport (.reference (n := s.reference) rfl
    (by simp [SplitImport.reference]) (.missing (c := d) (Or.inr ⟨by simp [hds], Or.inl htype'⟩)
      (.missing (c := g) (Or.inr ⟨hgne, Or.inr hgtype⟩) hparts))))
  convert hall using 1
  · rw [below_cons, below_nil, below_joined hwide]
    simp only [← Multiset.singleton_add]
    abel
  · rw [treesBelow_cons, treesBelow_cons, treesBelow_nil, hcs, hds, treesBelow_append, treesBelow_cons,
      treesBelow_cons, hes, treesBelow_append, treesBelow_append]
    simp only [← Multiset.singleton_add]
    abel

theorem parted_map (h : ∀ c ∈ cs, Part text (ofCst text c) [c]) :
    Parted text (cs.map (ofCst text)) cs := by
  induction cs with
  | nil => exact .nil
  | cons c cs ih =>
      rw [List.forall_mem_cons] at h
      exact Parted.cons h.1 (ih h.2)

theorem parted_foldAll : ∀ {cs : List Cst}, (∀ c ∈ cs, Part text (ofCst text c) [c]) →
    (∀ c d (s : SplitImport), [c, d] <:+: cs → s.Reads text (ofCst text c) (ofCst text d) →
      Part text (s.joined (ofCst text c) (ofCst text d)) [c, d]) →
    Parted text (foldAll text (cs.map (ofCst text))) cs
  | [], _, _ => by simpa using Parted.nil
  | [c], h, _ => by simpa using Parted.cons (h c List.mem_cons_self) .nil
  | c :: d :: cs, h, hfold => by
      have hfold' : ∀ {ds : List Cst}, ds <:+ c :: d :: cs → ∀ a b (s : SplitImport), [a, b] <:+: ds →
          s.Reads text (ofCst text a) (ofCst text b) →
            Part text (s.joined (ofCst text a) (ofCst text b)) [a, b] :=
        fun hsuffix a b s hab => hfold a b s (hab.trans hsuffix.isInfix)
      cases hfolded : fold? text (ofCst text c) (ofCst text d) with
      | some folded =>
          obtain ⟨s, hs, rfl⟩ := fold?_eq_some_iff.1 hfolded
          simp only [List.map_cons, foldAll, hfolded]
          exact .cons (hfold c d s (List.prefix_append [c, d] cs).isInfix hs)
            (parted_foldAll (fun x hx => h x (by simp [hx])) (hfold' (List.suffix_append [c, d] cs)))
      | none =>
          simp only [List.map_cons, foldAll, hfolded]
          exact .cons (h c List.mem_cons_self)
            (parted_foldAll (fun x hx => h x (List.mem_cons_of_mem c hx))
              (hfold' (List.suffix_cons c (d :: cs))))

/-- What is put together has characters, and so have the import and the reference in it. -/
theorem isWide_of_pair {n m : Node} (ht : t.Nested) (hnm : [n, m] <:+: t.children.map (ofCst text))
    (hs : s.Reads text n m) :
    (s.joined n m).isWide = true ∧ s.joinedImport.isWide = true ∧ s.reference.isWide = true := by
  obtain ⟨hmade, hmade', hpair⟩ := Made.of_infix ht hnm
  obtain ⟨-, hstart, himported, hword, hstop, hstop'⟩ := hmade.bounds hs
  obtain ⟨-, hcall, hcall', hcall''⟩ := hmade'.call_bounds hs
  have hnext := hpair (hmade.kind_ne (by simp [hs.statement_type]))
  have hlt : n.start < m.stop := by omega
  have hlt' : s.imported.start < s.call.stop := by omega
  have hlt'' : s.word.start < s.call.stop := by omega
  exact ⟨decide_eq_true hlt, decide_eq_true hlt', decide_eq_true hlt''⟩

theorem stands_ofCst (t : Cst) : Stands text t (ofCst text t) where
  label := rfl
  start := start_ofCst text t
  token := children_ofCst_eq_nil_iff text
  stop _ := ends_ofCst text t

/-- All trees below a nested tree are accounted for in the node that is made of it. -/
theorem partedBelow_and_accounted (t : Cst) (ht : t.Nested) :
    PartedBelow text t ∧ Accounted text (below [ofCst text t]) (treesBelow [t]) := by
  induction t using Region.induction with
  | node t ih =>
      have hchild : ∀ c ∈ t.children, PartedBelow text c ∧ Part text (ofCst text c) [c] := by
        intro c hc
        have hnested := (ht.of_mem_children hc).2.1
        exact ⟨(ih c hc hnested).1, .made hnested (ih c hc hnested).2⟩
      have hparted : Cst.type t ≠ "import_require_clause" →
          Parted text (ofCst text t).children t.children := by
        intro htype
        rw [children_ofCst, arrange_of_ne htype]
        refine parted_foldAll (fun c hc => (hchild c hc).2) fun c d s hcd hs => ?_
        have hc := hcd.subset (List.mem_cons_self (a := c) (l := [d]))
        have hd := hcd.subset (List.mem_cons_of_mem c (List.mem_cons_self (a := d) (l := [])))
        obtain ⟨hjoined, himported, -⟩ := isWide_of_pair ht (hcd.map (ofCst text)) hs
        exact .joined hs.statement_type hjoined
          (accounted_joined hs (hchild c hc).1 (hchild d hd).1 himported)
      constructor
      · intro x hx htype
        rcases mem_preorder_iff.1 hx with rfl | ⟨c, hc, hx⟩
        · exact hparted htype
        · exact (hchild c hc).1 x hx htype
      · have hchildren : Accounted text (below (ofCst text t).children) (treesBelow t.children) := by
          by_cases htype : Cst.type t = "import_require_clause"
          · have hmap : ∀ {cs}, (∀ c ∈ cs, c ∈ t.children) →
                Accounted text (below (cs.map (ofCst text))) (treesBelow cs) := fun hcs =>
              (parted_map fun c hc => (hchild c (hcs c hc)).2).accounted
            rcases children_clause htype text with h | ⟨before, word, after, hparts, h⟩
            · rw [h]
              exact hmap fun _ hc => hc
            · rw [h, hparts, below_append, treesBelow_append, below_cons, below_nil, Multiset.add_zero]
              refine (hmap fun c hc => by simp [hparts, hc]).add (.reference rfl (by simp) ?_)
              exact hmap fun c hc => by rw [hparts]; exact List.mem_append_right _ hc
          · exact (hparted htype).accounted
        rw [below_cons, treesBelow_cons, below_nil, treesBelow_nil, Multiset.add_zero, Multiset.add_zero]
        exact .stands (stands_ofCst t) hchildren

end DeclBundle.Node
