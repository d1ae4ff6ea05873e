import DeclBundle.Proofs.SplitImport
import DeclBundle.Syntax.Parsed
import Mathlib.Tactic.SplitIfs

/-!
# Nodes made of a tree of the grammar

What `Node.ofCst` keeps of a tree of the grammar: the name of the rule, the offsets, and a kind that
tells something of the name. Putting statements together in a row changes neither what is found in it by
a property that no such statement has (`find?_foldAll`), nor whether some statement has a property that
the first statement hands on and the second lacks (`any_foldAll`).
-/

namespace DeclBundle

namespace Cst

theorem exportKind_fst (children : List Cst) :
    (exportKind children).1 = .declaration ∨ (exportKind children).1 = .exportAssignment ∨
      (exportKind children).1 = .namespaceExport ∨ (exportKind children).1 = .exportDeclaration := by
  unfold exportKind
  split_ifs <;> simp

theorem kindOf_ne_reference (label : GrammarLabel) (children : List Cst) :
    (kindOf label children).1 ≠ .externalModuleReference := by
  unfold kindOf
  have h := exportKind_fst children
  split_ifs <;> grind

/-- Only the word itself is the keyword that makes a declaration ambient. -/
theorem type_of_kindOf_eq_declareKeyword {label : GrammarLabel} {children : List Cst}
    (h : (kindOf label children).1 = .declareKeyword) : label.type = "declare" := by
  unfold kindOf at h
  have hexport := exportKind_fst children
  split_ifs at h <;> grind

theorem type_of_kindOf_eq_importEquals {label : GrammarLabel} {children : List Cst}
    (h : (kindOf label children).1 = .importEquals) :
    label.type = "import_statement" ∨ label.type = "import_alias" := by
  unfold kindOf at h
  have hexport := exportKind_fst children
  split_ifs at h <;> grind

end Cst

namespace Node

variable {text : List Char}

theorem ofCst_eq (text : List Char) (t : Cst) :
    ofCst text t =
      assemble text t.label (Text.place text t.start) (Text.place text t.stop) t.children
        (t.children.map (ofCst text)) := by
  obtain ⟨label, s, e, cs⟩ := t
  rw [ofCst, ofCsts_eq_map]

@[simp] theorem type_ofCst (text : List Char) (t : Cst) : (ofCst text t).type = t.type := by
  rw [ofCst_eq]
  rfl

@[simp] theorem kind_ofCst (text : List Char) (t : Cst) :
    (ofCst text t).kind = (Cst.kindOf t.label t.children).1 := by
  rw [ofCst_eq]
  rfl

@[simp] theorem exported_ofCst (text : List Char) (t : Cst) :
    (ofCst text t).label.exported = (Cst.kindOf t.label t.children).2 := by
  rw [ofCst_eq]
  rfl

@[simp] theorem start_ofCst (text : List Char) (t : Cst) :
    (ofCst text t).start = Text.place text t.start := by
  rw [ofCst_eq]
  rfl

theorem stop_ofCst (text : List Char) (t : Cst) :
    (ofCst text t).stop =
      if (Cst.kindOf t.label t.children).1 = .declareKeyword then
        skipBlank text (Text.place text t.stop)
      else Text.place text t.stop := by
  rw [ofCst_eq]
  rfl

theorem children_ofCst (text : List Char) (t : Cst) :
    (ofCst text t).children = arrange text t.label t.children (t.children.map (ofCst text)) := by
  rw [ofCst_eq]
  rfl

theorem arrange_of_ne {label : GrammarLabel} (h : label.type ≠ "import_require_clause")
    (text : List Char) (trees : List Cst) (children : List Node) :
    arrange text label trees children = foldAll text children := by
  rw [arrange, if_neg h]

theorem arrange_of_not_any {label : GrammarLabel} {trees : List Cst}
    (h : label.type = "import_require_clause") (hword : trees.any (Cst.isToken "require") = false)
    (text : List Char) (children : List Node) : arrange text label trees children = children := by
  have hnone : trees.findIdx? (Cst.isToken "require") = none :=
    List.findIdx?_eq_none_iff.2 fun t ht => List.any_eq_false.1 hword t ht |> Bool.eq_false_iff.2
  rw [arrange, if_pos h, hnone]

/-- In a clause everything from the word `require` on is put under one reference. -/
theorem arrange_of_require {label : GrammarLabel} {before after : List Cst} {word : Cst}
    (h : label.type = "import_require_clause") (hword : word.isToken "require" = true)
    (hbefore : ∀ t ∈ before, t.isToken "require" = false) (text : List Char) :
    arrange text label (before ++ word :: after) ((before ++ word :: after).map (ofCst text)) =
      before.map (ofCst text) ++
        [⟨referenceLabel, Text.place text word.start,
          Text.place text ((word :: after).getLast (List.cons_ne_nil word after)).stop,
          (word :: after).map (ofCst text)⟩] := by
  have hfind : (before ++ word :: after).findIdx? (Cst.isToken "require") = some before.length :=
    findIdx?_eq_some_iff_append.2 ⟨before, word, after, rfl, rfl, hword, hbefore⟩
  have hlast : (before ++ word :: after).getLast? =
      some ((word :: after).getLast (List.cons_ne_nil word after)) := by
    rw [List.getLast?_append, List.getLast?_eq_some_getLast (List.cons_ne_nil word after)]
    rfl
  rw [arrange, if_pos h, hfind, hlast]
  simp [groupReference]

/-- The label of the first of two statements that are put together stays. -/
theorem label_of_fold? {n m folded : Node} (h : fold? text n m = some folded) :
    folded.label = n.label ∧ n.type = "export_statement" ∧ m.type = "expression_statement" := by
  obtain ⟨s, hs, rfl⟩ := fold?_eq_some_iff.1 h
  exact ⟨rfl, hs.statement_type, hs.following_type⟩

/-- What neither statement of a split import is is found where it was. -/
theorem find?_foldAll {p : Node → Bool}
    (h : ∀ n : Node, p n = true → n.type ≠ "export_statement" ∧ n.type ≠ "expression_statement")
    (ns : List Node) : (foldAll text ns).find? p = ns.find? p := by
  fun_induction foldAll text ns with
  | case1 => rfl
  | case2 => rfl
  | case3 n m ns folded hfold ih =>
      obtain ⟨hlabel, hn, hm⟩ := label_of_fold? hfold
      have hfolded : folded.type = "export_statement" := by rw [type, hlabel]; exact hn
      have hpf : ¬ p folded = true := fun hp => (h folded hp).1 hfolded
      have hpn : ¬ p n = true := fun hp => (h n hp).1 hn
      have hpm : ¬ p m = true := fun hp => (h m hp).2 hm
      rw [List.find?_cons_of_neg hpf, List.find?_cons_of_neg hpn, List.find?_cons_of_neg hpm, ih]
  | case4 n m ns hfold ih => rw [List.find?_cons, List.find?_cons, ih]

/-- What the second statement of a split import lacks and the first hands on is found in a row as
before. -/
theorem any_foldAll {p : Node → Bool} {ns : List Node}
    (hfirst : ∀ n ∈ ns, ∀ m folded, fold? text n m = some folded → p folded = p n)
    (hsecond : ∀ m ∈ ns, m.type = "expression_statement" → p m = false) :
    (foldAll text ns).any p = ns.any p := by
  fun_induction foldAll text ns with
  | case1 => rfl
  | case2 => rfl
  | case3 n m ns folded hfold ih =>
      have hn := hfirst n (by simp) m folded hfold
      have hm := hsecond m (by simp) (label_of_fold? hfold).2.2
      have hns := ih (fun x hx => hfirst x (by simp [hx])) fun x hx => hsecond x (by simp [hx])
      rw [List.any_cons, List.any_cons, List.any_cons, hn, hm, hns, Bool.false_or]
  | case4 n m ns hfold ih =>
      have hns := ih (fun x hx => hfirst x (List.mem_cons_of_mem n hx)) fun x hx =>
        hsecond x (List.mem_cons_of_mem n hx)
      rw [List.any_cons, List.any_cons, hns]

end Node

end DeclBundle
