import DeclBundle.Proofs.Nesting
import DeclBundle.Proofs.NodeOfCst
import DeclBundle.Syntax.Mark

/-!
# Classification

Whether a file is a module is read off the trees of its statements (`isModule_of_ofCst?`): one of them must be
an import that is no alias of a name, or an export that is no export under a global name. Putting
statements together hands the mark of the export on, and the statement behind it has none.

What is read is the name of a statement, the tokens and roles of its children, and the tokens of the
first clause of an import. `Commented` trees differ by comments at any place and by their offsets, so
they tell the same.
-/

namespace DeclBundle

namespace Cst

def clause? (t : Cst) : Option Cst :=
  t.children.find? fun (c : Cst) => c.label.type == "import_require_clause"

/-- An import makes its file a module if it has no clause or its first clause has the word `require`. -/
def IsModuleImport (t : Cst) : Prop :=
  t.type = "import_statement" ∧
    ∀ clause, t.clause? = some clause → ∃ c ∈ clause.children, isToken "require" c = true

/-- An export makes its file a module unless it is an export under a global name. -/
def IsModuleExport (t : Cst) : Prop :=
  t.type = "export_statement" ∧
    ((∃ c ∈ t.children, hasField "declaration" c = true) ∨
      (∃ c ∈ t.children, hasField "value" c = true) ∨
      (∃ c ∈ t.children, isToken "=" c = true) ∨
      ¬ ((∃ c ∈ t.children, isToken "as" c = true) ∧ ∃ c ∈ t.children, isToken "namespace" c = true))

def IsComment (t : Cst) : Prop := t.type = "comment" ∧ t.label.field = none

mutual

/-- The second tree is the first with comments put in and other offsets. -/
inductive Commented : Cst → Cst → Prop
  | node (label : GrammarLabel) (s e s' e' : Nat) {cs ds : List Cst} :
      CommentedAll cs ds → Commented ⟨label, s, e, cs⟩ ⟨label, s', e', ds⟩

/-- The second row is the first with comments put in and other offsets. -/
inductive CommentedAll : List Cst → List Cst → Prop
  | nil : CommentedAll [] []
  | cons {c d : Cst} {cs ds : List Cst} :
      Commented c d → CommentedAll cs ds → CommentedAll (c :: cs) (d :: ds)
  | comment {d : Cst} {cs ds : List Cst} :
      IsComment d → CommentedAll cs ds → CommentedAll cs (d :: ds)

end

theorem IsComment.isToken {t : Cst} (h : IsComment t) {token : String} (htoken : token ≠ "comment") :
    isToken token t = false := by
  have htype : t.label.type = "comment" := h.1
  simp [Cst.isToken, htype, Ne.symm htoken]

theorem IsComment.hasField {t : Cst} (h : IsComment t) (field : String) :
    hasField field t = false := by
  simp [Cst.hasField, h.2]

theorem Commented.label_eq {c d : Cst} (h : Commented c d) : d.label = c.label := by
  cases h
  rfl

theorem Commented.children {c d : Cst} (h : Commented c d) : CommentedAll c.children d.children := by
  cases h
  assumption

/-- What comments are not is there with comments put in exactly if it was there before. -/
theorem CommentedAll.exists_iff {p : Cst → Prop} (hcomment : ∀ c, IsComment c → ¬ p c)
    (hcommented : ∀ c d, Commented c d → (p d ↔ p c)) :
    ∀ {cs ds : List Cst}, CommentedAll cs ds → ((∃ d ∈ ds, p d) ↔ ∃ c ∈ cs, p c)
  | _, _, .nil => by simp
  | _, _, .cons hcd h => by
    simp only [List.mem_cons, exists_eq_or_imp, hcommented _ _ hcd,
      h.exists_iff hcomment hcommented]
  | _, _, .comment hd h => by
    simp only [List.mem_cons, exists_eq_or_imp, hcomment _ hd, false_or,
      h.exists_iff hcomment hcommented]

/-- The first child of a name that comments do not have stays the first with comments put in. -/
theorem CommentedAll.find?_type {type : String} (htype : type ≠ "comment") :
    ∀ {cs ds : List Cst}, CommentedAll cs ds →
      Option.Rel Commented (cs.find? fun (c : Cst) => c.label.type == type)
        (ds.find? fun (d : Cst) => d.label.type == type)
  | _, _, .nil => .none
  | _, _, .cons (c := c) hcd h => by
    rw [List.find?_cons, List.find?_cons, hcd.label_eq]
    cases c.label.type == type with
    | true => exact .some hcd
    | false => exact h.find?_type htype
  | _, _, .comment (d := d) hd h => by
    have hne : (d.label.type == type) = false :=
      beq_eq_false_iff_ne.2 fun heq => htype (heq.symm.trans hd.1)
    rw [List.find?_cons, hne]
    exact h.find?_type htype

theorem CommentedAll.exists_isToken_iff {cs ds : List Cst} (h : CommentedAll cs ds) {token : String}
    (htoken : token ≠ "comment") :
    (∃ d ∈ ds, isToken token d = true) ↔ ∃ c ∈ cs, isToken token c = true :=
  h.exists_iff (fun _ hc => Bool.not_eq_true _ ▸ hc.isToken htoken) fun c d hcd => by
    rw [isToken, isToken, hcd.label_eq]

theorem CommentedAll.exists_hasField_iff {cs ds : List Cst} (h : CommentedAll cs ds)
    (field : String) :
    (∃ d ∈ ds, hasField field d = true) ↔ ∃ c ∈ cs, hasField field c = true :=
  h.exists_iff (fun _ hc => Bool.not_eq_true _ ▸ hc.hasField field) fun c d hcd => by
    rw [hasField, hasField, hcd.label_eq]

theorem Commented.clause? {c d : Cst} (h : Commented c d) :
    Option.Rel Commented c.clause? d.clause? :=
  h.children.find?_type (by decide)

theorem Commented.isModuleImport_iff {c d : Cst} (h : Commented c d) :
    IsModuleImport d ↔ IsModuleImport c := by
  have hclause := h.clause?
  rw [IsModuleImport, IsModuleImport, type, type, h.label_eq]
  generalize c.clause? = x at hclause ⊢
  generalize d.clause? = y at hclause ⊢
  cases hclause with
  | none => simp
  | some hxy =>
      have htoken : "require" ≠ "comment" := by decide
      simp [hxy.children.exists_isToken_iff htoken]

theorem Commented.isModuleExport_iff {c d : Cst} (h : Commented c d) :
    IsModuleExport d ↔ IsModuleExport c := by
  rw [IsModuleExport, IsModuleExport, type, type, h.label_eq, h.children.exists_hasField_iff,
    h.children.exists_hasField_iff, h.children.exists_isToken_iff (by decide),
    h.children.exists_isToken_iff (by decide), h.children.exists_isToken_iff (by decide)]

end Cst

namespace Node

variable {text : List Char}

theorem isModular_mark_iff (n : Node) :
    n.mark.isModular = true ↔
      n.label.exported = true ∨ n.kind = .importDeclaration ∨ n.kind = .exportAssignment ∨
        n.kind = .exportDeclaration ∨
        n.kind = .importEquals ∧ n.reference?.map kind = some .externalModuleReference := by
  rw [mark, Mark.isModular]
  cases n.kind <;> simp

/-- An alias without a reference among its children refers to no other module. -/
theorem kind_reference?_of_alias {n : Node} (htype : n.type = "import_alias")
    (hns : ∀ c ∈ n.children, kind c ≠ .externalModuleReference) :
    n.reference?.map kind ≠ some .externalModuleReference := by
  intro h
  obtain ⟨x, hx, hkind⟩ := Option.map_eq_some_iff.1 h
  obtain ⟨address, haddress, hget⟩ := Option.bind_eq_some_iff.1 hx
  have hnone : n.childOfKind? .externalModuleReference = none :=
    List.findIdx?_eq_none_iff.2 fun c hc => by simpa using hns c hc
  rw [referenceAddress?, if_pos htype, hnone] at haddress
  obtain ⟨-, haddress⟩ := Option.ite_none_left_eq_some.1 haddress
  obtain ⟨i, -, rfl⟩ := Option.map_eq_some_iff.1 haddress
  obtain ⟨c, hc, hcx⟩ := Region.exists_child_of_get?_cons hget
  obtain rfl : c = x := by simpa using hcx
  exact hns c (List.mem_of_getElem? hc) hkind

/-- An import with a clause refers to the reference in its first clause. -/
theorem reference?_of_clause {n : Node} (hkind : n.kind = .importEquals)
    (htype : n.type ≠ "import_alias") :
    n.reference? = (n.children.find? fun (c : Node) => c.type == "import_require_clause").bind
      fun (clause : Node) => clause.findChild? .externalModuleReference := by
  have hne : ¬ n.kind ≠ .importEquals := fun h => h hkind
  rw [reference?, referenceAddress?, if_neg hne, if_neg htype, List.find?_eq_bind_findIdx?_getElem?,
    childOfType?]
  cases n.children.findIdx? fun (c : Node) => c.type == "import_require_clause" with
  | none => rfl
  | some i =>
      cases hclause : n.children[i]? with
      | none => simp [hclause]
      | some clause =>
          simp only [hclause, findChild?, List.find?_eq_bind_findIdx?_getElem?, bind, pure,
            Option.bind_some, Option.bind_assoc, childOfKind?, Region.get?_cons, Region.get?_nil]
          simp

/-- The children of a tree, clauses apart, have no reference among them. -/
theorem kind_children_ofCst {t : Cst} (htype : t.type ≠ "import_require_clause") :
    ∀ c ∈ (ofCst text t).children, kind c ≠ .externalModuleReference := by
  have hkinds : ∀ c ∈ t.children.map (ofCst text), kind c ≠ .externalModuleReference := by
    rw [List.forall_mem_map]
    intro c _
    rw [kind_ofCst]
    exact Cst.kindOf_ne_reference c.label c.children
  have hnone : ((t.children.map (ofCst text)).any fun c => kind c == .externalModuleReference) =
      false := List.any_eq_false.2 fun c hc => by simpa using hkinds c hc
  have hfirst : ∀ n m folded, fold? text n m = some folded →
      (kind folded == .externalModuleReference) = (kind n == .externalModuleReference) := by
    intro n m folded hfold
    rw [kind, (label_of_fold? hfold).1, kind]
  rw [← any_foldAll (fun n _ => hfirst n) fun m hm _ => by simpa using hkinds m hm] at hnone
  rw [children_ofCst, arrange_of_ne htype]
  intro c hc
  simpa using List.any_eq_false.1 hnone c hc

/-- A clause has a reference among its children exactly if it has the word `require`. -/
theorem findChild?_reference_iff {clause : Cst} (htype : clause.type = "import_require_clause") :
    ((ofCst text clause).findChild? .externalModuleReference).map kind =
        some .externalModuleReference ↔
      ∃ c ∈ clause.children, Cst.isToken "require" c = true := by
  have hkinds : ∀ ts : List Cst, (ts.map (ofCst text)).find?
      (fun (c : Node) => c.kind == .externalModuleReference) = none := fun ts => by
    rw [List.find?_eq_none, List.forall_mem_map]
    intro c _
    simpa using Cst.kindOf_ne_reference c.label c.children
  rw [findChild?, children_ofCst]
  cases hword : clause.children.find? (Cst.isToken "require") with
  | none =>
      have hany := List.find?_eq_none.1 hword
      rw [arrange_of_not_any htype (List.any_eq_false.2 hany), hkinds]
      simpa using hany
  | some word =>
      obtain ⟨hw, before, after, hcs, hbefore⟩ := List.find?_eq_some_iff_append.1 hword
      have hmem : ∃ c ∈ before ++ word :: after, Cst.isToken "require" c = true :=
        ⟨word, by simp, hw⟩
      rw [hcs, arrange_of_require htype hw (by simpa using hbefore), List.find?_append, hkinds]
      simpa [kind, referenceLabel] using hmem

theorem isModular_mark_of_import {t : Cst} (htype : t.type = "import_statement") :
    (ofCst text t).mark.isModular = true ↔ t.IsModuleImport := by
  have htype' : t.label.type = "import_statement" := htype
  have hfind : ((ofCst text t).children.find? fun (c : Node) => c.type == "import_require_clause") =
      t.clause?.map (ofCst text) := by
    rw [children_ofCst, arrange_of_ne (by simp [htype']), find?_foldAll, List.find?_map, Cst.clause?]
    case h =>
      intro n hn
      rw [beq_iff_eq.1 hn]
      decide
    congr 2
    funext c
    rw [Function.comp_apply, type_ofCst, Cst.type]
  rw [isModular_mark_iff, exported_ofCst, Cst.IsModuleImport, and_iff_right htype]
  cases hclause : t.clause? with
  | none =>
      have hany := List.any_eq_false.2 (List.find?_eq_none.1 hclause)
      have hkind : Cst.kindOf t.label t.children = (.importDeclaration, false) := by
        simp only [Cst.kindOf, htype', Cst.type, hany]
        rfl
      simp [hkind]
  | some clause =>
      have hfound := List.find?_some hclause
      have hany : (t.children.any fun (c : Cst) => c.label.type == "import_require_clause") = true :=
        List.any_eq_true.2 ⟨clause, List.mem_of_find?_eq_some hclause, hfound⟩
      have hkind : Cst.kindOf t.label t.children = (.importEquals, false) := by
        simp only [Cst.kindOf, htype', Cst.type, hany]
        rfl
      rw [kind_ofCst, hkind, reference?_of_clause (by rw [kind_ofCst, hkind]) (by simp [htype]), hfind,
        hclause, Option.map_some, Option.bind_some, findChild?_reference_iff (beq_iff_eq.1 hfound)]
      simp

theorem isModular_mark_of_export {t : Cst} (htype : t.type = "export_statement") :
    (ofCst text t).mark.isModular = true ↔ t.IsModuleExport := by
  have htype' : t.label.type = "export_statement" := htype
  have hkind : Cst.kindOf t.label t.children = Cst.exportKind t.children := by
    simp [Cst.kindOf, htype']
  rw [isModular_mark_iff, exported_ofCst, kind_ofCst, hkind, Cst.IsModuleExport, and_iff_right htype]
  simp only [← List.any_eq_true, ← Bool.and_eq_true]
  unfold Cst.exportKind
  split_ifs with hdeclaration hvalue hequals hglobal <;> simp [-List.any_eq_true, -Bool.and_eq_true, *]

theorem isModular_mark_of_ne {t : Cst} (himport : t.type ≠ "import_statement")
    (hexport : t.type ≠ "export_statement") : (ofCst text t).mark.isModular ≠ true := by
  rw [ne_eq, isModular_mark_iff, exported_ofCst, kind_ofCst]
  by_cases halias : t.type = "import_alias"
  · have hnone := kind_reference?_of_alias (n := ofCst text t) (by rw [type_ofCst, halias])
      (kind_children_ofCst (by simp [halias]))
    have hkind : Cst.kindOf t.label t.children = (.importEquals, false) := by
      simp [Cst.kindOf, show t.label.type = "import_alias" from halias]
    simp [hkind, hnone]
  · simp only [Cst.type] at himport hexport halias
    unfold Cst.kindOf
    split_ifs <;> simp

/-- The mark of a statement tells whether its tree is an import or export that makes a module. -/
theorem isModular_mark_ofCst (t : Cst) :
    (ofCst text t).mark.isModular = true ↔ t.IsModuleImport ∨ t.IsModuleExport := by
  by_cases himport : t.type = "import_statement"
  · rw [isModular_mark_of_import himport]
    simp [Cst.IsModuleExport, himport]
  by_cases hexport : t.type = "export_statement"
  · rw [isModular_mark_of_export hexport]
    simp [Cst.IsModuleImport, hexport]
  simp [isModular_mark_of_ne himport hexport, Cst.IsModuleImport, Cst.IsModuleExport, himport,
    hexport]

/-- Putting two statements together hands the mark of the first on, as far as modules go. -/
theorem isModular_mark_of_fold? {t : Cst} {m folded : Node}
    (h : fold? text (ofCst text t) m = some folded) :
    folded.mark.isModular = (ofCst text t).mark.isModular := by
  obtain ⟨hlabel, htype, -⟩ := label_of_fold? h
  rw [type_ofCst] at htype
  have hkind : (Cst.kindOf t.label t.children).1 ≠ .importEquals := fun hkind => by
    have himport := Cst.type_of_kindOf_eq_importEquals hkind
    simp [show t.label.type = "export_statement" from htype] at himport
  have hkind' : (ofCst text t).kind ≠ .importEquals := by rwa [kind_ofCst]
  rw [Bool.eq_iff_iff, isModular_mark_iff, isModular_mark_iff]
  simp only [kind, hlabel] at hkind' ⊢
  simp [hkind']

end Node

namespace ParsedFile

variable {path text : String} {tree : SyntaxTree} {f : ParsedFile}

theorem isModule_eq_any (f : ParsedFile) :
    f.isModule = f.root.children.any fun (n : Node) => !n.isComment && n.mark.isModular := by
  rw [isModule, Mark.isModule, List.any_map, statements, List.any_filter]
  rfl

theorem isModule_of_ofCst? (h : ofCst? path text tree = some f) (hroot : tree.root.type = "program") :
    f.isModule = true ↔ ∃ t ∈ tree.root.children, Cst.IsModuleImport t ∨ Cst.IsModuleExport t := by
  obtain ⟨-, rfl⟩ := Option.ite_some_none_eq_some.1 h
  have hroot' : tree.root.label.type ≠ "import_require_clause" := by
    simp [show tree.root.label.type = "program" from hroot]
  have hcomment : ∀ t : Cst, (!(Node.ofCst text.toList t).isComment &&
      (Node.ofCst text.toList t).mark.isModular) = true ↔ t.IsModuleImport ∨ t.IsModuleExport := by
    intro t
    rw [Bool.and_eq_true, Node.isModular_mark_ofCst, Node.isComment, Node.type_ofCst]
    refine and_iff_right_of_imp fun ht => ?_
    rcases ht with ⟨htype, -⟩ | ⟨htype, -⟩ <;> simp [htype]
  rw [isModule_eq_any, Node.children_ofCst, Node.arrange_of_ne hroot', Node.any_foldAll]
  case hfirst =>
    intro n hn m folded hfold
    obtain ⟨t, -, rfl⟩ := List.mem_map.1 hn
    have htype : folded.type = (Node.ofCst text.toList t).type := by
      rw [Node.type, (Node.label_of_fold? hfold).1, Node.type]
    rw [Node.isModular_mark_of_fold? hfold, Node.isComment, Node.isComment, htype]
  case hsecond =>
    intro m hm htype
    obtain ⟨t, -, rfl⟩ := List.mem_map.1 hm
    rw [Node.type_ofCst] at htype
    rw [Bool.eq_false_iff, ne_eq, hcomment, Cst.IsModuleImport, Cst.IsModuleExport]
    simp [htype]
  rw [List.any_map, List.any_eq_true]
  exact exists_congr fun t => and_congr_right fun _ => hcomment t

/-- A file is a module exactly if one of the statements of its tree is an import or export that makes
it one, and comments put in anywhere change nothing. -/
theorem isModule_iff_exists_statement (path text : String) (tree : SyntaxTree)
    (hroot : tree.root.type = "program") (hfits : tree.root.fits text.toList = true) :
    ∃ f, ofCst? path text tree = some f ∧
      (f.isModule = true ↔ ∃ t ∈ tree.root.children, Cst.IsModuleImport t ∨ Cst.IsModuleExport t) ∧
      ∀ (path' text' : String) (tree' : SyntaxTree) (f' : ParsedFile),
        tree.root.Commented tree'.root → ofCst? path' text' tree' = some f' →
          f'.isModule = f.isModule := by
  have hparsed : ofCst? path text tree = some _ := if_pos hfits
  refine ⟨_, hparsed, isModule_of_ofCst? hparsed hroot, fun path' text' tree' f' hcommented h' => ?_⟩
  have hroot' : tree'.root.type = "program" := by
    rw [Cst.type, hcommented.label_eq]
    exact hroot
  rw [Bool.eq_iff_iff, isModule_of_ofCst? h' hroot', isModule_of_ofCst? hparsed hroot]
  refine hcommented.children.exists_iff (fun c hc => ?_) fun c d hcd => ?_
  · simp [Cst.IsModuleImport, Cst.IsModuleExport, hc.1]
  · rw [hcd.isModuleImport_iff, hcd.isModuleExport_iff]

/-- The tree of a comment and an import of a name, `// x` and `import A = B;` on two lines. -/
def aliasTree : SyntaxTree where
  root := ⟨⟨"program", true, none⟩, 0, 18, [
    ⟨⟨"comment", true, none⟩, 0, 4, []⟩,
    ⟨⟨"import_alias", true, none⟩, 5, 18, [
      ⟨⟨"import", false, none⟩, 5, 11, []⟩, ⟨⟨"identifier", true, none⟩, 12, 13, []⟩,
      ⟨⟨"=", false, none⟩, 14, 15, []⟩, ⟨⟨"identifier", true, none⟩, 16, 17, []⟩,
      ⟨⟨";", false, none⟩, 17, 18, []⟩]⟩]⟩
  hasErrors := false

/-- An import of a name makes no module. -/
theorem isModule_aliasTree :
    aliasTree.root.type = "program" ∧ aliasTree.root.fits "// x\nimport A = B;".toList = true ∧
      ∃ f, ofCst? "/p/a.d.ts" "// x\nimport A = B;" aliasTree = some f ∧ f.isModule = false := by
  obtain ⟨f, hf, hmodule, -⟩ :=
    isModule_iff_exists_statement "/p/a.d.ts" "// x\nimport A = B;" aliasTree rfl (by decide)
  refine ⟨rfl, by decide, f, hf, Bool.eq_false_iff.2 (mt hmodule.1 ?_)⟩
  simp [aliasTree, Cst.IsModuleImport, Cst.IsModuleExport, Cst.type]

end ParsedFile

end DeclBundle
