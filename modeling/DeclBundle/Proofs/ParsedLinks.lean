import DeclBundle.Proofs.Classification
import DeclBundle.Proofs.LinkedTree

/-!
# The links of a parsed file

`Tied` says of one node that its children know it as their parent, and that it refers to what the tree
without links leads to. All nodes that are made of a tree of the grammar are tied (`allTied_ofCst`):
putting statements together gives each child that moves its new parent, and nothing that was left out is
referred to any more.

So the links of a parsed file are consistent (`ofCst?_consistent`), and the listing of the file tells
them (`listing_ofCst`).
-/

namespace DeclBundle

open Region

namespace Region

variable {α β : Type}

theorem mem_preorder_of_get? {r x : Region α} {a : List Nat} (h : r.get? a = some x) :
    x ∈ preorder r := List.mem_of_getElem? (getElem?_preorder_rank h)

/-- What stands at an address below a region is a descendant of a child. -/
theorem mem_preorders_children_of_get? {r x : Region α} {a : List Nat} (ha : a ≠ [])
    (h : r.get? a = some x) : x ∈ preorders r.children := by
  cases a with
  | nil => exact absurd rfl ha
  | cons i a =>
      obtain ⟨c, hc, hcx⟩ := exists_child_of_get?_cons h
      exact mem_preorders_iff.2 ⟨c, List.mem_of_getElem? hc, mem_preorder_of_get? hcx⟩

/-- The children of all regions of a row are all regions in it but those of the row. -/
theorem count_map_preorders [DecidableEq β] (f : Region α → β) (a : β) {cs : List (Region α)}
    (h : ∀ c ∈ cs, ((preorder c).map f).count a =
      [f c].count a + ((preorder c).flatMap fun x => x.children.map f).count a) :
    ((preorders cs).map f).count a =
      (cs.map f).count a + ((preorders cs).flatMap fun x => x.children.map f).count a := by
  induction cs with
  | nil => simp
  | cons c cs ih =>
      obtain ⟨hc, hcs⟩ := List.forall_mem_cons.1 h
      have hcons : (f c :: cs.map f).count a = [f c].count a + (cs.map f).count a := by
        rw [← List.singleton_append, List.count_append]
      rw [preorders_cons, List.map_append, List.flatMap_append, List.count_append, List.count_append,
        hc, ih hcs, List.map_cons, hcons]
      omega

theorem count_map_preorder [DecidableEq β] (f : Region α → β) (a : β) (r : Region α) :
    ((preorder r).map f).count a =
      [f r].count a + ((preorder r).flatMap fun x => x.children.map f).count a := by
  induction r using Region.induction with
  | node r ih =>
      rw [preorder_eq, List.map_cons, List.flatMap_cons, ← List.singleton_append, List.count_append,
        List.count_append, count_map_preorders f a ih]

end Region

/-- A child of a node that is no export is made of a child of the tree. -/
theorem Node.exists_eq_ofCst_of_mem_children {text : List Char} {t : Cst} {x : Node}
    (htype : t.type ≠ "import_require_clause") (hx : x ∈ (Node.ofCst text t).children)
    (hexport : x.type ≠ "export_statement") : ∃ c ∈ t.children, Node.ofCst text c = x := by
  rw [children_ofCst, arrange_of_ne htype] at hx
  rcases mem_foldAll hx with hx | ⟨n, m, s, -, hs, rfl⟩
  · exact List.mem_map.1 hx
  · exact absurd hs.statement_type hexport

namespace Node

theorem exists_getElem?_of_behindEquals? {seen : Bool} (front : List Node) {ns : List Node} {i : Nat}
    (h : behindEquals? front.length seen ns = some i) : ∃ c, (front ++ ns)[i]? = some c := by
  induction ns generalizing seen front with
  | nil => cases h
  | cons n ns ih =>
      rw [behindEquals?] at h
      split at h
      · obtain rfl := Option.some.inj h
        exact ⟨n, by simp⟩
      · obtain ⟨c, hc⟩ := ih (front ++ [n]) (by rwa [List.length_append])
        exact ⟨c, by rwa [List.append_assoc] at hc⟩

theorem exists_getElem?_of_findIdx? {p : Node → Bool} {ns : List Node} {i : Nat}
    (h : ns.findIdx? p = some i) : ∃ c, ns[i]? = some c := by
  obtain ⟨before, c, after, rfl, rfl, -⟩ := findIdx?_eq_some_iff_append.1 h
  exact ⟨c, by simp⟩

theorem exists_get?_of_referenceAddress? {n : Node} {a : List Nat}
    (h : n.referenceAddress? = some a) : a ≠ [] ∧ ∃ x, n.get? a = some x := by
  unfold referenceAddress? at h
  split_ifs at h with hkind halias
  · split at h
    case h_1 i hi =>
      obtain rfl := Option.some.inj h
      obtain ⟨c, hc⟩ := exists_getElem?_of_findIdx? hi
      exact ⟨by simp, c, by rw [get?_cons, hc, Option.bind_some, get?_nil]⟩
    case h_2 =>
      obtain ⟨i, hi, rfl⟩ := Option.map_eq_some_iff.1 h
      obtain ⟨c, hc⟩ := exists_getElem?_of_behindEquals? [] hi
      exact ⟨by simp, c, by rw [get?_cons, ← List.nil_append n.children, hc, Option.bind_some, get?_nil]⟩
  · split at h
    case h_1 => cases h
    case h_2 i hi =>
      simp only [bind, Option.bind_eq_some_iff, pure, Option.some.injEq] at h
      obtain ⟨clause, hclause, j, hj, rfl⟩ := h
      obtain ⟨c, hc⟩ := exists_getElem?_of_findIdx? hj
      refine ⟨by simp, c, ?_⟩
      rw [get?_cons, hclause, Option.bind_some, get?_cons, hc, Option.bind_some, get?_nil]

end Node

namespace LinkedNode

variable {text : List Char} {n m folded : LinkedNode}

/-- The children of a node know it as their parent, and it refers to what the tree without links leads
to. -/
structure Tied (n : LinkedNode) : Prop where
  parent : ∀ c ∈ n.children, LinkedNode.parent c = some n.id
  reference : n.reference = n.plain.referenceAddress?.bind fun a => (n.get? a).map id

def AllTied (ns : List LinkedNode) : Prop := ∀ x ∈ preorders ns, Tied x

@[simp] theorem allTied_nil : AllTied [] := by
  intro x hx
  rw [preorders_nil] at hx
  cases hx

theorem allTied_singleton : AllTied [n] ↔ Tied n ∧ AllTied n.children := by
  rw [AllTied, preorders_cons, preorder_eq, preorders_nil, List.append_nil, List.forall_mem_cons]
  rfl

theorem allTied_append {ns ms : List LinkedNode} : AllTied (ns ++ ms) ↔ AllTied ns ∧ AllTied ms := by
  rw [AllTied, preorders_append, List.forall_mem_append]
  rfl

theorem allTied_cons {ns : List LinkedNode} : AllTied (n :: ns) ↔ AllTied [n] ∧ AllTied ns := by
  rw [← allTied_append, List.singleton_append]

theorem AllTied.filter {ns : List LinkedNode} (h : AllTied ns) (p : LinkedNode → Bool) :
    AllTied (ns.filter p) :=
  fun x hx => h x ((preorders_filter_sublist p ns).subset hx)

theorem map_id_get?_congr {x : LinkedNode} (hid : x.id = n.id) (hchildren : x.children = n.children)
    (a : List Nat) : (x.get? a).map id = (n.get? a).map id := by
  cases a with
  | nil => rw [get?_nil, get?_nil, Option.map_some, Option.map_some, hid]
  | cons i a => rw [get?_cons, get?_cons, hchildren]

theorem Tied.adopt (h : Tied n) (parent : Nat) : Tied (adopt parent n) where
  parent := h.parent
  reference := by
    have hget : ∀ a, ((LinkedNode.adopt parent n).get? a).map id = (n.get? a).map id :=
      map_id_get?_congr rfl rfl
    simp only [plain_adopt, hget]
    exact h.reference

theorem AllTied.map_adopt {ns : List LinkedNode} (h : AllTied ns) (parent : Nat) :
    AllTied (ns.map (LinkedNode.adopt parent)) := by
  induction ns with
  | nil => exact allTied_nil
  | cons n ns ih =>
      obtain ⟨hn, hns⟩ := allTied_cons.1 h
      obtain ⟨htied, hchildren⟩ := allTied_singleton.1 hn
      exact allTied_cons.2 ⟨allTied_singleton.2 ⟨htied.adopt parent, hchildren⟩, ih hns⟩

theorem Tied.reference_of_ne (h : Tied n) (hkind : n.kind ≠ .importEquals) : n.reference = none := by
  rw [h.reference, Node.referenceAddress?, if_pos (by rwa [kind_plain]), Option.bind_none]

/-- What stands behind an equals sign stands at its position in the whole row. -/
theorem behindEquals?_eq_bind (seen : Bool) (front ns : List LinkedNode) :
    behindEquals? seen ns =
      (Node.behindEquals? front.length seen (ns.map plain)).bind fun i => (front ++ ns)[i]? := by
  induction ns generalizing seen front with
  | nil => rfl
  | cons n ns ih =>
      rw [behindEquals?, List.map_cons, Node.behindEquals?, Node.isComment, type_plain, bne]
      split
      · simp
      · have hrow := ih (n.type == "=") (front ++ [n])
        rwa [List.length_append, List.length_singleton, List.append_assoc] at hrow

/-- As long as no statements are put together, what an import refers to is what the tree without links
leads to. -/
theorem map_id_referenced? (n : LinkedNode)
    (h : n.type = "import_alias" → ∀ c ∈ n.children, kind c ≠ .externalModuleReference) :
    n.referenced?.map id = n.plain.referenceAddress?.bind fun a => (n.get? a).map id := by
  rw [referenced?, Node.referenceAddress?, kind_plain, type_plain]
  split_ifs with hkind halias
  · rfl
  · have hnone : n.plain.childOfKind? .externalModuleReference = none := by
      rw [Node.childOfKind?, children_plain, List.findIdx?_eq_none_iff, List.forall_mem_map]
      intro c hc
      simpa using h halias c hc
    rw [hnone, behindEquals?_eq_bind false [] n.children, children_plain]
    cases Node.behindEquals? 0 false (n.children.map plain) with
    | none => simp
    | some i => simp [get?_cons]
  · rw [Node.childOfType?, children_plain, List.findIdx?_map, List.find?_eq_bind_findIdx?_getElem?]
    simp only [Function.comp_def, type_plain]
    cases n.children.findIdx? fun c => type c == "import_require_clause" with
    | none => rfl
    | some i =>
    cases hclause : n.children[i]? with
    | none => simp [hclause]
    | some clause =>
    simp only [Option.bind_some, hclause, bind, List.getElem?_map, Option.map_some, Node.childOfKind?,
      children_plain, List.findIdx?_map, Function.comp_def, kind_plain,
      List.find?_eq_bind_findIdx?_getElem?]
    cases clause.children.findIdx? fun c => kind c == .externalModuleReference with
    | none => rfl
    | some j => simp [get?_cons, hclause, pure]

theorem kind_reference (new : Nat) (s : Split) :
    (s.reference new).kind = .externalModuleReference := rfl

theorem allTied_reference {new : Nat} {s : Split} (hword : AllTied [s.word])
    (hcall : AllTied s.call.children) : AllTied [s.reference new] := by
  have hparts : AllTied ((s.word :: s.call.children).map (adopt new)) :=
    (allTied_cons.2 ⟨hword, hcall⟩).map_adopt new
  refine allTied_singleton.2 ⟨⟨?_, ?_⟩, hparts⟩
  · intro c hc
    obtain ⟨b, -, rfl⟩ := List.mem_map.1 hc
    rfl
  · have hkind : (s.reference new).plain.kind ≠ .importEquals := by
      rw [kind_plain, kind_reference]
      decide
    rw [Node.referenceAddress?, if_pos hkind]
    rfl

/-- An import whose only reference to another module is its last child refers to that. -/
theorem referenceAddress?_of_last {x r : LinkedNode} {kept : List LinkedNode}
    (hkind : x.kind = .importEquals) (htype : x.type = "import_alias")
    (hchildren : x.children = kept ++ [r]) (hkept : ∀ c ∈ kept, kind c ≠ .externalModuleReference)
    (hr : r.kind = .externalModuleReference) : x.plain.referenceAddress? = some [kept.length] := by
  have hfind : x.plain.childOfKind? .externalModuleReference = some kept.length := by
    rw [Node.childOfKind?, findIdx?_eq_some_iff_append]
    refine ⟨kept.map plain, r.plain, [], by rw [children_plain, hchildren, List.map_append]; rfl,
      List.length_map .., by rw [kind_plain, hr]; rfl, ?_⟩
    rw [List.forall_mem_map]
    intro c hc
    simpa using hkept c hc
  rw [Node.referenceAddress?, kind_plain, type_plain, if_neg (not_not.2 hkind), if_pos htype, hfind]

/-- The import with the reference at its end is tied, if no other reference was in it. -/
theorem allTied_joinedImport (new : Nat) {s : Split} (hs : s.Reads n m)
    (himported : AllTied [s.imported]) (hcall : AllTied s.call.children)
    (hkind : s.imported.kind = .importEquals)
    (hfree : ∀ c ∈ s.imported.children, kind c ≠ .externalModuleReference) :
    AllTied [s.joinedImport new] := by
  obtain ⟨htied, hinner⟩ := allTied_singleton.1 himported
  rw [hs.imported_children, allTied_append, allTied_cons] at hinner
  obtain ⟨hleft, hword, hright⟩ := hinner
  have hkept : ∀ c ∈ (s.left ++ s.right).filter (fun (c : LinkedNode) => c.isWide),
      c ∈ s.imported.children := by
    intro c hc
    rw [hs.imported_children]
    rcases List.mem_append.1 (List.mem_of_mem_filter hc) with hc | hc <;> simp [hc]
  have hlast := referenceAddress?_of_last (x := s.joinedImport new) hkind hs.imported_type rfl
    (fun c hc => hfree c (hkept c hc)) (kind_reference new s)
  refine allTied_singleton.2 ⟨⟨?_, ?_⟩, ?_⟩
  · intro c hc
    rcases List.mem_append.1 hc with hc | hc
    · exact htied.parent c (hkept c hc)
    · rw [List.mem_singleton.1 hc]
      rfl
  · rw [hlast, Option.bind_some, get?_cons, Split.joinedImport]
    simp
    rfl
  · exact allTied_append.2 ⟨(allTied_append.2 ⟨hleft, hright⟩).filter _,
      allTied_reference hword hcall⟩

/-- An import alias that was made of a tree is an import with an equals sign without a reference to
another module among its children. -/
theorem free_of_plain_eq {t : Cst} (hmade : n.plain = Node.ofCst text t)
    (htype : n.type = "import_alias") :
    n.kind = .importEquals ∧ ∀ c ∈ n.children, kind c ≠ .externalModuleReference := by
  have htype' : t.type = "import_alias" := by rw [← Node.type_ofCst text t, ← hmade, type_plain, htype]
  constructor
  · rw [← kind_plain, hmade, Node.kind_ofCst, Cst.kindOf]
    simp [show t.label.type = "import_alias" from htype']
  · intro c hc
    have hmem : plain c ∈ (Node.ofCst text t).children := by
      rw [← hmade, children_plain]
      exact List.mem_map_of_mem hc
    have hfree := Node.kind_children_ofCst (by rw [htype']; decide) (plain c) hmem
    rwa [kind_plain] at hfree

theorem allTied_fold? {new : Nat} {t : Cst} (h : fold? text new n m = some folded) (hn : AllTied [n])
    (hm : AllTied [m]) (hmade : n.plain = Node.ofCst text t) : AllTied [folded] := by
  obtain ⟨s, hs, rfl⟩ := exists_split_of_fold? h
  obtain ⟨htied, hchildren⟩ := allTied_singleton.1 hn
  rw [hs.statement_children, allTied_append, allTied_cons] at hchildren
  obtain ⟨hbefore, himported, hafter⟩ := hchildren
  obtain ⟨-, hfollowing⟩ := allTied_singleton.1 hm
  rw [hs.following_children, allTied_cons] at hfollowing
  obtain ⟨hcall, hrest⟩ := hfollowing
  -- The statement is an export, so that it refers to nothing, and its import was made of a tree.
  have htype : t.type = "export_statement" := by
    rw [← Node.type_ofCst text t, ← hmade, type_plain, hs.statement_type]
  have hkind : n.kind ≠ .importEquals := by
    rw [← kind_plain, hmade, Node.kind_ofCst]
    intro hkind
    have himport := Cst.type_of_kindOf_eq_importEquals hkind
    simp [show t.label.type = "export_statement" from htype] at himport
  have himportMade : s.imported.plain ∈ (Node.ofCst text t).children := by
    rw [← hmade, children_plain, hs.statement_children]
    simp
  obtain ⟨c, -, hc⟩ := Node.exists_eq_ofCst_of_mem_children (by rw [htype]; decide) himportMade
    (by rw [type_plain, hs.imported_type]; decide)
  obtain ⟨hequals, hfree⟩ := free_of_plain_eq hc.symm hs.imported_type
  have hjoinedImport := allTied_joinedImport new hs himported
    (allTied_singleton.1 hcall).2 hequals hfree
  refine allTied_singleton.2 ⟨⟨?_, ?_⟩, ?_⟩
  · have hparent : ∀ b ∈ s.before ++ s.imported :: s.after, LinkedNode.parent b = some n.id := by
      rw [← hs.statement_children]
      exact htied.parent
    intro b hb
    rcases List.mem_append.1 hb with hb | hb
    · rcases List.mem_append.1 (List.mem_of_mem_filter hb) with hb | hb
      · exact hparent b (List.mem_append_left _ hb)
      · rcases List.mem_cons.1 hb with rfl | hb
        · exact hparent s.imported (by simp)
        · exact hparent b (by simp [hb])
    · obtain ⟨b, -, rfl⟩ := List.mem_map.1 hb
      rfl
  · have hnone : (s.joined new n m).plain.referenceAddress? = none := by
      rw [Node.referenceAddress?, if_pos (by rw [kind_plain]; exact hkind)]
    rw [hnone]
    exact htied.reference_of_ne hkind
  · have hall := allTied_append.2 ⟨hbefore, allTied_cons.2 ⟨hjoinedImport, hafter⟩⟩
    exact allTied_append.2 ⟨hall.filter _, hrest.map_adopt n.id⟩

theorem parent_foldAll {next : Nat} {ns : List LinkedNode} {parent : Option Nat}
    (h : ∀ n ∈ ns, LinkedNode.parent n = parent) :
    ∀ n ∈ (foldAll text next ns).1, LinkedNode.parent n = parent := by
  fun_induction foldAll text next ns with
  | case1 => exact h
  | case2 => exact h
  | case3 next n m ns folded hfold row ih =>
      obtain ⟨s, -, rfl⟩ := exists_split_of_fold? hfold
      exact List.forall_mem_cons.2 ⟨h n (by simp), ih fun x hx => h x (by simp [hx])⟩
  | case4 next n m ns hfold row ih =>
      exact List.forall_mem_cons.2 ⟨h n (by simp), ih fun x hx => h x (List.mem_cons_of_mem n hx)⟩

/-- A tied row that was made of trees stays tied when statements in it are put together. -/
theorem allTied_foldAll {next : Nat} {ns : List LinkedNode} (h : AllTied ns)
    (hmade : ∀ n ∈ ns, ∃ t, LinkedNode.plain n = Node.ofCst text t) :
    AllTied (foldAll text next ns).1 := by
  fun_induction foldAll text next ns with
  | case1 => exact h
  | case2 => exact h
  | case3 next n m ns folded hfold row ih =>
      obtain ⟨t, ht⟩ := hmade n (by simp)
      obtain ⟨hn, hrest⟩ := allTied_cons.1 h
      obtain ⟨hm, hns⟩ := allTied_cons.1 hrest
      exact allTied_cons.2 ⟨allTied_fold? hfold hn hm ht, ih hns fun x hx => hmade x (by simp [hx])⟩
  | case4 next n m ns hfold row ih =>
      obtain ⟨hn, hns⟩ := allTied_cons.1 h
      exact allTied_cons.2 ⟨hn, ih hns fun x hx => hmade x (List.mem_cons_of_mem n hx)⟩

theorem parent_ofCst (text : List Char) (parent : Option Nat) (next : Nat) (t : Cst) :
    LinkedNode.parent (ofCst text parent next t).1 = parent := by
  rw [ofCst_eq]
  rfl

theorem parent_ofCsts (text : List Char) (parent : Option Nat) (next : Nat) (cs : List Cst) :
    ∀ n ∈ (ofCsts text parent next cs).1, LinkedNode.parent n = parent := by
  induction cs generalizing next with
  | nil => simp
  | cons c cs ih =>
      rw [ofCsts_cons]
      exact List.forall_mem_cons.2 ⟨parent_ofCst text parent next c, ih _⟩

theorem parent_ofClause (text : List Char) (clause next : Nat) (cs : List Cst) :
    ∀ n ∈ (ofClause text clause next cs).1, LinkedNode.parent n = some clause := by
  induction cs generalizing next with
  | nil => simp
  | cons c cs ih =>
      rw [ofClause]
      split
      · exact List.forall_mem_singleton.2 rfl
      · exact List.forall_mem_cons.2 ⟨parent_ofCst text (some clause) next c, ih _⟩

theorem parent_childrenOfCst (text : List Char) (next : Nat) (t : Cst) :
    ∀ n ∈ (childrenOfCst text next t).1, LinkedNode.parent n = some next := by
  rw [childrenOfCst]
  split
  · exact parent_ofClause text next (next + 1) t.children
  · exact parent_foldAll (parent_ofCsts text (some next) (next + 1) t.children)

theorem exists_plain_eq_of_mem_ofCsts {parent : Option Nat} {next : Nat} {cs : List Cst}
    (hn : n ∈ (ofCsts text parent next cs).1) : ∃ t, n.plain = Node.ofCst text t := by
  have hmem : n.plain ∈ (ofCsts text parent next cs).1.map plain := List.mem_map_of_mem hn
  rw [plain_ofCsts_of text parent next fun c _ p i => plain_ofCst text p i c] at hmem
  obtain ⟨t, -, ht⟩ := List.mem_map.1 hmem
  exact ⟨t, ht.symm⟩

theorem allTied_ofCsts_of {cs : List Cst} (parent : Option Nat) (next : Nat)
    (h : ∀ c ∈ cs, ∀ parent next, AllTied [(ofCst text parent next c).1]) :
    AllTied (ofCsts text parent next cs).1 := by
  induction cs generalizing next with
  | nil => simp
  | cons c cs ih =>
      obtain ⟨hc, hcs⟩ := List.forall_mem_cons.1 h
      rw [ofCsts_cons]
      exact allTied_cons.2 ⟨hc parent next, ih _ hcs⟩

theorem allTied_ofClause_of {cs : List Cst} (clause next : Nat)
    (h : ∀ c ∈ cs, ∀ parent next, AllTied [(ofCst text parent next c).1]) :
    AllTied (ofClause text clause next cs).1 := by
  induction cs generalizing next with
  | nil => simp
  | cons c cs ih =>
      obtain ⟨hc, hcs⟩ := List.forall_mem_cons.1 h
      rw [ofClause]
      split
      · have hrow := allTied_ofCsts_of (some next) next.succ h
        rw [ofCsts_cons] at hrow
        refine allTied_singleton.2 ⟨⟨?_, rfl⟩, hrow⟩
        have hparent := parent_ofCsts text (some next) next.succ (c :: cs)
        rwa [ofCsts_cons] at hparent
      · exact allTied_cons.2 ⟨hc (some clause) next, ih _ hcs⟩

theorem allTied_ofCst (text : List Char) (parent : Option Nat) (next : Nat) (t : Cst) :
    AllTied [(ofCst text parent next t).1] := by
  induction t using Region.induction generalizing parent next with
  | node t ih =>
      have hchildren : AllTied (childrenOfCst text next t).1 := by
        rw [childrenOfCst]
        split
        · exact allTied_ofClause_of next (next + 1) ih
        · exact allTied_foldAll (allTied_ofCsts_of (some next) (next + 1) ih) fun n hn =>
            exists_plain_eq_of_mem_ofCsts hn
      have hplain := plain_ofCst text parent next t
      rw [ofCst_eq] at hplain ⊢
      refine allTied_singleton.2 ⟨⟨parent_childrenOfCst text next t, ?_⟩, hchildren⟩
      have hreference := map_id_referenced? (make next parent (Node.ofCst text t)
        (childrenOfCst text next t).1) fun htype => (free_of_plain_eq hplain htype).2
      exact hreference

/-- The nodes of a row stand in a list of numbers from a place on. -/
def Placed (all : List Nat) (i : Nat) (ns : List LinkedNode) : Prop :=
  ∀ k x, (preorders ns)[k]? = some x → all.idxOf (id x) = i + k

theorem placed_cons {all : List Nat} {i : Nat} {ns : List LinkedNode} (h : Placed all i (n :: ns)) :
    Placed all i [n] ∧ Placed all (i + n.size) ns := by
  constructor
  · intro k x hx
    refine h k x ?_
    rw [preorders_cons, preorders_nil, List.append_nil] at hx
    rw [preorders_cons, List.getElem?_append_left (List.getElem?_eq_some_iff.1 hx).1, hx]
  · intro k x hx
    have hplace := h (n.size + k) x (by
      rw [preorders_cons, ← length_preorder, List.getElem?_append_right (Nat.le_add_right _ _),
        Nat.add_sub_cancel_left, hx])
    rw [hplace, Nat.add_assoc]

theorem placed_children {all : List Nat} {i : Nat} (h : Placed all i [n]) :
    Placed all (i + 1) n.children := by
  intro k x hx
  have hplace := h (k + 1) x (by
    rw [preorders_cons, preorders_nil, List.append_nil, preorder_eq, List.getElem?_cons_succ, hx])
  rw [hplace]
  omega

/-- What a tied node refers to has the number that the listing gives it. -/
theorem Tied.idxOf_reference {all : List Nat} {i : Nat} (h : Tied n) (hplaced : Placed all i [n]) :
    n.reference.map all.idxOf = n.plain.referenceAddress?.map fun a => i + n.plain.rank a := by
  rw [h.reference]
  cases haddress : n.plain.referenceAddress? with
  | none => rfl
  | some a =>
      obtain ⟨-, y, hy⟩ := Node.exists_get?_of_referenceAddress? haddress
      rw [plain, get?_map] at hy
      obtain ⟨x, hx, -⟩ := Option.map_eq_some_iff.1 hy
      have hplace := hplaced (n.rank a) x (by
        rw [preorders_cons, preorders_nil, List.append_nil, getElem?_preorder_rank hx])
      rw [Option.bind_some, hx, Option.map_some, Option.map_some, Option.map_some, hplace, plain,
        rank_map]

theorem listingFrom_eq (parent : Option Nat) (i : Nat) (x : Node) :
    Node.listingFrom parent i x =
      ⟨x.label, x.start, x.stop, parent, x.referenceAddress?.map fun a => i + x.rank a⟩ ::
        Node.listingsFrom (some i) (i + 1) x.children := by
  obtain ⟨label, s, e, cs⟩ := x
  rw [Node.listingFrom]

theorem listingsFrom_eq_of {all : List Nat} {ns : List LinkedNode} {p i j : Nat}
    (h : ∀ n ∈ ns, ∀ parent i, AllTied [n] → Placed all i [n] →
      (LinkedNode.parent n).map all.idxOf = parent →
      Node.listingFrom parent i n.plain = (preorder n).map (listed all))
    (htied : AllTied ns) (hplaced : Placed all j ns)
    (hparent : ∀ n ∈ ns, LinkedNode.parent n = some p) (hp : all.idxOf p = i) :
    Node.listingsFrom (some i) j (ns.map plain) = (preorders ns).map (listed all) := by
  induction ns generalizing j with
  | nil => simp [Node.listingsFrom]
  | cons n ns ih =>
      obtain ⟨hn, hns⟩ := List.forall_mem_cons.1 h
      obtain ⟨htiedn, htiedns⟩ := allTied_cons.1 htied
      obtain ⟨hplacedn, hplacedns⟩ := placed_cons hplaced
      obtain ⟨hparentn, hparentns⟩ := List.forall_mem_cons.1 hparent
      rw [List.map_cons, Node.listingsFrom, preorders_cons, List.map_append,
        hn (some i) j htiedn hplacedn (by rw [hparentn, Option.map_some, hp]), plain, size_map,
        ih hns htiedns hplacedns hparentns]

theorem listingFrom_plain {all : List Nat} (n : LinkedNode) (parent : Option Nat) (i : Nat)
    (htied : AllTied [n]) (hplaced : Placed all i [n])
    (hparent : (LinkedNode.parent n).map all.idxOf = parent) :
    Node.listingFrom parent i n.plain = (preorder n).map (listed all) := by
  induction n using Region.induction generalizing parent i with
  | node n ih =>
      obtain ⟨hn, hchildren⟩ := allTied_singleton.1 htied
      have hid : all.idxOf (id n) = i := hplaced 0 n (by
        rw [preorders_cons, preorder_eq, List.cons_append, List.getElem?_cons_zero])
      rw [listingFrom_eq, preorder_eq, List.map_cons, children_plain,
        listingsFrom_eq_of (fun c hc p k => ih c hc p k) hchildren (placed_children hplaced)
          hn.parent hid, ← hn.idxOf_reference hplaced, ← hparent]
      simp only [listed, label_plain, start_plain, stop_plain]

theorem listing_ofCst (text : List Char) (t : Cst) :
    (ofCst text none 0 t).1.listing = (Node.ofCst text t).listing := by
  have hnodup := nodup_ids_ofCst text none 0 t
  have hplaced : Placed (ids [(ofCst text none 0 t).1]) 0 [(ofCst text none 0 t).1] := by
    intro k x hx
    have hid : (ids [(ofCst text none 0 t).1])[k]? = some (id x) := by
      rw [ids, List.getElem?_map, hx, Option.map_some]
    obtain ⟨hk, hget⟩ := List.getElem?_eq_some_iff.1 hid
    rw [← hget, hnodup.idxOf_getElem, Nat.zero_add]
  have hlisting := listingFrom_plain _ none 0 (allTied_ofCst text none 0 t) hplaced
    (by rw [parent_ofCst]; rfl)
  rw [plain_ofCst] at hlisting
  rw [listing, Node.listing, hlisting]

def owned (l : LinkedNode) : List Nat := l.preorder.flatMap fun x => x.children.map id

/-- The children of the root but the comments. -/
def statements (l : LinkedNode) : List LinkedNode :=
  l.children.filter fun (c : LinkedNode) => c.type != "comment"

/-- The links of a tree are consistent: the root has no parent and is the child of no node, every other
node occurs once in all lists of children together and knows the owner of that list as its parent, and
what an import with an equals sign refers to is a node below it; no other node refers to anything. -/
structure Consistent (l : LinkedNode) : Prop where
  nodup : (l.preorder.map id).Nodup
  root_parent : l.parent = none
  root_not_owned : l.id ∉ l.owned
  owned_once : ∀ y ∈ l.preorder, y ≠ l → l.owned.count (id y) = 1
  parent : ∀ x ∈ l.preorder, ∀ c ∈ x.children, LinkedNode.parent c = some (id x)
  reference : ∀ x ∈ l.preorder, ∀ r, LinkedNode.reference x = some r →
    kind x = .importEquals ∧ ∃ y ∈ preorders x.children, y ∈ l.preorder ∧ id y = r

/-- A tied tree without a parent, its nodes told apart by their numbers, has consistent links. -/
theorem consistent_of_tied {l : LinkedNode} (hparent : l.parent = none) (hnodup : (ids [l]).Nodup)
    (htied : AllTied [l]) : Consistent l := by
  have hpreorder : preorders [l] = l.preorder := by
    rw [preorders_cons, preorders_nil, List.append_nil]
  rw [ids, hpreorder] at hnodup
  rw [AllTied, hpreorder] at htied
  have hcount : ∀ a, (l.preorder.map id).count a = [l.id].count a + l.owned.count a := fun a =>
    count_map_preorder id a l
  have hone : ∀ y ∈ l.preorder, (l.preorder.map id).count (id y) = 1 := fun y hy =>
    List.nodup_iff_count_eq_one.1 hnodup (id y) (List.mem_map_of_mem hy)
  have hself : l ∈ l.preorder := mem_preorder_iff.2 (Or.inl rfl)
  exact {
    nodup := hnodup
    root_parent := hparent
    root_not_owned := by
      have hroot := hcount l.id
      rw [hone l hself, List.count_singleton_self] at hroot
      exact List.count_eq_zero.1 (by omega)
    owned_once := fun y hy hne => by
      have hid : l.id ≠ id y := fun heq => hne (List.inj_on_of_nodup_map hnodup hy hself heq.symm)
      have hy' := hcount (id y)
      rw [hone y hy, List.count_singleton, if_neg (by simpa using hid)] at hy'
      omega
    parent := fun x hx => (htied x hx).parent
    reference := fun x hx r hr => by
      have hkind : kind x = .importEquals := by
        by_contra hkind
        rw [(htied x hx).reference_of_ne hkind] at hr
        cases hr
      rw [(htied x hx).reference] at hr
      obtain ⟨a, ha, hget⟩ := Option.bind_eq_some_iff.1 hr
      obtain ⟨y, hy, hid⟩ := Option.map_eq_some_iff.1 hget
      obtain ⟨hne, -⟩ := Node.exists_get?_of_referenceAddress? ha
      exact ⟨hkind, y, mem_preorders_children_of_get? hne hy,
        mem_preorder_trans (mem_preorder_of_get? hy) hx, hid⟩ }

end LinkedNode

namespace ParsedFile

open LinkedNode

/-- The links of a parsed file are consistent, and its listing tells them. -/
theorem ofCst?_consistent {path text : String} {tree : SyntaxTree} {f : ParsedFile}
    (h : ofCst? path text tree = some f) :
    (ofTree text tree).plain = f.root ∧ (ofTree text tree).listing = f.root.listing ∧
      Consistent (ofTree text tree) ∧
      (ofTree text tree).statements.map plain = f.statements ∧
      ∀ s ∈ (ofTree text tree).statements,
        s ∈ (ofTree text tree).children ∧ LinkedNode.parent s = some (ofTree text tree).id := by
  obtain ⟨-, hf⟩ := Option.ite_none_right_eq_some.1 h
  obtain rfl := Option.some.inj hf
  have hplain : (ofTree text tree).plain = Node.ofCst text.toList tree.root := plain_ofCst _ _ _ _
  have hconsistent : Consistent (ofTree text tree) :=
    consistent_of_tied (parent_ofCst _ _ _ _) (nodup_ids_ofCst _ _ _ _) (allTied_ofCst _ _ _ _)
  refine ⟨hplain, listing_ofCst text.toList tree.root, hconsistent, ?_, ?_⟩
  · rw [LinkedNode.statements, statements, ← hplain, children_plain, List.filter_map]
    simp only [Function.comp_def, Node.isComment, type_plain, bne]
  · intro s hs
    have hchild := List.mem_of_mem_filter hs
    exact ⟨hchild, hconsistent.parent _ (mem_preorder_iff.2 (Or.inl rfl)) s hchild⟩

/-- The links of a file with a split import are consistent. -/
theorem consistent_commentedRequire :
    ∃ f, ofCst? "f.d.ts" commentedRequire commentedRequireTree = some f ∧
      (ofTree commentedRequire commentedRequireTree).plain = f.root ∧
      (ofTree commentedRequire commentedRequireTree).listing = f.root.listing ∧
      Consistent (ofTree commentedRequire commentedRequireTree) ∧
      (ofTree commentedRequire commentedRequireTree).statements.map plain = f.statements ∧
      ∀ s ∈ (ofTree commentedRequire commentedRequireTree).statements,
        s ∈ (ofTree commentedRequire commentedRequireTree).children ∧
          LinkedNode.parent s = some (ofTree commentedRequire commentedRequireTree).id := by
  have hfits := commentedRequireTree.root.fits_of_isBoundary isBoundary_commentedRequireTree
  have hparsed : ofCst? "f.d.ts" commentedRequire commentedRequireTree = some _ := if_pos hfits
  exact ⟨_, hparsed, ofCst?_consistent hparsed⟩

-- The import has got the reference, which was made last; the word and the brackets have left it.
example : ((ofTree commentedRequire commentedRequireTree).get? [0, 1]).map
    (fun n => (n.label.id, n.label.reference, n.children.map fun c => (c.label.id, c.label.parent))) =
      some (3, some 19, [(4, some 3), (5, some 3), (6, some 3), (8, some 3), (19, some 3)]) := by
  decide +kernel

end ParsedFile

end DeclBundle
