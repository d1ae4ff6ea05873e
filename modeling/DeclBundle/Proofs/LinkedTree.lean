import DeclBundle.Proofs.ParsedOrder
import DeclBundle.Syntax.Linked
import Mathlib.Data.List.InsertIdx
import Mathlib.Data.List.Nodup

/-!
# Linked trees without their links

`Region.map` leaves addresses, sizes and ranks as they are. Without its links, the tree that
`LinkedNode.ofCst` makes is the one that `Node.ofCst` makes (`plain_ofCst`).

A number is given out once: those of a tree that was made between two states of the counter are counted
at most once between the two and not at all elsewhere (`count_ids_ofCst`). What is put together has the
numbers of its parts and that of the new reference, each at most as often (`count_ids_fold?`).
-/

namespace DeclBundle

namespace Region

variable {α β : Type}

theorem preorder_eq (r : Region α) : preorder r = r :: preorders r.children := by
  obtain ⟨_, _, _, cs⟩ := r
  rw [preorder]

@[simp] theorem preorders_nil : preorders ([] : List (Region α)) = [] := by rw [preorders]

@[simp] theorem preorders_cons (c : Region α) (cs : List (Region α)) :
    preorders (c :: cs) = preorder c ++ preorders cs := by rw [preorders]

@[simp] theorem preorders_append (cs ds : List (Region α)) :
    preorders (cs ++ ds) = preorders cs ++ preorders ds := by
  induction cs with
  | nil => rw [preorders_nil, List.nil_append, List.nil_append]
  | cons c cs ih => rw [List.cons_append, preorders_cons, preorders_cons, ih, List.append_assoc]

theorem preorders_filter_sublist (p : Region α → Bool) (cs : List (Region α)) :
    (preorders (cs.filter p)).Sublist (preorders cs) := by
  induction cs with
  | nil => rw [List.filter_nil]
  | cons c cs ih =>
      rw [preorders_cons]
      cases hc : p c with
      | true =>
          rw [List.filter_cons_of_pos hc, preorders_cons]
          exact ih.append_left (preorder c)
      | false =>
          rw [List.filter_cons_of_neg (by simp [hc])]
          exact ih.trans (List.sublist_append_right _ _)

theorem mk_eta (r : Region α) : (⟨r.label, r.start, r.stop, r.children⟩ : Region α) = r := by
  cases r
  rfl

/-- A row is what stands before one of its elements, the element and what stands behind it. -/
theorem exists_append_of_getElem? {cs : List α} {c : α} {i : Nat} (h : cs[i]? = some c) :
    ∃ before after, cs = before ++ c :: after ∧ before.length = i := by
  obtain ⟨hi, rfl⟩ := List.getElem?_eq_some_iff.1 h
  exact ⟨cs.take i, cs.drop (i + 1), by simp, by simp [hi.le]⟩

theorem rank_cons {r c : Region α} {i : Nat} (hc : r.children[i]? = some c) (a : List Nat) :
    rank r (i :: a) = 1 + sizes (r.children.take i) + rank c a := by
  rw [rank, hc]

theorem getElem?_preorder_rank {r x : Region α} {a : List Nat} (hx : r.get? a = some x) :
    (preorder r)[rank r a]? = some x := by
  induction a generalizing r with
  | nil => rw [rank_nil, preorder_eq, List.getElem?_cons_zero, ← hx, get?_nil]
  | cons i a ih =>
      obtain ⟨c, hc, hcx⟩ := exists_child_of_get?_cons hx
      obtain ⟨as, bs, hcs, rfl⟩ := exists_append_of_getElem? hc
      have hlt : rank c a < (preorder c).length := (List.getElem?_eq_some_iff.1 (ih hcx)).1
      have hrank : rank r (as.length :: a) = (sizes as + rank c a) + 1 := by
        rw [rank_cons hc, hcs, List.take_left']
        · omega
        · rfl
      rw [hrank, preorder_eq, List.getElem?_cons_succ, hcs, preorders_append, preorders_cons,
        ← length_preorders, List.getElem?_append_right (Nat.le_add_right _ _), Nat.add_sub_cancel_left,
        List.getElem?_append_left hlt, ih hcx]

theorem preorders_map {f : α → β} {cs : List (Region α)}
    (h : ∀ c ∈ cs, preorder (map f c) = (preorder c).map (map f)) :
    preorders (cs.map (map f)) = (preorders cs).map (map f) := by
  induction cs with
  | nil => rfl
  | cons c cs ih =>
      obtain ⟨hc, hcs⟩ := List.forall_mem_cons.1 h
      rw [List.map_cons, preorders_cons, preorders_cons, List.map_append, hc, ih hcs]

theorem preorder_map (f : α → β) (r : Region α) : preorder (map f r) = (preorder r).map (map f) := by
  induction r using Region.induction with
  | node r ih => rw [preorder_eq, preorder_eq, children_map, preorders_map ih, List.map_cons]

@[simp] theorem size_map (f : α → β) (r : Region α) : size (map f r) = size r := by
  rw [← length_preorder, ← length_preorder, preorder_map, List.length_map]

@[simp] theorem sizes_map (f : α → β) (cs : List (Region α)) :
    sizes (cs.map (map f)) = sizes cs := by
  induction cs with
  | nil => rfl
  | cons c cs ih => rw [List.map_cons, sizes_cons, sizes_cons, size_map, ih]

theorem get?_map (f : α → β) (r : Region α) (a : List Nat) :
    get? (map f r) a = (get? r a).map (map f) := by
  induction a generalizing r with
  | nil => rw [get?_nil, get?_nil, Option.map_some]
  | cons i a ih =>
      rw [get?_cons, get?_cons, children_map, List.getElem?_map]
      cases r.children[i]? with
      | none => rfl
      | some c => exact ih c

theorem rank_map (f : α → β) (r : Region α) (a : List Nat) : rank (map f r) a = rank r a := by
  induction a generalizing r with
  | nil => rw [rank_nil, rank_nil]
  | cons i a ih =>
      rw [rank, rank, children_map, List.getElem?_map, ← List.map_take, sizes_map]
      cases r.children[i]? with
      | none => rfl
      | some c =>
          rw [Option.map_some]
          simp only [ih c]

end Region

namespace LinkedNode

open Region

variable {text : List Char} {n m folded : LinkedNode}

@[simp] theorem kind_plain (n : LinkedNode) : n.plain.kind = n.kind := by
  rw [plain, map_eq]
  rfl

@[simp] theorem type_plain (n : LinkedNode) : n.plain.type = n.type := by
  rw [plain, map_eq]
  rfl

@[simp] theorem label_plain (n : LinkedNode) : n.plain.label = n.label.label := by
  rw [plain, map_eq]

@[simp] theorem start_plain (n : LinkedNode) : n.plain.start = n.start := by rw [plain, map_eq]

@[simp] theorem stop_plain (n : LinkedNode) : n.plain.stop = n.stop := by rw [plain, map_eq]

@[simp] theorem children_plain (n : LinkedNode) : n.plain.children = n.children.map plain := by
  rw [plain, children_map]
  rfl

@[simp] theorem isWide_plain (n : LinkedNode) : n.plain.isWide = n.isWide := isWide_map _ n

theorem plain_mk (label : Link) (s e : Nat) (cs : List LinkedNode) :
    plain ⟨label, s, e, cs⟩ = ⟨label.label, s, e, cs.map plain⟩ := by
  rw [plain, map_eq]
  rfl

@[simp] theorem plain_adopt (parent : Nat) (n : LinkedNode) : (adopt parent n).plain = n.plain := by
  rw [adopt, plain_mk, plain, map_eq]
  rfl

@[simp] theorem plain_refer (reference : Option Nat) (n : LinkedNode) :
    (refer reference n).plain = n.plain := by
  rw [refer, plain_mk, plain, map_eq]
  rfl

theorem map_plain_adopt (parent : Nat) (ns : List LinkedNode) :
    (ns.map (adopt parent)).map plain = ns.map plain := by
  rw [List.map_map]
  exact List.map_congr_left fun n _ => plain_adopt parent n

theorem map_plain_filter_isWide (ns : List LinkedNode) :
    (ns.filter fun (c : LinkedNode) => c.isWide).map plain =
      (ns.map plain).filter fun (c : Node) => c.isWide := by
  rw [List.filter_map]
  simp only [Function.comp_def, isWide_plain]

theorem plain_withReference (new j : Nat) (imported word call : LinkedNode) :
    (withReference new imported word call j).plain =
      Node.withReference imported.plain word.plain call.plain j := by
  simp only [withReference, plain_mk, List.map_append, map_plain_filter_isWide, List.map_cons,
    List.map_nil, map_plain_adopt, plain_adopt, Node.withReference, children_plain, start_plain,
    stop_plain, label_plain, List.eraseIdx_map]
  rfl

theorem plain_fold? (text : List Char) (new : Nat) (n m : LinkedNode) :
    (fold? text new n m).map plain = Node.fold? text n.plain m.plain := by
  rw [fold?, Node.fold?]
  cases hsplit : n.plain.splitRequire? text with
  | none => rfl
  | some ij =>
  obtain ⟨i, j⟩ := ij
  cases hbracket : m.plain.bracketedString? with
  | none => rfl
  | some parts =>
  obtain ⟨-, hchildren, -, -⟩ := Node.bracketedString?_eq_some_iff.1 hbracket
  rw [children_plain, List.map_eq_cons_iff] at hchildren
  obtain ⟨call, rest, hm, hcall, hrest⟩ := hchildren
  simp only [hm, List.head?_cons, List.tail_cons, bind, Option.bind_some, children_plain,
    List.getElem?_map, ← hcall, ← hrest]
  cases n.children[i]? with
  | none => rfl
  | some imported =>
  simp only [Option.bind_some, Option.map_some, children_plain, List.getElem?_map]
  cases imported.children[j]? with
  | none => rfl
  | some word =>
  simp only [Option.bind_some, Option.map_some, pure, plain_mk, List.map_append,
    map_plain_filter_isWide, map_plain_adopt, List.map_set, plain_withReference, label_plain,
    start_plain, stop_plain]

theorem plain_foldAll (text : List Char) (next : Nat) (ns : List LinkedNode) :
    (foldAll text next ns).1.map plain = Node.foldAll text (ns.map plain) := by
  fun_induction foldAll text next ns with
  | case1 => simp
  | case2 => simp
  | case3 next n m ns folded hfold row ih =>
      have hplain := plain_fold? text next n m
      rw [hfold, Option.map_some] at hplain
      simp only [List.map_cons, Node.foldAll, ← hplain, row, ih]
  | case4 next n m ns hfold row ih =>
      have hplain := plain_fold? text next n m
      rw [hfold, Option.map_none] at hplain
      simp only [List.map_cons, Node.foldAll, ← hplain, row, ih]

theorem plain_make (new : Nat) (parent : Option Nat) (bare : Node) (children : List LinkedNode) :
    (make new parent bare children).plain =
      ⟨bare.label, bare.start, bare.stop, children.map plain⟩ := by
  rw [make, plain_refer, plain_mk]

def childrenOfCst (text : List Char) (next : Nat) (t : Cst) : List LinkedNode × Nat :=
  if t.type = "import_require_clause" then ofClause text next (next + 1) t.children
  else
    foldAll text (ofCsts text (some next) (next + 1) t.children).2
      (ofCsts text (some next) (next + 1) t.children).1

theorem ofCst_eq (text : List Char) (parent : Option Nat) (next : Nat) (t : Cst) :
    ofCst text parent next t =
      (make next parent (Node.ofCst text t) (childrenOfCst text next t).1,
        (childrenOfCst text next t).2) := by
  obtain ⟨label, s, e, cs⟩ := t
  rw [ofCst]
  rfl

@[simp] theorem ofCsts_nil (text : List Char) (parent : Option Nat) (next : Nat) :
    ofCsts text parent next [] = ([], next) := by rw [ofCsts]

theorem ofCsts_cons (text : List Char) (parent : Option Nat) (next : Nat) (c : Cst) (cs : List Cst) :
    ofCsts text parent next (c :: cs) =
      ((ofCst text parent next c).1 :: (ofCsts text parent (ofCst text parent next c).2 cs).1,
        (ofCsts text parent (ofCst text parent next c).2 cs).2) := by rw [ofCsts]

@[simp] theorem ofClause_nil (text : List Char) (clause next : Nat) :
    ofClause text clause next [] = ([], next) := by rw [ofClause]

theorem plain_ofCsts_of {cs : List Cst} (text : List Char) (parent : Option Nat) (next : Nat)
    (h : ∀ c ∈ cs, ∀ parent next, (ofCst text parent next c).1.plain = Node.ofCst text c) :
    (ofCsts text parent next cs).1.map plain = cs.map (Node.ofCst text) := by
  induction cs generalizing next with
  | nil => rw [ofCsts_nil]; rfl
  | cons c cs ih =>
      obtain ⟨hc, hcs⟩ := List.forall_mem_cons.1 h
      rw [ofCsts_cons, List.map_cons, List.map_cons, hc, ih _ hcs]

/-- In a clause, what stands before the word `require` stays as it is. -/
theorem arrange_cons {label : GrammarLabel} {c : Cst} (htype : label.type = "import_require_clause")
    (hc : c.isToken "require" = false) (text : List Char) (cs : List Cst) :
    Node.arrange text label (c :: cs) ((c :: cs).map (Node.ofCst text)) =
      Node.ofCst text c :: Node.arrange text label cs (cs.map (Node.ofCst text)) := by
  cases hword : cs.find? (Cst.isToken "require") with
  | none =>
      have hcs : cs.any (Cst.isToken "require") = false :=
        List.any_eq_false.2 (List.find?_eq_none.1 hword)
      rw [Node.arrange_of_not_any htype (by rw [List.any_cons, hc, hcs]; rfl),
        Node.arrange_of_not_any htype hcs, List.map_cons]
  | some word =>
      obtain ⟨hw, before, after, rfl, hbefore⟩ := List.find?_eq_some_iff_append.1 hword
      have hbefore' : ∀ t ∈ before, t.isToken "require" = false := by simpa using hbefore
      rw [← List.cons_append, Node.arrange_of_require htype hw (List.forall_mem_cons.2 ⟨hc, hbefore'⟩),
        Node.arrange_of_require htype hw hbefore', List.map_cons, List.cons_append]

/-- Without their links, the children of a clause are as they are arranged. -/
theorem plain_ofClause_of {label : GrammarLabel} {cs : List Cst}
    (htype : label.type = "import_require_clause") (text : List Char) (clause next : Nat)
    (h : ∀ c ∈ cs, ∀ parent next, (ofCst text parent next c).1.plain = Node.ofCst text c) :
    (ofClause text clause next cs).1.map plain =
      Node.arrange text label cs (cs.map (Node.ofCst text)) := by
  induction cs generalizing next with
  | nil => rw [ofClause_nil, Node.arrange_of_not_any htype rfl, List.map_nil, List.map_nil]
  | cons c cs ih =>
      obtain ⟨hc, hcs⟩ := List.forall_mem_cons.1 h
      cases hword : c.isToken "require" with
      | true =>
          have hfirst : ∀ d ∈ ([] : List Cst), d.isToken "require" = false := nofun
          rw [← List.nil_append (c :: cs), Node.arrange_of_require htype hword hfirst, List.nil_append,
            ofClause, if_pos hword]
          simp only [List.map_cons, List.map_nil, plain_mk, hc, plain_ofCsts_of _ _ _ hcs, ← start_plain,
            Node.start_ofCst, List.nil_append]
      | false =>
          rw [arrange_cons htype hword, ofClause, if_neg (by simp [hword])]
          simp only [List.map_cons, hc, ih _ hcs]

@[simp] theorem plain_ofCst (text : List Char) (parent : Option Nat) (next : Nat) (t : Cst) :
    (ofCst text parent next t).1.plain = Node.ofCst text t := by
  induction t using Region.induction generalizing parent next with
  | node t ih =>
      have hchildren : (childrenOfCst text next t).1.map plain = (Node.ofCst text t).children := by
        rw [Node.children_ofCst, childrenOfCst]
        split
        case isTrue htype => exact plain_ofClause_of htype text next (next + 1) ih
        case isFalse htype =>
          rw [plain_foldAll, plain_ofCsts_of _ _ _ ih, Node.arrange_of_ne htype]
      rw [ofCst_eq, plain_make, hchildren, mk_eta]

@[simp] theorem ids_nil : ids [] = [] := by rw [ids, preorders_nil, List.map_nil]

@[simp] theorem ids_cons (n : LinkedNode) (ns : List LinkedNode) :
    ids (n :: ns) = n.id :: (ids n.children ++ ids ns) := by
  rw [ids, ids, ids, preorders_cons, preorder_eq, List.map_append, List.map_cons, List.cons_append]

@[simp] theorem ids_append (ns ms : List LinkedNode) : ids (ns ++ ms) = ids ns ++ ids ms := by
  rw [ids, ids, ids, preorders_append, List.map_append]

@[simp] theorem ids_map_adopt (parent : Nat) (ns : List LinkedNode) :
    ids (ns.map (adopt parent)) = ids ns := by
  induction ns with
  | nil => rfl
  | cons n ns ih => rw [List.map_cons, ids_cons, ids_cons, ih]; rfl

theorem count_ids_cons (a : Nat) (n : LinkedNode) (ns : List LinkedNode) :
    (ids (n :: ns)).count a = [n.id].count a + (ids n.children).count a + (ids ns).count a := by
  rw [ids_cons, ← List.singleton_append, List.count_append, List.count_append, Nat.add_assoc]

theorem count_ids_mk (a : Nat) (label : Link) (s e : Nat) (cs : List LinkedNode) :
    (ids [⟨label, s, e, cs⟩]).count a = [label.id].count a + (ids cs).count a := by
  rw [count_ids_cons, ids_nil, List.count_nil, Nat.add_zero]
  rfl

theorem count_ids_make (a new : Nat) (parent : Option Nat) (bare : Node) (cs : List LinkedNode) :
    (ids [make new parent bare cs]).count a = [new].count a + (ids cs).count a := by
  rw [make, refer, count_ids_mk]

theorem count_ids_append (a : Nat) (ns ms : List LinkedNode) :
    (ids (ns ++ ms)).count a = (ids ns).count a + (ids ms).count a := by
  rw [ids_append, List.count_append]

theorem count_ids_filter_le (a : Nat) (p : LinkedNode → Bool) (ns : List LinkedNode) :
    (ids (ns.filter p)).count a ≤ (ids ns).count a :=
  ((preorders_filter_sublist p ns).map id).count_le a

/-- The parts of a split import among linked nodes. -/
structure Split where
  before : List LinkedNode
  imported : LinkedNode
  after : List LinkedNode
  left : List LinkedNode
  word : LinkedNode
  right : List LinkedNode
  call : LinkedNode
  rest : List LinkedNode

namespace Split

/-- Two statements have these parts. -/
structure Reads (n m : LinkedNode) (s : Split) : Prop where
  statement_type : n.type = "export_statement"
  statement_children : n.children = s.before ++ s.imported :: s.after
  imported_type : s.imported.type = "import_alias"
  imported_children : s.imported.children = s.left ++ s.word :: s.right
  following_children : m.children = s.call :: s.rest

def reference (new : Nat) (s : Split) : LinkedNode :=
  ⟨⟨new, Node.referenceLabel, some s.imported.id, none⟩, s.word.start, s.call.stop,
    (s.word :: s.call.children).map (adopt new)⟩

def joinedImport (new : Nat) (s : Split) : LinkedNode :=
  { s.imported.refer (some new) with
    stop := s.call.stop
    children := (s.left ++ s.right).filter (fun (c : LinkedNode) => c.isWide) ++ [s.reference new] }

def joined (new : Nat) (n m : LinkedNode) (s : Split) : LinkedNode :=
  { n with
    stop := m.stop
    children := (s.before ++ s.joinedImport new :: s.after).filter (fun (c : LinkedNode) => c.isWide) ++
      s.rest.map (adopt n.id) }

end Split

theorem exists_split_of_fold? {new : Nat} (h : fold? text new n m = some folded) :
    ∃ s : Split, s.Reads n m ∧ folded = s.joined new n m := by
  unfold fold? at h
  simp only [bind, Option.bind_eq_some_iff, pure, Option.some.injEq] at h
  obtain ⟨⟨i, j⟩, hsplit, -, -, call, hcall, imported, himp, word, hword, rfl⟩ := h
  obtain ⟨htype, before, c, _, _, _, _, hcs, rfl, hctype, -⟩ :=
    Node.splitRequire?_eq_some_iff.1 hsplit
  simp only at himp hword
  obtain ⟨before', after, hchildren, hlength⟩ := exists_append_of_getElem? himp
  obtain ⟨left, right, hinner, rfl⟩ := exists_append_of_getElem? hword
  obtain ⟨rest, hm⟩ := List.head?_eq_some_iff.1 hcall
  have himported : plain imported = c := by
    have hget : n.plain.children[before.length]? = some c := by rw [hcs]; simp
    simpa [himp] using hget
  refine ⟨⟨before', imported, after, left, word, right, call, rest⟩,
    ⟨by rwa [type_plain] at htype, hchildren, by rw [← type_plain, himported, hctype], hinner, hm⟩, ?_⟩
  rw [← hlength]
  simp only [Split.joined, Split.joinedImport, Split.reference, withReference, hchildren, hinner, hm,
    List.set_append_right _ _ (Nat.le_refl _),
    List.eraseIdx_append_of_length_le (Nat.le_refl _), Nat.sub_self, List.set_cons_zero,
    List.eraseIdx_cons_zero, List.tail_cons]

/-- One if the first number is less than the second, that is, if it was given out before. -/
def below (a next : Nat) : Nat := if a < next then 1 else 0

theorem count_singleton_add_below (a new : Nat) :
    [new].count a + below a new = below a (new + 1) := by
  simp only [List.count_singleton, beq_iff_eq, below]
  split_ifs <;> omega

/-- The import gets the numbers that the brackets had and that of the reference. -/
theorem count_ids_joinedImport (new : Nat) {s : Split} (hs : s.Reads n m) (a : Nat) :
    (ids [s.joinedImport new]).count a + below a new ≤
      (ids [s.imported]).count a + (ids s.call.children).count a + below a (new + 1) := by
  have hkept := count_ids_filter_le a (fun c => c.isWide) (s.left ++ s.right)
  have hnew := count_singleton_add_below a new
  have hreference : (ids [s.reference new]).count a =
      [new].count a + (ids (s.word :: s.call.children)).count a := by
    rw [Split.reference, count_ids_mk, ids_map_adopt]
  have hjoined : (ids [s.joinedImport new]).count a = [s.imported.id].count a +
      ((ids ((s.left ++ s.right).filter fun c => c.isWide)).count a +
        (ids [s.reference new]).count a) := by
    rw [Split.joinedImport, count_ids_mk, count_ids_append]
    rfl
  rw [hjoined, hreference]
  simp only [count_ids_cons, count_ids_append, ids_nil, hs.imported_children] at hkept ⊢
  omega

/-- What is put together has the numbers of its parts and that of the reference. -/
theorem count_ids_fold? {new : Nat} (h : fold? text new n m = some folded) (a : Nat) :
    (ids [folded]).count a + below a new ≤ (ids [n, m]).count a + below a (new + 1) := by
  obtain ⟨s, hs, rfl⟩ := exists_split_of_fold? h
  have hkept := count_ids_filter_le a (fun c => c.isWide) (s.before ++ s.joinedImport new :: s.after)
  have himport := count_ids_joinedImport new hs a
  have hjoined : (ids [s.joined new n m]).count a = [n.id].count a +
      ((ids ((s.before ++ s.joinedImport new :: s.after).filter fun c => c.isWide)).count a +
        (ids s.rest).count a) := by
    rw [Split.joined, count_ids_mk, count_ids_append, ids_map_adopt]
    rfl
  rw [hjoined]
  simp only [count_ids_cons, count_ids_append, ids_nil, hs.statement_children,
    hs.following_children, List.count_nil] at hkept himport ⊢
  omega

/-- Along a row, what is put together has the numbers of the row and new ones. -/
theorem count_ids_foldAll (text : List Char) (next : Nat) (ns : List LinkedNode) (a : Nat) :
    (ids (foldAll text next ns).1).count a + below a next ≤
      (ids ns).count a + below a (foldAll text next ns).2 := by
  fun_induction foldAll text next ns with
  | case1 => simp
  | case2 => simp
  | case3 next n m ns folded hfold row ih =>
      have hfolded := count_ids_fold? hfold a
      simp only [count_ids_cons, ids_nil, List.count_nil, row] at hfolded ih ⊢
      omega
  | case4 next n m ns hfold row ih =>
      simp only [count_ids_cons, row] at ih ⊢
      omega

/-- The numbers of a row of trees are given out once, if those of each tree are. -/
theorem count_ids_ofCsts_of {cs : List Cst} {a : Nat} (text : List Char) (parent : Option Nat)
    (next : Nat)
    (h : ∀ c ∈ cs, ∀ parent next, (ids [(ofCst text parent next c).1]).count a + below a next ≤
      below a (ofCst text parent next c).2) :
    (ids (ofCsts text parent next cs).1).count a + below a next ≤
      below a (ofCsts text parent next cs).2 := by
  induction cs generalizing next with
  | nil => simp
  | cons c cs ih =>
      obtain ⟨hc, hcs⟩ := List.forall_mem_cons.1 h
      have hfirst := hc parent next
      have hrow := ih (ofCst text parent next c).2 hcs
      simp only [ofCsts_cons, count_ids_cons, ids_nil, List.count_nil] at hfirst ⊢
      omega

/-- The numbers of a clause are given out once, if those of each tree in it are. -/
theorem count_ids_ofClause_of {cs : List Cst} {a : Nat} (text : List Char) (clause next : Nat)
    (h : ∀ c ∈ cs, ∀ parent next, (ids [(ofCst text parent next c).1]).count a + below a next ≤
      below a (ofCst text parent next c).2) :
    (ids (ofClause text clause next cs).1).count a + below a next ≤
      below a (ofClause text clause next cs).2 := by
  induction cs generalizing next with
  | nil => simp
  | cons c cs ih =>
      obtain ⟨hc, hcs⟩ := List.forall_mem_cons.1 h
      rw [ofClause]
      split
      case isTrue =>
        have hfirst := hc (some next) (next + 1)
        have hrow := count_ids_ofCsts_of text (some next) (ofCst text (some next) (next + 1) c).2 hcs
        have hnew := count_singleton_add_below a next
        simp only [count_ids_mk]
        simp only [count_ids_cons, ids_nil, List.count_nil] at hfirst ⊢
        omega
      case isFalse =>
        have hfirst := hc (some clause) next
        have hrow := ih (ofCst text (some clause) next c).2 hcs
        simp only [count_ids_cons, ids_nil, List.count_nil] at hfirst ⊢
        omega

/-- The numbers in a tree are those given out while it was made, each at most once. -/
theorem count_ids_ofCst (text : List Char) (parent : Option Nat) (next : Nat) (t : Cst) (a : Nat) :
    (ids [(ofCst text parent next t).1]).count a + below a next ≤
      below a (ofCst text parent next t).2 := by
  induction t using Region.induction generalizing parent next with
  | node t ih =>
      have hchildren : (ids (childrenOfCst text next t).1).count a + below a (next + 1) ≤
          below a (childrenOfCst text next t).2 := by
        rw [childrenOfCst]
        split
        · exact count_ids_ofClause_of text next (next + 1) ih
        · have hrow := count_ids_ofCsts_of text (some next) (next + 1) ih
          have hfold := count_ids_foldAll text (ofCsts text (some next) (next + 1) t.children).2
            (ofCsts text (some next) (next + 1) t.children).1 a
          omega
      have hnew := count_singleton_add_below a next
      rw [ofCst_eq]
      simp only [count_ids_make]
      omega

theorem nodup_ids_ofCst (text : List Char) (parent : Option Nat) (next : Nat) (t : Cst) :
    (ids [(ofCst text parent next t).1]).Nodup := by
  rw [List.nodup_iff_count_le_one]
  intro a
  have hcount := count_ids_ofCst text parent next t a
  have hle : below a (ofCst text parent next t).2 ≤ 1 := by
    rw [below]
    split <;> omega
  omega

end LinkedNode

end DeclBundle
