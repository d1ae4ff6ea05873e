import DeclBundle.Proofs.KeptReferences
import DeclBundle.Proofs.ModuleBlock

/-!
# Files with comments put in

Two files are parsed, one of the former text of a draft and one of the revised text, and the tree of the second
is that of the first with comments put in. Without these comments the nodes are the same, and so is what is
rewritten in them (`ofCst?_inserted`), unless a comment hinders that statements are put together. An import
refers to the same exactly if no comment was put in between its equals sign and the entity behind it.
-/

namespace DeclBundle

open Region

namespace Node

variable {d : Draft} {p : Node → Bool} {n m : Node}

/-- A node of a tree of the former text and one of the revised text are the same but for their place, and have
the same place in the draft. -/
structure SameKept (d : Draft) (x y : Region Kept) : Prop where
  label : y.label.label = x.label.label
  start : x.start = d.back y.start
  stop : x.stop = d.back y.stop ∨
    x.label.label.kind = .declareKeyword ∧ x.stop = skipBlank d.former (d.back y.stop)

/-- Two nodes are the same, and refer to the same exactly if no comment blocks that. -/
structure SameUnlessBlocked (d : Draft) (x y : Region Kept) : Prop where
  same : SameKept d x y
  reference : y.label.reference = x.label.reference ↔ y.label.blocked = false

theorem picksComments_false : PicksComments fun _ => false := fun _ h => nomatch h

theorem blocks_false (seen : Bool) (cs : List Node) : blocks (fun _ => false) seen false cs = false := by
  induction cs generalizing seen with
  | nil => rfl
  | cons c cs ih => rw [blocks, if_neg Bool.false_ne_true, ih, ite_self]

theorem isBlocked_false (n : Node) : n.isBlocked (fun _ => false) = false := by
  rw [isBlocked, blocks_false, Bool.and_false]

theorem sameUnlessBlocked_of_spot (hp : PicksComments p) (h : Corresponding (Spot d) n (prune p m)) :
    SameUnlessBlocked d (kept (fun _ => false) n) (kept p m) := by
  have hspot := h.root
  have hformer := (referenceAddress?_prune_iff picksComments_false).2 (isBlocked_false n)
  rw [prune_false] at hformer
  have hsame := (referenceAddress?_of_corresponding (fun _ _ hxy => hxy.label) h).trans hformer
  rw [kept_eq, kept_eq]
  refine ⟨⟨by simpa using hspot.label, by simpa using hspot.start, ?_⟩, ?_⟩
  · rcases hspot.stop with hstop | ⟨-, hkind, hstop⟩
    · exact Or.inl (by simpa using hstop)
    · exact Or.inr ⟨hkind, by simpa using hstop⟩
  · exact (eq_comm.trans (by rw [hsame])).trans (referenceAddress?_prune_iff hp)

/-- Where nodes correspond without the picked comments, they refer to the same. -/
theorem corresponding_kept (hp : PicksComments p) (m : Node) : ∀ {n : Node},
    Corresponding (Spot d) n (prune p m) →
      Corresponding (SameUnlessBlocked d) (kept (fun _ => false) n) (kept p m) := by
  induction m using Region.induction with
  | node m ih =>
      intro n h
      refine corresponding_of_children (sameUnlessBlocked_of_spot hp h) ?_
      have hchildren := h.children
      rw [children_prune, prunes_eq, List.forall₂_map_right_iff] at hchildren
      rw [kept_eq, kept_eq, List.filter_eq_self.2 (by simp), List.forall₂_map_left_iff,
        List.forall₂_map_right_iff]
      exact forall₂_imp_of_mem hchildren fun _ _ c hc hxc => ih c (List.mem_of_mem_filter hc) hxc

end Node

namespace Emission

open Node

variable {d : Draft} {p : Node → Bool} {n m : Node} {parent parent' : Option Node} {id : String}

/-- What stands for a node is told by its label, the kind of its parent, and its first string. -/
theorem replacement_congr (hparent : parent'.map kind = parent.map kind) (hlabel : m.label = n.label)
    (hchild : (m.findChild? .stringLiteral).map Region.label =
      (n.findChild? .stringLiteral).map Region.label) (id : String) :
    replacement id parent' m = replacement id parent n := by
  have hbears : bearsSpecifier parent' = bearsSpecifier parent := by
    cases parent <;> cases parent' <;> simp_all [bearsSpecifier]
  have hspecifier : (m.findChild? .stringLiteral).bind specifier? =
      (n.findChild? .stringLiteral).bind specifier? := by
    have h := congrArg (fun x => Option.bind x fun l : NodeLabel => l.literal.filter isRelative) hchild
    rw [Option.bind_map, Option.bind_map] at h
    exact h
  rw [replacement, replacement, kind, kind, specifier?, specifier?, hlabel, hspecifier, hbears]

theorem find?_prunes {q : Node → Bool} {cs : List Node} (hq : ∀ c, q (prune p c) = q c)
    (hpq : ∀ c, p c = true → q c = false) : (prunes p cs).find? q = (cs.find? q).map (prune p) := by
  induction cs with
  | nil => simp
  | cons c cs ih =>
      cases hc : p c with
      | true => rw [prunes_cons_of_pos hc, ih, List.find?_cons, hpq c hc]
      | false =>
          rw [prunes_cons_of_neg hc, List.find?_cons, List.find?_cons, hq, ih]
          cases q c <;> rfl

theorem replacement_prune (hp : PicksComments p) (id : String) (parent : Option Node) (n : Node) :
    replacement id (parent.map (prune p)) (prune p n) = replacement id parent n := by
  refine replacement_congr ?_ (label_prune p n) ?_ id
  · rw [Option.map_map]
    congr 1
    funext x
    exact kind_prune p x
  · have hfind : findChild? (prune p n) .stringLiteral = (n.findChild? .stringLiteral).map (prune p) := by
      rw [findChild?, findChild?, children_prune]
      exact find?_prunes (fun c => by rw [kind_prune]) fun c hc => by rw [(hp c hc).2.1]; rfl
    rw [hfind, Option.map_map]
    congr 1
    funext x
    exact label_prune p x

theorem editsAll_prunes {cs : List Node} (hp : PicksComments p) (parent : Option Node)
    (ih : ∀ c ∈ cs, editsFrom (replacement id) (parent.map (prune p)) (prune p c) =
      editsFrom (replacement id) parent c) :
    editsAll (replacement id) (parent.map (prune p)) (prunes p cs) = editsAll (replacement id) parent cs := by
  induction cs with
  | nil => simp
  | cons c cs ihs =>
      rw [List.forall_mem_cons] at ih
      cases hc : p c with
      | true =>
          obtain ⟨-, hkind, hleaf⟩ := hp c hc
          have hnone : replacement id parent c = none := by rw [replacement, hkind]
          rw [prunes_cons_of_pos hc, ihs ih.2, editsAll_cons, editsFrom_of_none hnone, hleaf, editsAll_nil,
            List.nil_append]
      | false => rw [prunes_cons_of_neg hc, editsAll_cons, editsAll_cons, ih.1, ihs ih.2]

theorem editsFrom_prune (hp : PicksComments p) (n : Node) : ∀ parent : Option Node,
    editsFrom (replacement id) (parent.map (prune p)) (prune p n) =
      editsFrom (replacement id) parent n := by
  induction n using Region.induction with
  | node n ih =>
      intro parent
      have hreplacement := replacement_prune hp id parent n
      cases h : replacement id parent n with
      | some text =>
          rw [editsFrom_of_some (hreplacement.trans h), editsFrom_of_some h, start_prune, stop_prune]
      | none =>
          rw [editsFrom_of_none (hreplacement.trans h), editsFrom_of_none h, children_prune]
          exact editsAll_prunes hp (some n) fun c hc => ih c hc (some n)

/-- An edit of the former text of a draft and one of the revised text put in the same at the same place. Where
a keyword is dropped, a blank behind it may be dropped with it in the former text only. -/
structure SameEdit (d : Draft) (e e' : Edit) : Prop where
  text : e'.text = e.text
  start : e.start = d.back e'.start
  stop : e.stop = d.back e'.stop ∨ e.text = "" ∧ e.stop = skipBlank d.former (d.back e'.stop)

theorem label_find?_of_forall₂ {q : Node → Bool} {cs ds : List Node}
    (h : List.Forall₂ (Corresponding (Spot d)) cs ds) (hq : ∀ x y : Node, y.label = x.label → q y = q x) :
    (ds.find? q).map Region.label = (cs.find? q).map Region.label := by
  induction h with
  | nil => rfl
  | cons hxy _ ih =>
      rw [List.find?_cons, List.find?_cons, hq _ _ hxy.root.label]
      split
      · rw [Option.map_some, Option.map_some, hxy.root.label]
      · exact ih

theorem replacement_of_corresponding (id : String) (hparent : parent'.map kind = parent.map kind)
    (h : Corresponding (Spot d) n m) : replacement id parent' m = replacement id parent n :=
  replacement_congr hparent h.root.label
    (label_find?_of_forall₂ h.children fun x y hlabel => by rw [kind, kind, hlabel]) id

theorem editsAll_of_forall₂ {cs ds : List Node} {parent parent' : Option Node}
    (h : List.Forall₂ (fun x y => List.Forall₂ (SameEdit d) (editsFrom (replacement id) parent x)
      (editsFrom (replacement id) parent' y)) cs ds) :
    List.Forall₂ (SameEdit d) (editsAll (replacement id) parent cs)
      (editsAll (replacement id) parent' ds) := by
  induction h with
  | nil => simp
  | cons hxy _ ih =>
      rw [editsAll_cons, editsAll_cons]
      exact List.rel_append hxy ih

theorem editsFrom_of_corresponding (n : Node) : ∀ {m : Node} {parent parent' : Option Node},
    parent'.map kind = parent.map kind → Corresponding (Spot d) n m →
      List.Forall₂ (SameEdit d) (editsFrom (replacement id) parent n)
        (editsFrom (replacement id) parent' m) := by
  induction n using Region.induction with
  | node n ih =>
      intro m parent parent' hparent h
      have hreplacement := replacement_of_corresponding id hparent h
      cases hr : replacement id parent n with
      | some text =>
          rw [editsFrom_of_some hr, editsFrom_of_some (hreplacement.trans hr)]
          refine .cons ⟨rfl, h.root.start, ?_⟩ .nil
          rcases h.root.stop with hstop | ⟨-, hkind, hstop⟩
          · exact Or.inl hstop
          · rw [replacement, hkind] at hr
            exact Or.inr ⟨(Option.some.inj hr).symm, hstop⟩
      | none =>
          rw [editsFrom_of_none hr, editsFrom_of_none (hreplacement.trans hr)]
          have hkind : (some m).map kind = (some n).map kind := by
            rw [Option.map_some, Option.map_some, kind, kind, h.root.label]
          exact editsAll_of_forall₂ (forall₂_imp_of_mem h.children fun c hc _ _ hxy => ih c hc hkind hxy)

end Emission

def Draft.insert (before added after : String) : Draft :=
  before.toList.map (·, false) ++ added.toList.map (·, true) ++ after.toList.map (·, false)

namespace ParsedFile

open Node Emission

/-- Comments put into a tree change neither its nodes, nor what is rewritten in them, nor whether the file is a
module, if no comment stands between the halves of a split import or in front of the second half, and what was
put in spares the names and tokens that split imports are told by. What an import refers to stays exactly if no
comment was put in between its equals sign and the entity looked for behind it. -/
theorem ofCst?_inserted {d : Draft} {k l : Nat} {tree tree' : SyntaxTree} (path : String)
    (h : Cst.Inserted d k l tree.root tree'.root) (hspares : Cst.Spares d tree'.root)
    (hunhindered : Cst.Unhindered d.revised d.picks tree'.root) :
    ∃ f f', ofCst? path (String.ofList d.former) tree = some f ∧
      ofCst? path (String.ofList d.revised) tree' = some f' ∧
      Corresponding (SameUnlessBlocked d) (f.root.kept fun _ => false) (f'.root.kept d.picks) ∧
      (∀ id, List.Forall₂ (SameEdit d) (f.root.edits (replacement id))
        (f'.root.edits (replacement id))) ∧
      (tree.root.type = "program" → f'.isModule = f.isModule) := by
  obtain ⟨hfits, hfits'⟩ := h.fits
  rw [← String.toList_ofList (l := d.former)] at hfits
  rw [← String.toList_ofList (l := d.revised)] at hfits'
  have hparsed : ofCst? path (String.ofList d.former) tree = some _ := if_pos hfits
  have hparsed' : ofCst? path (String.ofList d.revised) tree' = some _ := if_pos hfits'
  have hp := d.picksComments_picks
  obtain ⟨hnested, hnested'⟩ := h.nested
  have hcorresponding : Corresponding (Spot d) (ofCst d.former tree.root)
      (prune d.picks (ofCst d.revised tree'.root)) := by
    rw [prune_ofCst hp tree'.root h.picksComments hunhindered]
    exact corresponding_ofCst tree.root hnested (hnested'.prune _) (h.shifted hspares)
  refine ⟨_, _, hparsed, hparsed', ?_, fun id => ?_, fun hroot => ?_⟩
  · simp only [String.toList_ofList]
    exact corresponding_kept hp _ hcorresponding
  · simp only [String.toList_ofList, edits]
    rw [← editsFrom_prune hp (ofCst d.revised tree'.root) none]
    exact editsFrom_of_corresponding _ rfl hcorresponding
  · obtain ⟨f, hf, -, hcommented⟩ := isModule_iff_exists_statement path _ tree hroot hfits
    obtain rfl := Option.some.inj (hparsed.symm.trans hf)
    exact hcommented path _ tree' _ h.commented hparsed'

/-- A split import with the comment in `commentedRequire` put into it. -/
def requireDraft : Draft := .insert "export import A = require" " /*y*/" " ('./a');\n"

def requireHalf : Cst :=
  ⟨⟨"export_statement", true, none⟩, 0, 25, [
    ⟨⟨"export", false, none⟩, 0, 6, []⟩,
    ⟨⟨"import_alias", true, some "declaration"⟩, 7, 25, [
      ⟨⟨"import", false, none⟩, 7, 13, []⟩,
      ⟨⟨"identifier", true, none⟩, 14, 15, []⟩,
      ⟨⟨"=", false, none⟩, 16, 17, []⟩,
      ⟨⟨"identifier", true, none⟩, 18, 25, []⟩,
      ⟨⟨";", false, none⟩, 25, 25, []⟩]⟩]⟩

def splitRequireTree : SyntaxTree where
  root := ⟨⟨"program", true, none⟩, 0, 35, [
    requireHalf,
    ⟨⟨"expression_statement", true, none⟩, 26, 34, [
      ⟨⟨"parenthesized_expression", true, none⟩, 26, 33, [
        ⟨⟨"(", false, none⟩, 26, 27, []⟩,
        ⟨⟨"string", true, none⟩, 27, 32, [
          ⟨⟨"\'", false, none⟩, 27, 28, []⟩,
          ⟨⟨"string_fragment", true, none⟩, 28, 31, []⟩,
          ⟨⟨"\'", false, none⟩, 31, 32, []⟩]⟩,
        ⟨⟨")", false, none⟩, 32, 33, []⟩]⟩,
      ⟨⟨";", false, none⟩, 33, 34, []⟩]⟩]⟩
  hasErrors := false

theorem ofCst?_inserted_commentedRequire :
    Cst.Inserted requireDraft 0 41 splitRequireTree.root commentedRequireTree.root ∧
      Cst.Spares requireDraft commentedRequireTree.root ∧
      Cst.Unhindered requireDraft.revised requireDraft.picks commentedRequireTree.root ∧
      ∃ f f', ofCst? "f.d.ts" (String.ofList requireDraft.former) splitRequireTree = some f ∧
        ofCst? "f.d.ts" (String.ofList requireDraft.revised) commentedRequireTree = some f' ∧
        Corresponding (SameUnlessBlocked requireDraft) (f.root.kept fun _ => false)
          (f'.root.kept requireDraft.picks) ∧
        (∀ id, List.Forall₂ (SameEdit requireDraft) (f.root.edits (replacement id))
          (f'.root.edits (replacement id))) ∧
        (splitRequireTree.root.type = "program" → f'.isModule = f.isModule) := by
  have hinserted : Cst.Inserted requireDraft 0 41 splitRequireTree.root commentedRequireTree.root := by
    decide +kernel
  have hspares : Cst.Spares requireDraft commentedRequireTree.root := by decide +kernel
  have hunhindered : Cst.Unhindered requireDraft.revised requireDraft.picks commentedRequireTree.root :=
    Cst.unhindered_of_apart (by decide +kernel) (by decide +kernel)
  exact ⟨hinserted, hspares, hunhindered, ofCst?_inserted "f.d.ts" hinserted hspares hunhindered⟩

/-- The same comment, but between the two statements. -/
def partedRequireTree : SyntaxTree where
  root := ⟨⟨"program", true, none⟩, 0, 41, [
    requireHalf,
    ⟨⟨"comment", true, none⟩, 26, 31, []⟩,
    ⟨⟨"expression_statement", true, none⟩, 32, 40, [
      ⟨⟨"parenthesized_expression", true, none⟩, 32, 39, [
        ⟨⟨"(", false, none⟩, 32, 33, []⟩,
        ⟨⟨"string", true, none⟩, 33, 38, [
          ⟨⟨"\'", false, none⟩, 33, 34, []⟩,
          ⟨⟨"string_fragment", true, none⟩, 34, 37, []⟩,
          ⟨⟨"\'", false, none⟩, 37, 38, []⟩]⟩,
        ⟨⟨")", false, none⟩, 38, 39, []⟩]⟩,
      ⟨⟨";", false, none⟩, 39, 40, []⟩]⟩]⟩
  hasErrors := false

/-- An import of an entity, with a comment put in behind its equals sign. -/
def entityDraft : Draft := .insert "import A = " "/*c*/ " "B;\n"

def entityTree : SyntaxTree where
  root := ⟨⟨"program", true, none⟩, 0, 14, [
    ⟨⟨"import_alias", true, none⟩, 0, 13, [
      ⟨⟨"import", false, none⟩, 0, 6, []⟩,
      ⟨⟨"identifier", true, none⟩, 7, 8, []⟩,
      ⟨⟨"=", false, none⟩, 9, 10, []⟩,
      ⟨⟨"identifier", true, none⟩, 11, 12, []⟩,
      ⟨⟨";", false, none⟩, 12, 13, []⟩]⟩]⟩
  hasErrors := false

def commentedEntityTree : SyntaxTree where
  root := ⟨⟨"program", true, none⟩, 0, 20, [
    ⟨⟨"import_alias", true, none⟩, 0, 19, [
      ⟨⟨"import", false, none⟩, 0, 6, []⟩,
      ⟨⟨"identifier", true, none⟩, 7, 8, []⟩,
      ⟨⟨"=", false, none⟩, 9, 10, []⟩,
      ⟨⟨"comment", true, none⟩, 11, 16, []⟩,
      ⟨⟨"identifier", true, none⟩, 17, 18, []⟩,
      ⟨⟨";", false, none⟩, 18, 19, []⟩]⟩]⟩
  hasErrors := false

/-- With a comment behind the equals sign an import refers to nothing, and with one between the halves of a
split import its path is no longer rewritten. -/
theorem exists_inserted_not_same :
    (Cst.Inserted entityDraft 0 20 entityTree.root commentedEntityTree.root ∧
      ∃ f f', ofCst? "f.d.ts" (String.ofList entityDraft.former) entityTree = some f ∧
        ofCst? "f.d.ts" (String.ofList entityDraft.revised) commentedEntityTree = some f' ∧
        ¬ Corresponding (fun x y => SameKept entityDraft x y ∧ y.label.reference = x.label.reference)
          (f.root.kept fun _ => false) (f'.root.kept entityDraft.picks)) ∧
    (Cst.Inserted requireDraft 0 41 splitRequireTree.root partedRequireTree.root ∧
      ∃ f f', ofCst? "f.d.ts" (String.ofList requireDraft.former) splitRequireTree = some f ∧
        ofCst? "f.d.ts" (String.ofList requireDraft.revised) partedRequireTree = some f' ∧
        ¬ List.Forall₂ (SameEdit requireDraft) (f.root.edits (replacement "pkg/f"))
          (f'.root.edits (replacement "pkg/f"))) := by
  have hentity : Cst.Inserted entityDraft 0 20 entityTree.root commentedEntityTree.root := by decide +kernel
  have hrequire : Cst.Inserted requireDraft 0 41 splitRequireTree.root partedRequireTree.root := by
    decide +kernel
  refine ⟨⟨hentity, _, _, if_pos (by decide +kernel), if_pos (by decide +kernel), fun h => ?_⟩,
    hrequire, _, _, if_pos (by decide +kernel), if_pos (by decide +kernel), fun h => ?_⟩
  · have hreference := h.map_get? (fun x => x.label.reference) (fun _ _ hxy => hxy.2.symm) [0]
    revert hreference
    decide +kernel
  · have hlength := h.length_eq
    revert hlength
    decide +kernel

end ParsedFile

end DeclBundle
