import DeclBundle.Proofs.Accounting
import Mathlib.Data.List.Chain
import Mathlib.Data.Multiset.Filter

/-!
# Kept tokens

The tokens of a tree are its leaves. Putting statements together loses no token with characters and adds
only references (`ofCst?_keepsTokens`), although it drops the statement of the bracketed string and what
has no characters. It also has nothing left to do in a row that it has been through (`foldAll_foldAll`):
the import that was put together ends with the reference, which is not the word `require`.
-/

namespace DeclBundle

open Region

namespace Region

variable {α : Type}

def leaves (r : Region α) : List (Region α) := r.preorder.filter fun x => x.children.isEmpty

theorem Nested.of_mem_preorder {r x : Region α} (h : r.Nested) (hx : x ∈ r.preorder) : x.Nested := by
  induction r using Region.induction with
  | node r ih =>
      rcases mem_preorder_iff.1 hx with rfl | ⟨c, hc, hx⟩
      · exact h
      · exact ih c hc (h.of_mem_children hc).2.1 hx

end Region

namespace Text

/-- Where two characters begin at the same place, they begin at the same byte. -/
theorem IsBoundary.le_of_place_le {s : List Char} {b b' : Nat} (h : IsBoundary s b)
    (h' : IsBoundary s b') (hle : place s b ≤ place s b') : b ≤ b' := by
  have hclip : ∀ k, s.take k = s.take (min k s.length) := fun k => by
    rw [← List.take_take, List.take_length]
  obtain ⟨k, rfl⟩ := h
  obtain ⟨k', rfl⟩ := h'
  rw [hclip k, hclip k', place_byteLength_take (Nat.min_le_right _ _),
    place_byteLength_take (Nat.min_le_right _ _)] at hle
  rw [hclip k, hclip k']
  exact byteLength_take_le s hle

end Text

namespace Node

variable {text : List Char} {n m : Node} {s : SplitImport} {ns : List Node}

theorem foldAll_eq_self (h : ns.IsChain fun n m => fold? text n m = none) : foldAll text ns = ns := by
  fun_induction foldAll text ns with
  | case1 => rfl
  | case2 => rfl
  | case3 n m ns folded hfolded _ =>
      rw [(List.isChain_cons_cons.1 h).1] at hfolded
      cases hfolded
  | case4 n m ns _ ih => rw [ih (List.isChain_cons_cons.1 h).2]

theorem fold?_eq_none_of_type (h : n.type = "export_statement" → m.type ≠ "expression_statement") :
    fold? text n m = none := by
  rw [Option.eq_none_iff_forall_ne_some]
  intro folded hfolded
  obtain ⟨-, hn, hm⟩ := label_of_fold? hfolded
  exact h hn hm

theorem type_of_fold? {folded : Node} (h : fold? text n m = some folded) :
    folded.type = "export_statement" := by
  obtain ⟨hlabel, hn, -⟩ := label_of_fold? h
  rwa [type, hlabel]

/-- A row that is put together begins with its first node or with an export. -/
theorem exists_foldAll_eq_cons (text : List Char) (m : Node) (ns : List Node) :
    ∃ x xs, foldAll text (m :: ns) = x :: xs ∧ (x = m ∨ x.type = "export_statement") := by
  cases ns with
  | nil => exact ⟨m, [], by simp, Or.inl rfl⟩
  | cons k ns =>
      cases hfolded : fold? text m k with
      | none => exact ⟨m, foldAll text (k :: ns), by simp [foldAll, hfolded], Or.inl rfl⟩
      | some folded =>
          exact ⟨folded, foldAll text ns, by simp [foldAll, hfolded], Or.inr (type_of_fold? hfolded)⟩

/-- An import that was put together does not end with the word `require`. -/
theorem splitRequire?_joined (hs : s.Reads text n m) (himport : s.joinedImport.isWide = true)
    (hreference : s.reference.isWide = true) : splitRequire? text (s.joined n m) = none := by
  have hn : (s.joined n m).type = "export_statement" := hs.statement_type
  have hchildren : (s.joined n m).children = s.before.filter Region.isWide ++
      s.joinedImport :: (s.after.filter Region.isWide ++ s.rest) := by
    simp [SplitImport.joined, himport]
  have hinner : s.joinedImport.children =
      (s.left ++ s.right).filter Region.isWide ++ s.reference :: [] := rfl
  have hi : (s.joined n m).childOfType? "import_alias" =
      some (s.before.filter Region.isWide).length :=
    childOfType?_eq_some_iff.2 ⟨_, _, _, hchildren, rfl, hs.imported_type, fun c hc =>
      hs.before_type c (List.mem_of_mem_filter hc)⟩
  have htype : s.reference.type = "external_module_reference" := rfl
  have hj : lastToken? s.joinedImport.children =
      some ((s.left ++ s.right).filter Region.isWide).length :=
    lastToken?_eq_some_iff.2 ⟨_, _, [], hinner, rfl,
      by simp [isToken, isComment, hreference, htype], by simp⟩
  have himported : (s.joined n m).children[(s.before.filter Region.isWide).length]? =
      some s.joinedImport := by
    rw [hchildren, List.getElem?_append_right (Nat.le_refl _), Nat.sub_self, List.getElem?_cons_zero]
  have hlast : s.joinedImport.children[((s.left ++ s.right).filter Region.isWide).length]? =
      some s.reference := by
    rw [hinner, List.getElem?_append_right (Nat.le_refl _), Nat.sub_self, List.getElem?_cons_zero]
  have hword : ¬ (s.reference.type = "identifier" ∧ s.reference.slice text = "require".toList) := by
    simp [htype]
  simp only [splitRequire?, hn, ne_eq, not_true_eq_false, if_false, hi, bind, Option.bind_some, himported,
    hj, hlast]
  exact if_neg hword

/-- In a row that was put together no neighbours are put together again. -/
theorem isChain_foldAll (hwide : ∀ n m (s : SplitImport), [n, m] <:+: ns → s.Reads text n m →
    s.joinedImport.isWide = true ∧ s.reference.isWide = true) :
    (foldAll text ns).IsChain fun n m => fold? text n m = none := by
  fun_induction foldAll text ns with
  | case1 => exact .nil
  | case2 n => exact .singleton n
  | case3 n m ns folded hfolded ih =>
      obtain ⟨s, hs, rfl⟩ := fold?_eq_some_iff.1 hfolded
      obtain ⟨himport, hreference⟩ := hwide n m s (List.prefix_append [n, m] ns).isInfix hs
      have htail : ns <:+: n :: m :: ns := (List.suffix_append [n, m] ns).isInfix
      refine List.isChain_cons.2 ⟨fun x _ => ?_, ih fun a b s' hab => hwide a b s' (hab.trans htail)⟩
      simp only [fold?, splitRequire?_joined hs himport hreference, bind, Option.bind_none]
  | case4 n m ns hnone ih =>
      have htail : m :: ns <:+: n :: m :: ns := (List.suffix_cons n (m :: ns)).isInfix
      refine List.isChain_cons.2 ⟨fun x hx => ?_, ih fun a b s' hab => hwide a b s' (hab.trans htail)⟩
      obtain ⟨y, ys, hcons, hy⟩ := exists_foldAll_eq_cons text m ns
      obtain rfl : y = x := by simpa [hcons] using hx
      rcases hy with rfl | hexport
      · exact hnone
      · exact fold?_eq_none_of_type (by simp [hexport])

/-- Putting the children of a node together a second time changes nothing. -/
theorem foldAll_foldAll {t : Cst} (ht : t.Nested) :
    foldAll text (foldAll text (t.children.map (ofCst text))) =
      foldAll text (t.children.map (ofCst text)) := by
  refine foldAll_eq_self (isChain_foldAll fun n m s hnm hs => ?_)
  exact (isWide_of_pair ht hnm hs).2

/-- A token is a leaf of the tree: it has its name, begins where it does, and ends there but for the blank
behind a keyword. -/
structure SameToken (text : List Char) (c : Cst) (n : Node) : Prop where
  type : n.type = c.type
  start : n.start = Text.place text c.start
  stop : Ends text n (Text.place text c.stop)

theorem Accounted.exists_stands {N : Multiset Node} {C : Multiset Cst} (h : Accounted text N C) :
    ∃ (kept lost : Multiset Cst) (stands added : Multiset Node), C = kept + lost ∧ N = stands + added ∧
      Multiset.Rel (Stands text) kept stands ∧ (∀ c ∈ lost, Missing text c) ∧
      ∀ n ∈ added, n.kind = .externalModuleReference := by
  induction h with
  | zero => exact ⟨0, 0, 0, 0, rfl, rfl, .zero, by simp, by simp⟩
  | @stands n c _ _ hstands _ ih =>
      obtain ⟨kept, lost, stands, added, rfl, rfl, hrel, hlost, hadded⟩ := ih
      exact ⟨c ::ₘ kept, lost, n ::ₘ stands, added, by rw [Multiset.cons_add],
        by rw [Multiset.cons_add], .cons hstands hrel, hlost, hadded⟩
  | @reference n _ _ hkind _ _ ih =>
      obtain ⟨kept, lost, stands, added, rfl, rfl, hrel, hlost, hadded⟩ := ih
      exact ⟨kept, lost, stands, n ::ₘ added, rfl, by rw [Multiset.add_cons], hrel, hlost,
        Multiset.forall_mem_cons.2 ⟨hkind, hadded⟩⟩
  | @missing c _ _ hmissing _ ih =>
      obtain ⟨kept, lost, stands, added, rfl, rfl, hrel, hlost, hadded⟩ := ih
      exact ⟨kept, c ::ₘ lost, stands, added, by rw [Multiset.add_cons], rfl, hrel,
        Multiset.forall_mem_cons.2 ⟨hmissing, hlost⟩, hadded⟩

/-- The tokens among nodes are those among trees, but for some without characters. -/
theorem Accounted.exists_tokens {N : Multiset Node} {C : Multiset Cst} (h : Accounted text N C) :
    ∃ kept lost : Multiset Cst, C.filter (fun c => c.children.isEmpty = true) = kept + lost ∧
      Multiset.Rel (SameToken text) kept (N.filter fun n => n.children.isEmpty = true) ∧
      ∀ c ∈ lost, Text.place text c.stop ≤ Text.place text c.start := by
  induction h with
  | zero => exact ⟨0, 0, rfl, .zero, by simp⟩
  | @stands n c _ _ hstands _ ih =>
      obtain ⟨kept, lost, hC, hrel, hlost⟩ := ih
      have htoken := hstands.token
      by_cases hc : c.children = []
      · have hsame : SameToken text c n :=
          ⟨by rw [type, hstands.label]; exact type_ofCst text c, hstands.start, hstands.stop hc⟩
        refine ⟨c ::ₘ kept, lost, ?_, ?_, hlost⟩
        · rw [Multiset.filter_cons_of_pos _ (by simp [hc]), hC, Multiset.cons_add]
        · rw [Multiset.filter_cons_of_pos _ (by simp [htoken, hc])]
          exact .cons hsame hrel
      · refine ⟨kept, lost, ?_, ?_, hlost⟩
        · rw [Multiset.filter_cons_of_neg _ (by simp [hc]), hC]
        · rw [Multiset.filter_cons_of_neg _ (by simp [htoken, hc])]
          exact hrel
  | reference _ hne _ ih =>
      obtain ⟨kept, lost, hC, hrel, hlost⟩ := ih
      refine ⟨kept, lost, hC, ?_, hlost⟩
      rwa [Multiset.filter_cons_of_neg _ (by simp [hne])]
  | @missing c _ _ hmissing _ ih =>
      obtain ⟨kept, lost, hC, hrel, hlost⟩ := ih
      by_cases hc : c.children = []
      · refine ⟨kept, c ::ₘ lost, ?_, hrel, Multiset.forall_mem_cons.2 ⟨?_, hlost⟩⟩
        · rw [Multiset.filter_cons_of_pos _ (by simp [hc]), hC, Multiset.add_cons]
        · exact hmissing.resolve_right fun hne => hne.1 hc
      · refine ⟨kept, lost, ?_, hrel, hlost⟩
        rw [Multiset.filter_cons_of_neg _ (by simp [hc]), hC]

theorem accounted_preorder {t : Cst} (ht : t.Nested) :
    Accounted text ↑(ofCst text t).preorder ↑t.preorder := by
  have h : Accounted text (below [ofCst text t]) (treesBelow [t]) := (partedBelow_and_accounted t ht).2
  simpa only [below, treesBelow, preorders, List.append_nil] using h

end Node

namespace ParsedFile

open Node

variable {path text : String} {tree : SyntaxTree}

/-- A file that is made of a nested tree has all tokens of the tree that have characters, each as often as
the tree, and no others. Its other nodes stand for trees or are references that were added, and what has no
node has no characters or is a bracketed string with its statement. Putting the children of a node together
once more changes nothing. -/
theorem ofCst?_keepsTokens
    (hbounds : ∀ x ∈ tree.root.preorder,
      Text.IsBoundary text.toList x.start ∧ Text.IsBoundary text.toList x.stop)
    (hnested : tree.root.Nested) :
    ∃ f, ofCst? path text tree = some f ∧
      (∃ kept lost : Multiset Cst, (tree.root.leaves : Multiset Cst) = kept + lost ∧
        Multiset.Rel (SameToken text.toList) kept f.root.leaves ∧ ∀ c ∈ lost, c.start = c.stop) ∧
      (∃ (kept lost : Multiset Cst) (stands added : Multiset Node),
        (tree.root.preorder : Multiset Cst) = kept + lost ∧
        (f.root.preorder : Multiset Node) = stands + added ∧
        Multiset.Rel (Stands text.toList) kept stands ∧
        (∀ c ∈ lost, c.start = c.stop ∨ c.children ≠ [] ∧
          (c.type = "expression_statement" ∨ c.type = "parenthesized_expression")) ∧
        ∀ n ∈ added, n.kind = .externalModuleReference) ∧
      ∀ x ∈ tree.root.preorder,
        foldAll text.toList (foldAll text.toList (x.children.map (ofCst text.toList))) =
          foldAll text.toList (x.children.map (ofCst text.toList)) := by
  have haccounted : Accounted text.toList ↑(ofCst text.toList tree.root).preorder ↑tree.root.preorder :=
    accounted_preorder hnested
  have hnarrow : ∀ c ∈ tree.root.preorder,
      Text.place text.toList c.stop ≤ Text.place text.toList c.start → c.start = c.stop := by
    intro c hc hle
    have hstart := ((nested_iff c).1 (hnested.of_mem_preorder hc)).1
    exact Nat.le_antisymm hstart ((hbounds c hc).2.le_of_place_le (hbounds c hc).1 hle)
  refine ⟨_, if_pos (tree.root.fits_of_isBoundary hbounds), ?_, ?_, fun x hx =>
    foldAll_foldAll (hnested.of_mem_preorder hx)⟩
  · obtain ⟨kept, lost, hC, hrel, hlost⟩ := haccounted.exists_tokens
    simp only [Multiset.filter_coe, Bool.decide_eq_true] at hC hrel
    refine ⟨kept, lost, hC, hrel, fun c hc => hnarrow c ?_ (hlost c hc)⟩
    have hmem : c ∈ (tree.root.leaves : Multiset Cst) := hC ▸ Multiset.mem_add.2 (Or.inr hc)
    exact List.mem_of_mem_filter (Multiset.mem_coe.1 hmem)
  · obtain ⟨kept, lost, stands, added, hC, hN, hrel, hlost, hadded⟩ := haccounted.exists_stands
    refine ⟨kept, lost, stands, added, hC, hN, hrel, fun c hc => ?_, hadded⟩
    have hmem : c ∈ (tree.root.preorder : Multiset Cst) := hC ▸ Multiset.mem_add.2 (Or.inr hc)
    exact (hlost c hc).imp_left (hnarrow c (Multiset.mem_coe.1 hmem))

/-- The statements of a split import are put together, and of what they consist of only brackets without
their statement and a missing semicolon have no node. -/
theorem ofCst?_keepsTokens_commentedRequire :
    (∀ x ∈ commentedRequireTree.root.preorder,
      Text.IsBoundary commentedRequire.toList x.start ∧
        Text.IsBoundary commentedRequire.toList x.stop) ∧
      commentedRequireTree.root.Nested ∧
      ∃ f, ofCst? "f.d.ts" commentedRequire commentedRequireTree = some f ∧
        (∃ kept lost : Multiset Cst,
          (commentedRequireTree.root.leaves : Multiset Cst) = kept + lost ∧
          Multiset.Rel (SameToken commentedRequire.toList) kept f.root.leaves ∧
          ∀ c ∈ lost, c.start = c.stop) ∧
        (∃ (kept lost : Multiset Cst) (stands added : Multiset Node),
          (commentedRequireTree.root.preorder : Multiset Cst) = kept + lost ∧
          (f.root.preorder : Multiset Node) = stands + added ∧
          Multiset.Rel (Stands commentedRequire.toList) kept stands ∧
          (∀ c ∈ lost, c.start = c.stop ∨ c.children ≠ [] ∧
            (c.type = "expression_statement" ∨ c.type = "parenthesized_expression")) ∧
          ∀ n ∈ added, n.kind = .externalModuleReference) ∧
        ∀ x ∈ commentedRequireTree.root.preorder,
          foldAll commentedRequire.toList
              (foldAll commentedRequire.toList (x.children.map (ofCst commentedRequire.toList))) =
            foldAll commentedRequire.toList (x.children.map (ofCst commentedRequire.toList)) :=
  ⟨isBoundary_commentedRequireTree, nested_commentedRequireTree,
    ofCst?_keepsTokens isBoundary_commentedRequireTree nested_commentedRequireTree⟩

end ParsedFile

end DeclBundle
