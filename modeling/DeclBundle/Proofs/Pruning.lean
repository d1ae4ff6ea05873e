import DeclBundle.Proofs.Classification
import DeclBundle.Proofs.KeptTokens

/-!
# Trees without comments

`Region.prune p` takes the regions that a test picks out of a tree. Making nodes of a tree of the grammar
and taking comments out of it can be done in either order (`prune_ofCst`), unless a comment hinders that
statements are put together: it stands between the halves of a split import, or in front of the bracketed
string (`Unhindered`). Elsewhere comments are looked past: behind the word `require` (`Reads.prune`), in the
brackets, and in the kinds of nodes.
-/

namespace DeclBundle

namespace Region

variable {α : Type} {p : Region α → Bool}

mutual

def prune (p : Region α → Bool) : Region α → Region α
  | ⟨label, s, e, cs⟩ => ⟨label, s, e, prunes p cs⟩

def prunes (p : Region α → Bool) : List (Region α) → List (Region α)
  | [] => []
  | c :: cs => if p c then prunes p cs else prune p c :: prunes p cs

end

@[simp] theorem label_prune (p : Region α → Bool) (r : Region α) : (prune p r).label = r.label := by
  obtain ⟨_, _, _, _⟩ := r
  rw [prune]

@[simp] theorem start_prune (p : Region α → Bool) (r : Region α) : (prune p r).start = r.start := by
  obtain ⟨_, _, _, _⟩ := r
  rw [prune]

@[simp] theorem stop_prune (p : Region α → Bool) (r : Region α) : (prune p r).stop = r.stop := by
  obtain ⟨_, _, _, _⟩ := r
  rw [prune]

@[simp] theorem children_prune (p : Region α → Bool) (r : Region α) :
    (prune p r).children = prunes p r.children := by
  obtain ⟨_, _, _, _⟩ := r
  rw [prune]

@[simp] theorem isWide_prune (p : Region α → Bool) (r : Region α) : (prune p r).isWide = r.isWide := by
  simp [isWide]

theorem prune_eq (p : Region α → Bool) (r : Region α) :
    prune p r = ⟨r.label, r.start, r.stop, prunes p r.children⟩ := by
  obtain ⟨_, _, _, _⟩ := r
  rw [prune]

@[simp] theorem prunes_nil (p : Region α → Bool) : prunes p [] = [] := by
  rw [prunes]

theorem prunes_cons_of_pos {c : Region α} (h : p c = true) (cs : List (Region α)) :
    prunes p (c :: cs) = prunes p cs := by
  rw [prunes, if_pos h]

theorem prunes_cons_of_neg {c : Region α} (h : p c = false) (cs : List (Region α)) :
    prunes p (c :: cs) = prune p c :: prunes p cs := by
  rw [prunes, h]
  rfl

theorem prunes_eq (p : Region α → Bool) (cs : List (Region α)) :
    prunes p cs = (cs.filter fun c => !p c).map (prune p) := by
  induction cs with
  | nil => simp
  | cons c cs ih =>
      cases h : p c with
      | true => rw [prunes_cons_of_pos h, ih, List.filter_cons_of_neg (by simp [h])]
      | false =>
          rw [prunes_cons_of_neg h, ih, List.filter_cons_of_pos (by simp [h]), List.map_cons]

theorem prunes_append (p : Region α → Bool) (cs ds : List (Region α)) :
    prunes p (cs ++ ds) = prunes p cs ++ prunes p ds := by
  simp [prunes_eq]

theorem mem_prunes {x : Region α} {cs : List (Region α)} :
    x ∈ prunes p cs ↔ ∃ c ∈ cs, p c = false ∧ prune p c = x := by
  simp [prunes_eq, and_assoc]

theorem exists_of_prunes_eq {x : Region α} {cs : List (Region α)} (xs : List (Region α))
    {ys : List (Region α)} (h : prunes p cs = xs ++ x :: ys) :
    ∃ as b bs, cs = as ++ b :: bs ∧ prunes p as = xs ∧ p b = false ∧ prune p b = x ∧
      prunes p bs = ys := by
  induction cs generalizing xs with
  | nil => simp at h
  | cons c cs ih =>
      cases hc : p c with
      | true =>
          rw [prunes_cons_of_pos hc] at h
          obtain ⟨as, b, bs, rfl, has, hb⟩ := ih xs h
          exact ⟨c :: as, b, bs, rfl, by rw [prunes_cons_of_pos hc, has], hb⟩
      | false =>
          rw [prunes_cons_of_neg hc] at h
          cases xs with
          | nil =>
              obtain ⟨hx, hys⟩ := List.cons_eq_cons.1 h
              exact ⟨[], c, cs, rfl, prunes_nil p, hc, hx, hys⟩
          | cons z zs =>
              obtain ⟨hz, hrest⟩ := List.cons_eq_cons.1 h
              obtain ⟨as, b, bs, rfl, has, hb⟩ := ih zs hrest
              exact ⟨c :: as, b, bs, rfl, by rw [prunes_cons_of_neg hc, has, hz], hb⟩

theorem any_prunes {q : Region α → Bool} {cs : List (Region α)} (hq : ∀ c, q (prune p c) = q c)
    (hp : ∀ c ∈ cs, p c = true → q c = false) : (prunes p cs).any q = cs.any q := by
  induction cs with
  | nil => rfl
  | cons c cs ih =>
      rw [List.forall_mem_cons] at hp
      cases hc : p c with
      | true => rw [prunes_cons_of_pos hc, ih hp.2, List.any_cons, hp.1 hc, Bool.false_or]
      | false => rw [prunes_cons_of_neg hc, List.any_cons, List.any_cons, ih hp.2, hq]

theorem filter_prunes {q : Region α → Bool} (hq : ∀ c, q (prune p c) = q c) (cs : List (Region α)) :
    (prunes p cs).filter q = prunes p (cs.filter q) := by
  rw [prunes_eq, prunes_eq, List.filter_map, List.filter_comm,
    List.filter_congr fun c _ => show (q ∘ prune p) c = q c from hq c]

mutual

theorem Nested.prune (p : Region α → Bool) : ∀ {r : Region α}, Nested r → Nested (prune p r)
  | ⟨label, s, e, cs⟩, h => by
    obtain ⟨hle, hcs⟩ := (nested_iff _).1 h
    rw [prune_eq]
    exact (nested_iff _).2 ⟨hle, hcs.prunes p⟩

theorem NestedFrom.prunes (p : Region α → Bool) : ∀ {low high : Nat} {cs : List (Region α)},
    NestedFrom low high cs → NestedFrom low high (prunes p cs)
  | low, high, [], h => by rwa [prunes_nil]
  | low, high, c :: cs, h => by
    obtain ⟨hlow, hc, hcs⟩ := (nestedFrom_cons low high c cs).1 h
    cases hpc : p c with
    | true =>
        have hle := ((nested_iff c).1 hc).1
        rw [prunes_cons_of_pos hpc]
        exact (hcs.prunes p).mono_left (hlow.trans hle)
    | false =>
        rw [prunes_cons_of_neg hpc, nestedFrom_cons, start_prune, stop_prune]
        exact ⟨hlow, hc.prune p, hcs.prunes p⟩

end

end Region

open Region

namespace Node

variable {text : List Char} {p : Node → Bool} {n m : Node} {ns : List Node} {s : SplitImport}

def PicksComments (p : Node → Bool) : Prop :=
  ∀ n, p n = true → n.type = "comment" ∧ n.kind = .other ∧ n.children = []

@[simp] theorem type_prune (p : Node → Bool) (n : Node) : type (prune p n) = n.type := by
  simp [type]

@[simp] theorem kind_prune (p : Node → Bool) (n : Node) : kind (prune p n) = n.kind := by
  simp [kind]

@[simp] theorem isComment_prune (p : Node → Bool) (n : Node) : isComment (prune p n) = n.isComment := by
  simp [isComment]

@[simp] theorem isToken_prune (p : Node → Bool) (n : Node) : isToken (prune p n) = n.isToken := by
  simp [isToken]

@[simp] theorem slice_prune (p : Node → Bool) (n : Node) : slice text (prune p n) = n.slice text := by
  simp [slice]

namespace PicksComments

variable (hp : PicksComments p)
include hp

theorem eq_false (h : n.type ≠ "comment") : p n = false :=
  Bool.eq_false_iff.2 fun hn => h (hp n hn).1

theorem isComment (h : p n = true) : n.isComment = true :=
  beq_iff_eq.2 (hp n h).1

theorem isToken (h : p n = true) : n.isToken = false := by
  rw [Node.isToken, hp.isComment h]
  simp

theorem prunes_cons (h : n.type ≠ "comment") (ns : List Node) :
    prunes p (n :: ns) = prune p n :: prunes p ns :=
  prunes_cons_of_neg (hp.eq_false h) ns

theorem types_prunes (ns : List Node) :
    ((prunes p ns).filter fun c => !Node.isComment c).map Node.type =
      (ns.filter fun c => !Node.isComment c).map Node.type := by
  induction ns with
  | nil => simp
  | cons n ns ih =>
      cases hn : p n with
      | true => rw [prunes_cons_of_pos hn, ih, List.filter_cons_of_neg (by simp [hp.isComment hn])]
      | false =>
          rw [prunes_cons_of_neg hn, List.filter_cons, List.filter_cons, isComment_prune]
          split
          · rw [List.map_cons, List.map_cons, ih, type_prune]
          · exact ih

end PicksComments

end Node

namespace SplitImport

open Node

variable {text : List Char} {p : Node → Bool} {n m : Node} {s : SplitImport}

def prune (p : Node → Bool) (s : SplitImport) : SplitImport where
  before := prunes p s.before
  imported := Region.prune p s.imported
  after := prunes p s.after
  left := prunes p s.left
  word := Region.prune p s.word
  right := prunes p s.right
  call := Region.prune p s.call
  rest := prunes p s.rest

theorem Reads.prune (hp : PicksComments p) (hs : s.Reads text n m) :
    (s.prune p).Reads text (Region.prune p n) (Region.prune p m) where
  statement_type := by rw [type_prune, hs.statement_type]
  statement_children := by
    rw [children_prune, hs.statement_children, prunes_append,
      hp.prunes_cons (by simp [hs.imported_type])]
    rfl
  before_type := by
    intro c hc
    obtain ⟨b, hb, -, rfl⟩ := mem_prunes.1 hc
    rw [type_prune]
    exact hs.before_type b hb
  imported_type := by
    rw [SplitImport.prune, type_prune, hs.imported_type]
  imported_children := by
    rw [SplitImport.prune, children_prune, hs.imported_children, prunes_append,
      hp.prunes_cons (by simp [hs.word_type])]
  right_isToken := by
    intro c hc
    obtain ⟨b, hb, -, rfl⟩ := mem_prunes.1 hc
    rw [isToken_prune]
    exact hs.right_isToken b hb
  word_isToken := by rw [SplitImport.prune, isToken_prune, hs.word_isToken]
  word_type := by rw [SplitImport.prune, type_prune, hs.word_type]
  word_slice := by rw [SplitImport.prune, slice_prune, hs.word_slice]
  following_type := by rw [type_prune, hs.following_type]
  following_children := by
    rw [children_prune, hs.following_children, hp.prunes_cons (by simp [hs.call_type])]
    rfl
  call_type := by rw [SplitImport.prune, type_prune, hs.call_type]
  call_tokens := by
    rw [SplitImport.prune, children_prune, hp.types_prunes, hs.call_tokens]

/-- What is a split import without comments is one with them, if none stands in front of the bracketed
string. -/
theorem Reads.exists_of_prune (hp : PicksComments p)
    (hs : s.Reads text (Region.prune p n) (Region.prune p m))
    (hfront : ∀ x ∈ m.children.head?, p x = false) : ∃ s' : SplitImport, s'.Reads text n m := by
  have hstatement := hs.statement_children
  rw [children_prune] at hstatement
  obtain ⟨before, imported, after, hn, hbefore, -, himported, -⟩ := exists_of_prunes_eq _ hstatement
  have hinner := hs.imported_children
  rw [← himported, children_prune] at hinner
  obtain ⟨left, word, right, hi, -, -, hword, hright⟩ := exists_of_prunes_eq _ hinner
  have hfollowing := hs.following_children
  rw [children_prune] at hfollowing
  obtain ⟨call, rest, hm⟩ : ∃ call rest, m.children = call :: rest := by
    cases hm : m.children with
    | nil => simp [hm] at hfollowing
    | cons call rest => exact ⟨call, rest, rfl⟩
  have hcall : Region.prune p call = s.call := by
    rw [hm, prunes_cons_of_neg (hfront call (by simp [hm]))] at hfollowing
    exact (List.cons_eq_cons.1 hfollowing).1
  refine ⟨⟨before, imported, after, left, word, right, call, rest⟩, ?_, hn, ?_, ?_, hi, ?_, ?_, ?_, ?_, ?_,
    hm, ?_, ?_⟩
  · simpa using hs.statement_type
  · intro c hc
    cases hpc : p c with
    | true => simp [(hp c hpc).1]
    | false =>
        have hmem : Region.prune p c ∈ s.before := hbefore ▸ mem_prunes.2 ⟨c, hc, hpc, rfl⟩
        simpa using hs.before_type _ hmem
  · rw [← type_prune p, himported, hs.imported_type]
  · intro c hc
    cases hpc : p c with
    | true => exact hp.isToken hpc
    | false =>
        have hmem : Region.prune p c ∈ s.right := hright ▸ mem_prunes.2 ⟨c, hc, hpc, rfl⟩
        simpa using hs.right_isToken _ hmem
  · rw [← isToken_prune p, hword, hs.word_isToken]
  · rw [← type_prune p, hword, hs.word_type]
  · rw [← slice_prune p, hword, hs.word_slice]
  · simpa using hs.following_type
  · rw [← type_prune p, hcall, hs.call_type]
  · rw [← hp.types_prunes, ← children_prune, hcall, hs.call_tokens]

theorem prune_joinedImport (hp : PicksComments p) (hs : s.Reads text n m) :
    Region.prune p s.joinedImport = (s.prune p).joinedImport := by
  have hreference : Region.prune p s.reference = (s.prune p).reference := by
    rw [prune_eq]
    simp only [reference, SplitImport.prune, start_prune, stop_prune, children_prune,
      hp.prunes_cons (show s.word.type ≠ "comment" by simp [hs.word_type])]
  have hne : s.reference.type ≠ "comment" := by
    have htype : s.reference.type = "external_module_reference" := rfl
    simp [htype]
  rw [prune_eq]
  simp only [joinedImport, prunes_append, hp.prunes_cons hne, hreference, prunes_nil,
    ← filter_prunes (isWide_prune p), SplitImport.prune, label_prune, start_prune, stop_prune]

theorem prune_joined (hp : PicksComments p) (hs : s.Reads text n m) :
    Region.prune p (s.joined n m) = (s.prune p).joined (Region.prune p n) (Region.prune p m) := by
  have hne : s.joinedImport.type ≠ "comment" := by
    have htype : s.joinedImport.type = "import_alias" := hs.imported_type
    simp [htype]
  rw [prune_eq]
  simp only [joined, prunes_append, ← filter_prunes (isWide_prune p), hp.prunes_cons hne,
    prune_joinedImport hp hs, label_prune, start_prune, stop_prune]
  rfl

end SplitImport

namespace Node

variable {text : List Char} {p : Node → Bool} {n m : Node} {ns : List Node}

theorem fold?_prune_of_some (hp : PicksComments p) {folded : Node} (h : fold? text n m = some folded) :
    fold? text (prune p n) (prune p m) = some (prune p folded) := by
  obtain ⟨s, hs, rfl⟩ := fold?_eq_some_iff.1 h
  exact fold?_eq_some_iff.2 ⟨s.prune p, hs.prune hp, SplitImport.prune_joined hp hs⟩

theorem fold?_prune_of_none (hp : PicksComments p) (hfront : ∀ x ∈ m.children.head?, p x = false)
    (h : fold? text n m = none) : fold? text (prune p n) (prune p m) = none := by
  rw [Option.eq_none_iff_forall_ne_some] at h ⊢
  intro folded hfolded
  obtain ⟨s, hs, -⟩ := fold?_eq_some_iff.1 hfolded
  obtain ⟨s', hs'⟩ := hs.exists_of_prune hp hfront
  exact h _ (fold?_eq_some_iff.2 ⟨s', hs', rfl⟩)

/-- No picked node stands between two statements that are put together without picked nodes, nor in front
of the second. -/
def Unhindered (text : List Char) (p : Node → Bool) (ns : List Node) : Prop :=
  ∀ n between m, n :: (between ++ [m]) <:+: ns → (∀ x ∈ between, p x = true) →
    (fold? text (prune p n) (prune p m)).isSome = true →
      between = [] ∧ ∀ x ∈ m.children.head?, p x = false

theorem Unhindered.of_suffix {ms : List Node} (h : Unhindered text p ns) (hms : ms <:+ ns) :
    Unhindered text p ms :=
  fun n between m hin => h n between m (hin.trans hms.isInfix)

theorem exists_of_prunes_cons {x : Node} {xs : List Node} (h : prunes p ns = x :: xs) :
    ∃ between m ms, ns = between ++ m :: ms ∧ (∀ y ∈ between, p y = true) ∧ prune p m = x := by
  obtain ⟨between, m, ms, hns, hbetween, -, hm, -⟩ := exists_of_prunes_eq [] h
  refine ⟨between, m, ms, hns, fun y hy => ?_, hm⟩
  rw [prunes_eq, List.map_eq_nil_iff, List.filter_eq_nil_iff] at hbetween
  simpa using hbetween y hy

/-- A row is put together and pruned in either order, unless a picked node hinders it. -/
theorem prunes_foldAll (hp : PicksComments p) (h : Unhindered text p ns) :
    prunes p (foldAll text ns) = foldAll text (prunes p ns) := by
  fun_induction foldAll text ns with
  | case1 => simp
  | case2 n =>
      cases hn : p n with
      | true => simp [prunes_cons_of_pos hn]
      | false => simp [prunes_cons_of_neg hn]
  | case3 n m ns folded hfolded ih =>
      obtain ⟨-, hn, hm⟩ := label_of_fold? hfolded
      have hfoldedType : folded.type ≠ "comment" := by simp [type_of_fold? hfolded]
      rw [hp.prunes_cons hfoldedType, hp.prunes_cons (by simp [hn]), hp.prunes_cons (by simp [hm]),
        foldAll, fold?_prune_of_some hp hfolded, ih (h.of_suffix (List.suffix_append [n, m] ns))]
  | case4 n m ns hnone ih =>
      have htail := ih (h.of_suffix (List.suffix_cons n (m :: ns)))
      cases hn : p n with
      | true => rw [prunes_cons_of_pos hn, prunes_cons_of_pos hn, htail]
      | false =>
          rw [prunes_cons_of_neg hn, prunes_cons_of_neg hn, htail]
          cases hrest : prunes p (m :: ns) with
          | nil => simp
          | cons x xs =>
              obtain ⟨between, m', ms, hms, hbetween, rfl⟩ := exists_of_prunes_cons hrest
              have hpair : n :: (between ++ [m']) <:+: n :: m :: ns := by
                rw [hms]
                exact ⟨[], ms, by simp⟩
              have hfold : fold? text (prune p n) (prune p m') = none := by
                by_contra hsome
                obtain ⟨hnil, hfront⟩ :=
                  h n between m' hpair hbetween (Option.isSome_iff_ne_none.2 hsome)
                subst hnil
                obtain rfl : m = m' := (List.cons_eq_cons.1 hms).1
                exact hsome (fold?_prune_of_none hp hfront hnone)
              rw [foldAll, hfold]

end Node

namespace Cst

open Node

variable {text : List Char} {p : Node → Bool} {c t : Cst} {cs : List Cst}

def picked (text : List Char) (p : Node → Bool) (t : Cst) : Bool := p (ofCst text t)

def Splits (text : List Char) (c d : Cst) : Prop := (fold? text (ofCst text c) (ofCst text d)).isSome = true

/-- No picked tree stands between the halves of what is a split import without picked trees, nor in front
of the second half. -/
def Unhindered (text : List Char) (p : Node → Bool) (t : Cst) : Prop :=
  ∀ x ∈ t.preorder, type x ≠ "import_require_clause" → ∀ c between d, c :: (between ++ [d]) <:+: x.children →
    (∀ y ∈ between, picked text p y = true) →
      Splits text (prune (picked text p) c) (prune (picked text p) d) →
        between = [] ∧ ∀ y ∈ d.children.head?, picked text p y = false

/-- Picked trees hinder nothing if none of them stands before a statement of an expression or comes first in
one. -/
theorem unhindered_of_apart
    (hapart : ∀ x ∈ t.preorder, x.children.IsChain fun c d =>
      picked text p c = true → type d ≠ "expression_statement")
    (hfront : ∀ x ∈ t.preorder, type x = "expression_statement" → ∀ y ∈ x.children.head?,
      picked text p y = false) : Unhindered text p t := by
  intro x hx _ c between d hrow hbetween hsplits
  obtain ⟨folded, hfolded⟩ := Option.isSome_iff_exists.1 hsplits
  have hdtype : type d = "expression_statement" := by
    simpa [type] using (label_of_fold? hfolded).2.2
  have hd : d ∈ x.preorder := mem_preorder_of_mem (hrow.subset (by simp)) (mem_preorder_self d)
  refine ⟨?_, hfront d (mem_preorder_trans hd hx) hdtype⟩
  cases between using List.reverseRecOn with
  | nil => rfl
  | append_singleton between y =>
      obtain ⟨before, after, hcs⟩ := hrow
      have hpair : x.children = (before ++ c :: between) ++ y :: d :: after := by simp [← hcs]
      have hnext := List.isChain_iff_forall_rel_of_append_cons_cons.1 (hapart x hx) hpair
      exact absurd hdtype (hnext (hbetween y (by simp)))

/-- What is picked in a tree are comments in no role, none of which comes last. -/
structure PicksComments (text : List Char) (p : Node → Bool) (t : Cst) : Prop where
  comment : ∀ x ∈ t.preorder, picked text p x = true → IsComment x
  last : ∀ x ∈ t.preorder, ∀ c ∈ x.children.getLast?, picked text p c = false

theorem PicksComments.of_mem (h : PicksComments text p t) (hc : c ∈ t.children) :
    PicksComments text p c where
  comment x hx := h.comment x (mem_preorder_of_mem hc hx)
  last x hx := h.last x (mem_preorder_of_mem hc hx)

theorem Unhindered.of_mem (h : Unhindered text p t) (hc : c ∈ t.children) : Unhindered text p c :=
  fun x hx => h x (mem_preorder_of_mem hc hx)

theorem kindOf_prunes {q : Cst → Bool} (h : ∀ c ∈ cs, q c = true → IsComment c) (label : GrammarLabel) :
    kindOf label (prunes q cs) = kindOf label cs := by
  have hclause : ((prunes q cs).any fun c => type c == "import_require_clause") =
      cs.any fun c => type c == "import_require_clause" :=
    any_prunes (fun c => by simp [type]) fun c hc hq => by simp [(h c hc hq).1]
  have hfield : ∀ field, (prunes q cs).any (hasField field) = cs.any (hasField field) := fun field =>
    any_prunes (fun c => by simp [hasField]) fun c hc hq => (h c hc hq).hasField field
  have htoken : ∀ token, token ≠ "comment" →
      (prunes q cs).any (isToken token) = cs.any (isToken token) := fun token hne =>
    any_prunes (fun c => by simp [isToken]) fun c hc hq => (h c hc hq).isToken hne
  simp only [kindOf, exportKind, hclause, hfield, htoken "=" (by decide), htoken "as" (by decide),
    htoken "namespace" (by decide)]

theorem getLast_prunes {q : Cst → Bool} (h : ∀ c ∈ cs.getLast?, q c = false) :
    (prunes q cs).getLast? = cs.getLast?.map (prune q) := by
  cases cs using List.reverseRecOn with
  | nil => simp
  | append_singleton cs c =>
      have hc : q c = false := h c (by simp)
      rw [prunes_append, prunes_cons_of_neg hc, prunes_nil, List.getLast?_concat, List.getLast?_concat,
        Option.map_some]

end Cst

namespace Node

open Cst

variable {text : List Char} {p : Node → Bool} {t : Cst} {cs : List Cst}

theorem prunes_map (h : ∀ c ∈ cs, prune p (ofCst text c) = ofCst text (prune (picked text p) c)) :
    prunes p (cs.map (ofCst text)) = (prunes (picked text p) cs).map (ofCst text) := by
  induction cs with
  | nil => simp
  | cons c cs ih =>
      rw [List.forall_mem_cons] at h
      cases hc : picked text p c with
      | true =>
          have hnode : p (ofCst text c) = true := hc
          rw [List.map_cons, prunes_cons_of_pos hc, prunes_cons_of_pos hnode, ih h.2]
      | false =>
          have hnode : p (ofCst text c) = false := hc
          rw [List.map_cons, prunes_cons_of_neg hc, prunes_cons_of_neg hnode, List.map_cons, ih h.2, h.1]

/-- What stands first in a node that is made of a tree and is picked stands first in the tree. -/
theorem picked_head?_ofCst (hp : PicksComments p) (htype : t.type ≠ "import_require_clause")
    (h : ∀ y ∈ t.children.head?, picked text p y = false) :
    ∀ x ∈ (ofCst text t).children.head?, p x = false := by
  intro x hx
  rw [children_ofCst, arrange_of_ne htype] at hx
  cases hcs : t.children with
  | nil => simp [hcs] at hx
  | cons c cs =>
      obtain ⟨y, ys, hfolded, hy⟩ := exists_foldAll_eq_cons text (ofCst text c) (cs.map (ofCst text))
      rw [hcs, List.map_cons, hfolded] at hx
      obtain rfl : y = x := by simpa using hx
      rcases hy with rfl | hexport
      · exact h c (by simp [hcs])
      · exact hp.eq_false (by simp [hexport])

/-- Where no comment hinders trees it hinders none of the nodes that are made of them. -/
theorem unhindered_map (hp : PicksComments p) (htype : Cst.type t ≠ "import_require_clause")
    (h : Cst.Unhindered text p t)
    (ih : ∀ c ∈ t.children, prune p (ofCst text c) = ofCst text (prune (picked text p) c)) :
    Unhindered text p (t.children.map (ofCst text)) := by
  rintro n between m ⟨before, after, hns⟩ hbetween hfold
  obtain ⟨cs, ds, hcs, hmap, -⟩ := List.map_eq_append_iff.1 hns.symm
  obtain ⟨as, es, rfl, -, hrow⟩ := List.map_eq_append_iff.1 hmap
  obtain ⟨c, rest, rfl, rfl, hrest⟩ := List.map_eq_cons_iff.1 hrow
  obtain ⟨bs, fs, rfl, rfl, hlast⟩ := List.map_eq_append_iff.1 hrest
  obtain ⟨d, gs, rfl, rfl, hgs⟩ := List.map_eq_cons_iff.1 hlast
  obtain rfl : gs = [] := List.map_eq_nil_iff.1 hgs
  have hinfix : c :: (bs ++ [d]) <:+: t.children := ⟨as, ds, hcs.symm⟩
  have hc : c ∈ t.children := hinfix.subset (by simp)
  have hd : d ∈ t.children := hinfix.subset (by simp)
  obtain ⟨folded, hfolded⟩ := Option.isSome_iff_exists.1 hfold
  have hdtype : d.type = "expression_statement" := by
    simpa using (label_of_fold? hfolded).2.2
  rw [ih c hc, ih d hd] at hfold
  obtain ⟨rfl, hfront⟩ := h t (mem_preorder_self t) htype c bs d hinfix
    (fun y hy => hbetween _ (List.mem_map_of_mem hy)) hfold
  exact ⟨rfl, picked_head?_ofCst hp (by simp [hdtype]) hfront⟩

theorem prunes_children_clause (hp : PicksComments p) (htype : t.type = "import_require_clause")
    (hpicks : Cst.PicksComments text p t)
    (ih : ∀ c ∈ t.children, prune p (ofCst text c) = ofCst text (prune (picked text p) c)) :
    prunes p (ofCst text t).children = (ofCst text (prune (picked text p) t)).children := by
  have hcomment : ∀ c ∈ t.children, picked text p c = true → IsComment c := fun c hc =>
    hpicks.comment c (mem_preorder_of_mem hc (mem_preorder_self c))
  have hlabel : (prune (picked text p) t).label.type = "import_require_clause" := by
    rw [label_prune]
    exact htype
  rw [children_ofCst, children_ofCst, children_prune]
  cases hword : t.children.find? (Cst.isToken "require") with
  | none =>
      have hany : t.children.any (Cst.isToken "require") = false :=
        List.any_eq_false.2 (List.find?_eq_none.1 hword)
      have hany' : (prunes (picked text p) t.children).any (Cst.isToken "require") = false := by
        rw [any_prunes (fun c => by simp [Cst.isToken]) fun c hc hq => (hcomment c hc hq).isToken
          (by decide), hany]
      rw [arrange_of_not_any htype hany, arrange_of_not_any hlabel hany', prunes_map ih]
  | some word =>
      obtain ⟨hw, before, after, hcs, hbefore⟩ := List.find?_eq_some_iff_append.1 hword
      have hwordType : word.type ≠ "comment" := by
        have htoken : word.type = "require" := by
          simpa [Cst.type] using (Bool.and_eq_true_iff.1 hw).1
        simp [htoken]
      have hwordPicked : picked text p word = false := hp.eq_false (by simpa using hwordType)
      have hlast := Cst.getLast_prunes (hpicks.last t (mem_preorder_self t))
      rw [hcs] at ih hlast ⊢
      have hprunes : prunes (picked text p) (before ++ word :: after) =
          prunes (picked text p) before ++
            prune (picked text p) word :: prunes (picked text p) after := by
        rw [prunes_append, prunes_cons_of_neg hwordPicked]
      have hstop : ((prune (picked text p) word :: prunes (picked text p) after).getLast
          (List.cons_ne_nil _ _)).stop = ((word :: after).getLast (List.cons_ne_nil _ _)).stop := by
        rw [hprunes, List.getLast?_append_of_ne_nil _ (List.cons_ne_nil _ _),
          List.getLast?_append_of_ne_nil _ (List.cons_ne_nil _ _),
          List.getLast?_eq_some_getLast (List.cons_ne_nil _ _),
          List.getLast?_eq_some_getLast (List.cons_ne_nil _ _), Option.map_some, Option.some.injEq] at hlast
        rw [hlast, stop_prune]
      have hreference : type ⟨referenceLabel, Text.place text word.start,
          Text.place text ((word :: after).getLast (List.cons_ne_nil word after)).stop,
          (word :: after).map (ofCst text)⟩ ≠ "comment" := by
        simp [type, referenceLabel]
      rw [arrange_of_require htype hw (by simpa using hbefore), prunes_append,
        prunes_map fun c hc => ih c (List.mem_append_left _ hc), hp.prunes_cons hreference, prunes_nil,
        prune_eq, prunes_map fun c hc => ih c (List.mem_append_right _ hc), hprunes,
        arrange_of_require hlabel (by simpa [Cst.isToken] using hw) ?_, start_prune, hstop,
        prunes_cons_of_neg hwordPicked]
      intro b hb
      obtain ⟨c, hc, -, rfl⟩ := mem_prunes.1 hb
      have htoken := hbefore c hc
      rw [Bool.not_eq_true', Cst.isToken] at htoken
      rw [Cst.isToken, label_prune, htoken]

/-- Comments are taken out of a tree before or after nodes are made of it, unless one of them hinders that
statements are put together. -/
theorem prune_ofCst (hp : PicksComments p) (t : Cst) (hpicks : Cst.PicksComments text p t)
    (h : Cst.Unhindered text p t) :
    prune p (ofCst text t) = ofCst text (prune (picked text p) t) := by
  induction t using Region.induction with
  | node t ih =>
      have ih' : ∀ c ∈ t.children, prune p (ofCst text c) = ofCst text (prune (picked text p) c) :=
        fun c hc => ih c hc (hpicks.of_mem hc) (h.of_mem hc)
      have hkind : Cst.kindOf t.label (prunes (picked text p) t.children) =
          Cst.kindOf t.label t.children :=
        kindOf_prunes (fun c hc => hpicks.comment c (mem_preorder_of_mem hc (mem_preorder_self c))) t.label
      have hchildren : prunes p (ofCst text t).children =
          (ofCst text (prune (picked text p) t)).children := by
        by_cases htype : Cst.type t = "import_require_clause"
        · exact prunes_children_clause hp htype hpicks ih'
        · have htype' : (prune (picked text p) t).label.type ≠ "import_require_clause" := by
            rwa [label_prune]
          rw [children_ofCst, children_ofCst, arrange_of_ne htype, arrange_of_ne htype', children_prune,
            prunes_foldAll hp (unhindered_map hp htype h ih'), prunes_map ih']
      rw [prune_eq, hchildren, ofCst_eq text (prune _ t), ofCst_eq text t]
      simp only [assemble, label_prune, start_prune, stop_prune, children_prune, hkind]

end Node

end DeclBundle
