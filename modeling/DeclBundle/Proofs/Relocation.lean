import DeclBundle.Proofs.Draft
import DeclBundle.Proofs.KeptTokens

/-!
# Relocated trees

`Cst.Shifted d` says of two trees of the grammar, one of the former text of a draft and one of the revised
text, that they have the same name and role and lie between the same places of the draft. The nodes that
are made of trees that correspond in this way correspond, `Node.Spot d` holding between each two of them
(`corresponding_ofCst`).

What statements are put together is told by the children of the statements and of the imports in them: by
their names, by which of them have characters, and by the spelling of a word (`Alike`). So nothing may have
been put in where that would change (`Spared`). This is all that the reading of a split import needs
(`Reads.exists_of_corresponding`), for any relation between nodes, so it serves in both directions.
-/

namespace DeclBundle

open Region

theorem exists_of_forall₂_append {α β : Type} {R : α → β → Prop} {xs ys : List α} {zs : List β}
    (h : List.Forall₂ R (xs ++ ys) zs) :
    ∃ us vs, zs = us ++ vs ∧ List.Forall₂ R xs us ∧ List.Forall₂ R ys vs := by
  induction xs generalizing zs with
  | nil => exact ⟨[], zs, rfl, .nil, h⟩
  | cons x xs ih =>
      cases h with
      | cons hx hrest =>
          obtain ⟨us, vs, rfl, hxs, hys⟩ := ih hrest
          exact ⟨_ :: us, vs, rfl, .cons hx hxs, hys⟩

theorem exists_of_forall₂_append_cons {α β : Type} {R : α → β → Prop} {xs ys : List α} {x : α}
    {zs : List β} (h : List.Forall₂ R (xs ++ x :: ys) zs) :
    ∃ us u vs, zs = us ++ u :: vs ∧ List.Forall₂ R xs us ∧ R x u ∧ List.Forall₂ R ys vs := by
  obtain ⟨us, ws, rfl, hxs, hws⟩ := exists_of_forall₂_append h
  cases hws with
  | cons hx hys => exact ⟨us, _, _, rfl, hxs, hx, hys⟩

theorem forall₂_and {α β : Type} {R S : α → β → Prop} {xs : List α} {ys : List β}
    (h : List.Forall₂ R xs ys) (h' : List.Forall₂ S xs ys) :
    List.Forall₂ (fun x y => R x y ∧ S x y) xs ys := by
  induction h with
  | nil => exact .nil
  | cons hxy _ ih =>
      cases h' with
      | cons hxy' hrest' => exact .cons ⟨hxy, hxy'⟩ (ih hrest')

theorem forall_mem_of_forall₂ {α β : Type} {R : α → β → Prop} {P : α → Prop} {Q : β → Prop}
    {xs : List α} {ys : List β} (h : List.Forall₂ R xs ys) (hP : ∀ x ∈ xs, P x)
    (hPQ : ∀ x y, R x y → P x → Q y) : ∀ y ∈ ys, Q y := by
  induction h with
  | nil => simp
  | cons hxy _ ih =>
      rw [List.forall_mem_cons] at hP ⊢
      exact ⟨hPQ _ _ hxy hP.1, ih hP.2⟩

theorem forall₂_imp_of_mem {α β : Type} {R S : α → β → Prop} {xs : List α} {ys : List β}
    (h : List.Forall₂ R xs ys) (hRS : ∀ x ∈ xs, ∀ y ∈ ys, R x y → S x y) : List.Forall₂ S xs ys := by
  induction h with
  | nil => exact .nil
  | cons hxy _ ih =>
      refine .cons (hRS _ List.mem_cons_self _ List.mem_cons_self hxy) (ih fun x hx y hy => ?_)
      exact hRS x (List.mem_cons_of_mem _ hx) y (List.mem_cons_of_mem _ hy)

namespace Cst

/-- The rules whose children tell whether statements are put together: those of the statements and of the
imports in them. -/
def halfTypes : List String := ["export_statement", "import_alias", "expression_statement"]

end Cst

namespace Node

variable {text text' : List Char} {n m n' m' : Node} {R : Node → Node → Prop}

/-- Two nodes agree in what split imports are told by. -/
structure Alike (text text' : List Char) (n n' : Node) : Prop where
  type : n'.type = n.type
  wide : n'.isWide = n.isWide
  word : n.type = "identifier" → n'.slice text' = n.slice text

theorem Alike.symm (h : Alike text text' n n') : Alike text' text n' n where
  type := h.type.symm
  wide := h.wide.symm
  word hn := (h.word (by rwa [← h.type])).symm

theorem Alike.isToken (h : Alike text text' n n') : n'.isToken = n.isToken := by
  rw [Node.isToken, Node.isToken, isComment, isComment, h.type, h.wide]

/-- Two nodes have the same name, and if they may be halves of split imports their children agree. -/
structure Agree (text text' : List Char) (n n' : Node) : Prop where
  type : n'.type = n.type
  halves : n.type ∈ Cst.halfTypes → List.Forall₂ (Alike text text') n.children n'.children

theorem Agree.symm (h : Agree text text' n n') : Agree text' text n' n where
  type := h.type.symm
  halves htype := by
    rw [h.type] at htype
    exact ((h.halves htype).imp fun _ _ halike => halike.symm).flip

theorem types_of_forall₂ {ns ns' : List Node} (h : List.Forall₂ R ns ns')
    (hR : ∀ x y, R x y → y.type = x.type) :
    (ns'.filter fun c => !isComment c).map type = (ns.filter fun c => !isComment c).map type := by
  induction h with
  | nil => rfl
  | cons hxy _ ih =>
      rw [List.filter_cons, List.filter_cons, isComment, isComment, hR _ _ hxy]
      split
      · rw [List.map_cons, List.map_cons, hR _ _ hxy, ih]
      · exact ih

end Node

namespace SplitImport

open Node

variable {text text' : List Char} {n m n' m' : Node} {s s' : SplitImport} {R : Node → Node → Prop}

/-- The parts of two split imports are related. -/
structure Matches (R : Node → Node → Prop) (s s' : SplitImport) : Prop where
  before : List.Forall₂ R s.before s'.before
  imported : R s.imported s'.imported
  after : List.Forall₂ R s.after s'.after
  left : List.Forall₂ R s.left s'.left
  word : R s.word s'.word
  right : List.Forall₂ R s.right s'.right
  call : R s.call s'.call
  rest : List.Forall₂ R s.rest s'.rest

/-- Two statements that correspond to the halves of a split import are the halves of one. -/
theorem Reads.exists_of_corresponding (hR : ∀ x y, R x y → Agree text text' x y)
    (hn : Corresponding R n n') (hm : Corresponding R m m') (hs : s.Reads text n m) :
    ∃ s' : SplitImport, s'.Reads text' n' m' ∧
      s.Matches (fun x y => Corresponding R x y ∧ Alike text text' x y) s' := by
  have hchildren : ∀ {x y : Node}, Corresponding R x y → x.type ∈ Cst.halfTypes →
      List.Forall₂ (fun x y => Corresponding R x y ∧ Alike text text' x y) x.children y.children :=
    fun hxy htype => forall₂_and hxy.children ((hR _ _ hxy.root).halves htype)
  have hstatement := hchildren hn (by simp [hs.statement_type, Cst.halfTypes])
  rw [hs.statement_children] at hstatement
  obtain ⟨before, imported, after, hcs, hbefore, himported, hafter⟩ :=
    exists_of_forall₂_append_cons hstatement
  have hinner := hchildren himported.1 (by simp [hs.imported_type, Cst.halfTypes])
  rw [hs.imported_children] at hinner
  obtain ⟨left, word, right, hws, hleft, hword, hright⟩ := exists_of_forall₂_append_cons hinner
  have hfollowing := hchildren hm (by simp [hs.following_type, Cst.halfTypes])
  rw [hs.following_children] at hfollowing
  obtain ⟨call, rest, hcall, hrest, hds⟩ := List.forall₂_cons_left_iff.1 hfollowing
  refine ⟨⟨before, imported, after, left, word, right, call, rest⟩, ?_,
    ⟨hbefore, himported, hafter, hleft, hword, hright, hcall, hrest⟩⟩
  exact {
    statement_type := by rw [(hR _ _ hn.root).type, hs.statement_type]
    statement_children := hcs
    before_type := forall_mem_of_forall₂ hbefore hs.before_type fun x y hxy hx => by
      rwa [hxy.2.type]
    imported_type := by rw [himported.2.type, hs.imported_type]
    imported_children := hws
    right_isToken := forall_mem_of_forall₂ hright hs.right_isToken fun x y hxy hx => by
      rwa [hxy.2.isToken]
    word_isToken := by rw [hword.2.isToken, hs.word_isToken]
    word_type := by rw [hword.2.type, hs.word_type]
    word_slice := by rw [hword.2.word hs.word_type, hs.word_slice]
    following_type := by rw [(hR _ _ hm.root).type, hs.following_type]
    following_children := hds
    call_type := by rw [hcall.2.type, hs.call_type]
    call_tokens := by
      rw [types_of_forall₂ hcall.1.children fun x y hxy => (hR _ _ hxy.root).type, hs.call_tokens] }

end SplitImport

namespace Node

variable {d : Draft} {n m n' m' : Node} {ns ns' : List Node} {s s' : SplitImport}

/-- A node of the former text of a draft and one of the revised text are the same but for their place, and
have the same place in the draft. A keyword may also cover a blank behind which something was put in. -/
structure Spot (d : Draft) (n n' : Node) : Prop where
  label : n'.label = n.label
  start : n.start = d.back n'.start
  stop : n.stop = d.back n'.stop ∨
    n.type = "declare" ∧ n.kind = .declareKeyword ∧ n.stop = skipBlank d.former (d.back n'.stop)
  halves : n.type ∈ Cst.halfTypes → List.Forall₂ (Alike d.former d.revised) n.children n'.children

theorem Spot.agree (h : Spot d n n') : Agree d.former d.revised n n' where
  type := congrArg NodeLabel.type h.label
  halves := h.halves

theorem Spot.stop_eq (h : Spot d n n') (htype : n.type ≠ "declare") : n.stop = d.back n'.stop :=
  h.stop.resolve_right fun hkeyword => htype hkeyword.1

/-- Two nodes correspond and agree in what split imports are told by. -/
def Matching (d : Draft) (n n' : Node) : Prop :=
  Corresponding (Spot d) n n' ∧ Alike d.former d.revised n n'

/-- What is put together of the parts of a split import has characters. -/
def AllWide (n m : Node) (s : SplitImport) : Prop :=
  (s.joined n m).isWide = true ∧ s.joinedImport.isWide = true ∧ s.reference.isWide = true

theorem forall₂_corresponding (h : List.Forall₂ (Matching d) ns ns') :
    List.Forall₂ (Corresponding (Spot d)) ns ns' :=
  h.imp fun _ _ hxy => hxy.1

theorem forall₂_alike (h : List.Forall₂ (Matching d) ns ns') :
    List.Forall₂ (Alike d.former d.revised) ns ns' :=
  h.imp fun _ _ hxy => hxy.2

theorem Matching.filter (h : List.Forall₂ (Matching d) ns ns') :
    List.Forall₂ (Matching d) (ns.filter Region.isWide) (ns'.filter Region.isWide) := by
  refine List.rel_filter (fun x y hxy => ?_) h
  show x.isWide = true ↔ y.isWide = true
  rw [hxy.2.wide]

/-- A node with a name of its own and matching children matches, if both have characters. -/
theorem matching_of_children (hlabel : n'.label = n.label) (hstart : n.start = d.back n'.start)
    (hstop : n.stop = d.back n'.stop) (hwide : n.isWide = true) (hwide' : n'.isWide = true)
    (htype : n.type ≠ "identifier") (h : List.Forall₂ (Matching d) n.children n'.children) :
    Matching d n n' :=
  ⟨corresponding_of_children ⟨hlabel, hstart, Or.inl hstop, fun _ => forall₂_alike h⟩
    (forall₂_corresponding h), congrArg NodeLabel.type hlabel, by rw [hwide, hwide'],
    fun hword => absurd hword htype⟩

theorem matching_joined (hs : s.Reads d.former n m) (hn : Spot d n n') (hm : Spot d m m')
    (h : s.Matches (Matching d) s') (hwide : AllWide n m s) (hwide' : AllWide n' m' s') :
    Matching d (s.joined n m) (s'.joined n' m') := by
  have hcall := h.call.1.root.stop_eq (by simp [hs.call_type])
  have hreference : Matching d s.reference s'.reference := by
    have hchildren := List.Forall₂.cons h.word.1 h.call.1.children
    refine ⟨corresponding_of_children ⟨rfl, h.word.1.root.start, Or.inl hcall, ?_⟩ hchildren, rfl, ?_, ?_⟩
    · intro htype
      exact absurd htype (by simp [SplitImport.reference, type, referenceLabel, Cst.halfTypes])
    · rw [hwide.2.2, hwide'.2.2]
    · intro htype
      exact absurd htype (by simp [SplitImport.reference, type, referenceLabel])
  have himported : Matching d s.joinedImport s'.joinedImport := by
    have halias : s.joinedImport.type = "import_alias" := hs.imported_type
    exact matching_of_children h.imported.1.root.label h.imported.1.root.start hcall hwide.2.1
      hwide'.2.1 (by simp [halias])
      (List.rel_append (Matching.filter (List.rel_append h.left h.right)) (.cons hreference .nil))
  have hexport : (s.joined n m).type = "export_statement" := hs.statement_type
  exact matching_of_children hn.label hn.start (hm.stop_eq (by simp [hs.following_type])) hwide.1
    hwide'.1 (by simp [hexport])
    (List.rel_append (Matching.filter (List.rel_append h.before (.cons himported h.after))) h.rest)

/-- Statements that correspond are put together in both texts or in neither. -/
theorem fold?_of_corresponding (hn : Corresponding (Spot d) n n') (hm : Corresponding (Spot d) m m')
    (hwide : ∀ s : SplitImport, s.Reads d.former n m → AllWide n m s)
    (hwide' : ∀ s : SplitImport, s.Reads d.revised n' m' → AllWide n' m' s) :
    Option.Rel (Matching d) (fold? d.former n m) (fold? d.revised n' m') := by
  have hflip : ∀ {x y : Node}, Corresponding (Spot d) x y →
      Corresponding (fun a b => Spot d b a) y x := by
    intro x y hxy a
    have ha := hxy a
    generalize x.get? a = u at ha
    generalize y.get? a = v at ha
    cases ha with
    | none => exact .none
    | some huv => exact .some huv
  cases hfold : fold? d.former n m with
  | some folded =>
      obtain ⟨s, hs, rfl⟩ := fold?_eq_some_iff.1 hfold
      obtain ⟨s', hs', hmatch⟩ := hs.exists_of_corresponding (fun _ _ h => h.agree) hn hm
      rw [fold?_eq_some_iff.2 ⟨s', hs', rfl⟩]
      exact .some (matching_joined hs hn.root hm.root hmatch (hwide s hs) (hwide' s' hs'))
  | none =>
      cases hfold' : fold? d.revised n' m' with
      | none => exact .none
      | some folded =>
          obtain ⟨s', hs', rfl⟩ := fold?_eq_some_iff.1 hfold'
          have hagree : ∀ x y, Spot d y x → Agree d.revised d.former x y := fun _ _ h => h.agree.symm
          obtain ⟨s, hs, -⟩ := hs'.exists_of_corresponding hagree (hflip hn) (hflip hm)
          rw [fold?_eq_some_iff.2 ⟨s, hs, rfl⟩] at hfold
          cases hfold

/-- Two nodes correspond, and agree in what split imports are told by if their parent may be a half of
one. -/
def MatchingIn (half : Prop) (d : Draft) (n n' : Node) : Prop :=
  Corresponding (Spot d) n n' ∧ (half → Alike d.former d.revised n n')

theorem forall₂_foldAll {half : Prop} (h : List.Forall₂ (MatchingIn half d) ns ns')
    (hwide : ∀ n m (s : SplitImport), [n, m] <:+: ns → s.Reads d.former n m → AllWide n m s)
    (hwide' : ∀ n m (s : SplitImport), [n, m] <:+: ns' → s.Reads d.revised n m → AllWide n m s) :
    List.Forall₂ (MatchingIn half d) (foldAll d.former ns) (foldAll d.revised ns') := by
  induction ns using List.twoStepInduction generalizing ns' with
  | nil =>
      cases h
      simp
  | singleton n =>
      obtain ⟨n', rest, hn, hrest, rfl⟩ := List.forall₂_cons_left_iff.1 h
      cases hrest
      simpa using hn
  | cons_cons n m ns ih ih' =>
      obtain ⟨n', rest, hn, hrest, rfl⟩ := List.forall₂_cons_left_iff.1 h
      obtain ⟨m', ns', hm, hns, rfl⟩ := List.forall₂_cons_left_iff.1 hrest
      have hrel := fold?_of_corresponding hn.1 hm.1
        (fun s => hwide n m s (List.prefix_append [n, m] ns).isInfix)
        (fun s => hwide' n' m' s (List.prefix_append [n', m'] ns').isInfix)
      have hbehind := ih hns
        (fun x y s hxy => hwide x y s (hxy.trans (List.suffix_append [n, m] ns).isInfix))
        (fun x y s hxy => hwide' x y s (hxy.trans (List.suffix_append [n', m'] ns').isInfix))
      have hnext := ih' m hrest
        (fun x y s hxy => hwide x y s (hxy.trans (List.suffix_cons n (m :: ns)).isInfix))
        (fun x y s hxy => hwide' x y s (hxy.trans (List.suffix_cons n' (m' :: ns')).isInfix))
      rw [foldAll, foldAll]
      generalize fold? d.former n m = x at hrel ⊢
      generalize fold? d.revised n' m' = y at hrel ⊢
      cases hrel with
      | none => exact .cons hn hnext
      | some hfolded => exact .cons ⟨hfolded.1, fun _ => hfolded.2⟩ hbehind

end Node

namespace Cst

/-- Two trees, one of the former text of a draft and one of the revised text, have the same name and role and
lie between two places of the draft. Nothing was put into a string. -/
structure ShiftedAt (d : Draft) (k l : Nat) (c u : Cst) : Prop where
  label : u.label = c.label
  le : k ≤ l
  le_length : l ≤ d.length
  start : c.start = d.formerByte k
  stop : c.stop = d.formerByte l
  start' : u.start = d.revisedByte k
  stop' : u.stop = d.revisedByte l
  string : c.type = "string" → d.Plain k l

/-- A keyword has characters, nothing was put into a name, and what has characters does not consist of what
was put in. -/
structure Spared (d : Draft) (k l : Nat) (c : Cst) : Prop where
  keyword : isToken "declare" c = true → k < l
  name : c.type = "identifier" → d.Plain k l
  wide : k < l → d.putIn k l = false

instance (d : Draft) (k l : Nat) (c : Cst) : Decidable (Spared d k l c) :=
  decidable_of_iff ((isToken "declare" c = true → k < l) ∧ (c.type = "identifier" → d.Plain k l) ∧
    (k < l → d.putIn k l = false))
    ⟨fun h => ⟨h.1, h.2.1, h.2.2⟩, fun h => ⟨h.keyword, h.name, h.wide⟩⟩

/-- Two trees are the same but for their offsets and lie between the same places of a draft. If they may be
halves of split imports, what was put in spares their children. -/
structure Shifted (d : Draft) (c u : Cst) : Prop where
  places : ∃ k l, ShiftedAt d k l c u
  halves : c.type ∈ halfTypes →
    List.Forall₂ (fun c u => ∃ k l, ShiftedAt d k l c u ∧ Spared d k l c) c.children u.children

theorem Shifted.label {d : Draft} {c u : Cst} (h : Shifted d c u) : u.label = c.label := by
  obtain ⟨_, _, hat⟩ := h.places
  exact hat.label

theorem type_of_kindOf_eq_stringLiteral {label : GrammarLabel} {children : List Cst}
    (h : (kindOf label children).1 = .stringLiteral) : label.type = "string" := by
  unfold kindOf at h
  have hexport := exportKind_fst children
  split_ifs at h <;> grind

theorem isToken_of_kindOf_eq_declareKeyword {t : Cst}
    (h : (kindOf t.label t.children).1 = .declareKeyword) : isToken "declare" t = true := by
  unfold kindOf at h
  have hexport := exportKind_fst t.children
  split_ifs at h <;> grind [isToken]

/-- The kind of a node depends on the names and roles of its children. -/
theorem kindOf_of_forall₂ {R : Cst → Cst → Prop} (hR : ∀ c u, R c u → u.label = c.label) {cs us : List Cst}
    (h : List.Forall₂ R cs us) (label : GrammarLabel) : kindOf label us = kindOf label cs := by
  have hany : ∀ q : Cst → Bool, (∀ c u, R c u → q u = q c) → us.any q = cs.any q := by
    intro q hq
    clear label
    induction h with
    | nil => rfl
    | cons hcu _ ih => rw [List.any_cons, List.any_cons, hq _ _ hcu, ih]
  have hclause := hany (fun c => type c == "import_require_clause") fun c u hcu => by
    simp only [type, hR c u hcu]
  have hfield : ∀ field, us.any (hasField field) = cs.any (hasField field) := fun field =>
    hany _ fun c u hcu => by simp only [hasField, hR c u hcu]
  have htoken : ∀ token, us.any (isToken token) = cs.any (isToken token) := fun token =>
    hany _ fun c u hcu => by simp only [isToken, hR c u hcu]
  simp only [kindOf, exportKind, hclause, hfield, htoken]

end Cst

namespace Node

open Cst

variable {d : Draft} {t u : Cst} {k l : Nat} {cs us : List Cst}

theorem AllWide.of_infix {text : List Char} (ht : t.Nested) :
    ∀ n m (s : SplitImport), [n, m] <:+: t.children.map (ofCst text) → s.Reads text n m → AllWide n m s :=
  fun _ _ _ hnm hs => isWide_of_pair ht hnm hs

section Shifted

variable (h : ShiftedAt d k l t u)
include h

theorem start_ofCst_former : (ofCst d.former t).start = d.back k := by
  rw [start_ofCst, h.start, Draft.place_formerByte]

theorem start_ofCst_revised : (ofCst d.revised u).start = k := by
  rw [start_ofCst, h.start', Draft.place_revisedByte (h.le.trans h.le_length)]

theorem ends_ofCst_former : Ends d.former (ofCst d.former t) (d.back l) := by
  have hends := ends_ofCst d.former t
  rwa [h.stop, Draft.place_formerByte] at hends

theorem ends_ofCst_revised : Ends d.revised (ofCst d.revised u) l := by
  have hends := ends_ofCst d.revised u
  rwa [h.stop', Draft.place_revisedByte h.le_length] at hends

theorem label_ofCst (hkind : kindOf u.label u.children = kindOf t.label t.children) :
    (ofCst d.revised u).label = (ofCst d.former t).label := by
  rw [ofCst_eq, ofCst_eq]
  simp only [assemble, h.label]
  rw [h.label] at hkind
  rw [hkind, h.start, h.stop, h.start', h.stop', Draft.place_formerByte, Draft.place_formerByte,
    Draft.place_revisedByte (h.le.trans h.le_length), Draft.place_revisedByte h.le_length]
  split_ifs with hstring
  · rw [Draft.slice_eq (h.string (type_of_kindOf_eq_stringLiteral hstring)) h.le]
  · rfl

/-- The nodes of shifted trees end at the same place of the draft, but for the blank behind a keyword. -/
theorem stop_ofCst_back (hkind : kindOf u.label u.children = kindOf t.label t.children) :
    (ofCst d.former t).stop = d.back (ofCst d.revised u).stop ∨
      (ofCst d.former t).type = "declare" ∧ (ofCst d.former t).kind = .declareKeyword ∧
        (ofCst d.former t).stop = skipBlank d.former (d.back (ofCst d.revised u).stop) := by
  rw [kind_ofCst, type_ofCst, stop_ofCst, stop_ofCst, hkind, h.stop, h.stop', Draft.place_formerByte,
    Draft.place_revisedByte h.le_length]
  split_ifs with hdeclare
  · rcases Draft.skipBlank_eq d l with heq | heq
    · exact Or.inl heq
    · rw [heq]
      exact Or.inr ⟨type_of_kindOf_eq_declareKeyword hdeclare, hdeclare, rfl⟩
  · exact Or.inl rfl

/-- The nodes of spared trees agree in what split imports are told by. -/
theorem alike_ofCst (hspared : Spared d k l t)
    (hkind : kindOf u.label u.children = kindOf t.label t.children) :
    Alike d.former d.revised (ofCst d.former t) (ofCst d.revised u) := by
  have hstart := start_ofCst_former h
  have hstart' := start_ofCst_revised h
  have hends := ends_ofCst_former h
  have hends' := ends_ofCst_revised h
  have htype : (ofCst d.revised u).type = (ofCst d.former t).type := by
    rw [type_ofCst, type_ofCst, Cst.type, Cst.type, h.label]
  refine ⟨htype, ?_, ?_⟩
  · by_cases hdeclare : (kindOf t.label t.children).1 = .declareKeyword
    · -- A keyword has characters with the blank behind it and without it.
      have hlt := hspared.keyword (isToken_of_kindOf_eq_declareKeyword hdeclare)
      have hback := Draft.back_lt_back (hspared.wide hlt) h.le
      have hle : d.back l ≤ (ofCst d.former t).stop := by
        rcases hends with he | ⟨-, he, -⟩ <;> omega
      have hle' : l ≤ (ofCst d.revised u).stop := by
        rcases hends' with he | ⟨-, he, -⟩ <;> omega
      rw [isWide, isWide, hstart, hstart', decide_eq_true (by omega), decide_eq_true (by omega)]
    · have hstop := hends.stop_eq_of_kind (by rwa [kind_ofCst])
      have hstop' := hends'.stop_eq_of_kind (by rwa [kind_ofCst, hkind])
      rw [isWide, isWide, hstart, hstart', hstop, hstop', decide_eq_decide]
      constructor
      · intro hkl
        exact Draft.back_lt_back (hspared.wide hkl) h.le
      · intro hback
        exact Nat.lt_of_not_le fun hlk => Nat.not_lt_of_le (Draft.back_mono d hlk) hback
  · intro hname
    have hstop := hends.stop_eq (by simp [hname])
    have hstop' := hends'.stop_eq (by simp [htype, hname])
    rw [type_ofCst] at hname
    rw [slice, slice, hstart, hstart', hstop, hstop', Draft.slice_eq (hspared.name hname) h.le]

end Shifted

theorem forall₂_map_ofCst {R : Node → Node → Prop} {S : Cst → Cst → Prop} (h : List.Forall₂ S cs us)
    (ih : ∀ c ∈ cs, ∀ u ∈ us, S c u → R (ofCst d.former c) (ofCst d.revised u)) :
    List.Forall₂ R (cs.map (ofCst d.former)) (us.map (ofCst d.revised)) := by
  rw [List.forall₂_map_left_iff, List.forall₂_map_right_iff]
  exact forall₂_imp_of_mem h ih

theorem shifted_getLast (h : List.Forall₂ (Corresponding (Shifted d)) cs us) (hcs : cs ≠ [])
    (hus : us ≠ []) : Shifted d (cs.getLast hcs) (us.getLast hus) := by
  induction h with
  | nil => exact absurd rfl hcs
  | @cons c u cs us hcu hrest ih =>
      cases hrest with
      | nil => exact hcu.root
      | @cons e v es vs hev hrest' =>
          rw [List.getLast_cons (List.cons_ne_nil e es), List.getLast_cons (List.cons_ne_nil v vs)]
          exact ih (List.cons_ne_nil e es) (List.cons_ne_nil v vs)

theorem forall₂_children_clause (hlabel : u.label = t.label) (htype : t.type = "import_require_clause")
    (h : List.Forall₂ (Corresponding (Shifted d)) t.children u.children)
    (ih : ∀ c ∈ t.children, ∀ v ∈ u.children, Corresponding (Shifted d) c v →
      Corresponding (Spot d) (ofCst d.former c) (ofCst d.revised v)) :
    List.Forall₂ (Corresponding (Spot d)) (ofCst d.former t).children (ofCst d.revised u).children := by
  have htype' : u.label.type = "import_require_clause" := by rw [hlabel]; exact htype
  have htoken : ∀ c v, Corresponding (Shifted d) c v →
      Cst.isToken "require" v = Cst.isToken "require" c := fun c v hcv => by
    rw [Cst.isToken, Cst.isToken, hcv.root.label]
  rw [children_ofCst, children_ofCst]
  cases hword : t.children.find? (Cst.isToken "require") with
  | none =>
      have hany := List.find?_eq_none.1 hword
      have hany' : ∀ v ∈ u.children, ¬ Cst.isToken "require" v = true :=
        forall_mem_of_forall₂ h hany fun c v hcv hc => by rwa [htoken c v hcv]
      rw [arrange_of_not_any htype (List.any_eq_false.2 hany),
        arrange_of_not_any htype' (List.any_eq_false.2 hany')]
      exact forall₂_map_ofCst h ih
  | some word =>
      obtain ⟨hw, before, after, hparts, hbefore⟩ := List.find?_eq_some_iff_append.1 hword
      rw [hparts] at h ih ⊢
      obtain ⟨bs, v, vs, hparts', hbs, hv, hvs⟩ := exists_of_forall₂_append_cons h
      rw [hparts'] at ih ⊢
      have hw' : Cst.isToken "require" v = true := by rw [htoken word v hv, hw]
      have hbefore' : ∀ b ∈ bs, (!Cst.isToken "require" b) = true :=
        forall_mem_of_forall₂ hbs hbefore fun c b hcb hc => by rwa [htoken c b hcb]
      obtain ⟨k, l, hat⟩ := hv.root.places
      obtain ⟨i, j, hlast⟩ := (shifted_getLast (.cons hv hvs) (List.cons_ne_nil word after)
        (List.cons_ne_nil v vs)).places
      rw [arrange_of_require htype hw (by simpa using hbefore),
        arrange_of_require htype' hw' (by simpa using hbefore')]
      refine List.rel_append (forall₂_map_ofCst hbs fun c hc b hb => ?_) (.cons ?_ .nil)
      · exact ih c (List.mem_append_left _ hc) b (List.mem_append_left _ hb)
      · refine corresponding_of_children ⟨rfl, ?_, Or.inl ?_, ?_⟩
          (forall₂_map_ofCst (.cons hv hvs) fun c hc b hb =>
            ih c (List.mem_append_right _ hc) b (List.mem_append_right _ hb))
        · rw [hat.start, hat.start', Draft.place_formerByte,
            Draft.place_revisedByte (hat.le.trans hat.le_length)]
        · rw [hlast.stop, hlast.stop', Draft.place_formerByte,
            Draft.place_revisedByte hlast.le_length]
        · intro hhalf
          exact absurd hhalf (by simp [type, referenceLabel, Cst.halfTypes])

/-- The nodes of trees that are the same but for their offsets correspond. -/
theorem corresponding_ofCst (t : Cst) : ∀ {u : Cst}, t.Nested → u.Nested →
    Corresponding (Shifted d) t u →
      Corresponding (Spot d) (ofCst d.former t) (ofCst d.revised u) := by
  have hkind : ∀ {c v : Cst}, Corresponding (Shifted d) c v →
      kindOf v.label v.children = kindOf c.label c.children := by
    intro c v hcv
    rw [hcv.root.label]
    exact kindOf_of_forall₂ (fun _ _ h => h.root.label) hcv.children c.label
  induction t using Region.induction with
  | node t ih =>
      intro u ht hu h
      obtain ⟨k, l, hat⟩ := h.root.places
      have hchildren := h.children
      have ih' : ∀ c ∈ t.children, ∀ v ∈ u.children, Corresponding (Shifted d) c v →
          Corresponding (Spot d) (ofCst d.former c) (ofCst d.revised v) := fun c hc v hv hcv =>
        ih c hc (ht.of_mem_children hc).2.1 (hu.of_mem_children hv).2.1 hcv
      have hspot : (Cst.type t ∈ halfTypes → List.Forall₂ (Alike d.former d.revised)
          (ofCst d.former t).children (ofCst d.revised u).children) →
            Spot d (ofCst d.former t) (ofCst d.revised u) := fun hhalves => {
        label := label_ofCst hat (hkind h)
        start := by rw [start_ofCst_former hat, start_ofCst_revised hat]
        stop := stop_ofCst_back hat (hkind h)
        halves := by rwa [type_ofCst] }
      by_cases htype : Cst.type t = "import_require_clause"
      · refine corresponding_of_children (hspot fun hhalf => ?_)
          (forall₂_children_clause hat.label htype hchildren ih')
        exact absurd hhalf (by simp [htype, halfTypes])
      · have htype' : Cst.type u ≠ "import_require_clause" := by rwa [Cst.type, hat.label]
        have hmade : List.Forall₂ (MatchingIn (Cst.type t ∈ halfTypes) d)
            (t.children.map (ofCst d.former)) (u.children.map (ofCst d.revised)) := by
          by_cases hhalf : Cst.type t ∈ halfTypes
          · refine forall₂_map_ofCst (forall₂_and hchildren (h.root.halves hhalf)) ?_
            rintro c hc v hv ⟨hcv, k, l, hcat, hspared⟩
            exact ⟨ih' c hc v hv hcv, fun _ => alike_ofCst hcat hspared (hkind hcv)⟩
          · exact forall₂_map_ofCst hchildren fun c hc v hv hcv =>
              ⟨ih' c hc v hv hcv, fun hhalf' => absurd hhalf' hhalf⟩
        have hrow := forall₂_foldAll hmade (AllWide.of_infix ht) (AllWide.of_infix hu)
        rw [← arrange_of_ne htype d.former t.children, ← children_ofCst,
          ← arrange_of_ne htype' d.revised u.children, ← children_ofCst] at hrow
        exact corresponding_of_children
          (hspot fun hhalf => hrow.imp fun _ _ hxy => hxy.2 hhalf) (hrow.imp fun _ _ hxy => hxy.1)

end Node

end DeclBundle
