import DeclBundle.Proofs.Joining

/-!
# The order of parsed nodes

Where the offsets of a tree of the grammar are those of characters and the tree is nested, the nodes of
the parsed file lie in order, apart and inside their parents but for the blanks behind keywords, exactly
if all split imports in it are seamless (`ofCst?_nested_iff`).

That this is enough is `tidy_ofCst`. That it is needed is shown from the root down: where the nodes that
are made of a tree are orderly, so are those of its children (`orderly_ofCst_of_mem`), since putting
statements together leaves out only what is not wide, and nothing is put together in such a thing
(`orderly_ofCst_of_narrow`). An orderly statement that is put together was seamless
(`seamless_of_orderly`).
-/

namespace DeclBundle

open Region

namespace Text

/-- An offset in bytes where a character of a text begins or the text ends. -/
def IsBoundary (s : List Char) (b : Nat) : Prop := ∃ k, byteLength (s.take k) = b

theorem isSome_place?_of_isBoundary {s : List Char} {b : Nat} (h : IsBoundary s b) :
    (place? s b).isSome = true := by
  obtain ⟨k, rfl⟩ := h
  unfold place?
  split
  · rfl
  · have hindex := charIndex?_byteLength_append (s.take k) (s.drop k)
    rw [List.take_append_drop] at hindex
    rw [hindex]
    rfl

/-- In a text of one-byte characters every offset is one of a character. -/
theorem isBoundary_of_le {s : List Char} {b : Nat} (hs : byteLength s = s.length) (hb : b ≤ s.length) :
    IsBoundary s b := by
  refine ⟨b, ?_⟩
  have htake := length_le_byteLength (s.take b)
  have hdrop := length_le_byteLength (s.drop b)
  have happend := byteLength_append (s.take b) (s.drop b)
  rw [List.take_append_drop] at happend
  rw [List.length_take] at htake
  rw [List.length_drop] at hdrop
  omega

end Text

namespace Cst

/-- All split imports in a tree are seamless. -/
def Seamless (text : List Char) (t : Cst) : Prop :=
  ∀ x ∈ t.preorder, type x ≠ "import_require_clause" → ∀ n m (s : SplitImport),
    [n, m] <:+: x.children.map (Node.ofCst text) → s.Reads text n m → s.Seamless

theorem Seamless.of_mem {text : List Char} {t c : Cst} (h : t.Seamless text) (hc : c ∈ t.children) :
    Seamless text c :=
  fun x hx => h x (mem_preorder_iff.2 (Or.inr ⟨c, hc, hx⟩))

theorem fitAll_iff {text : List Char} {cs : List Cst} :
    fitAll text cs = true ↔ ∀ c ∈ cs, fits text c = true := by
  induction cs with
  | nil => simp [fitAll]
  | cons c cs ih => simp [fitAll, ih]

theorem fits_of_isBoundary {text : List Char} (t : Cst)
    (h : ∀ x ∈ t.preorder, Text.IsBoundary text x.start ∧ Text.IsBoundary text x.stop) :
    t.fits text = true := by
  induction t using Region.induction with
  | node t ih =>
      obtain ⟨hstart, hstop⟩ := h t (mem_preorder_iff.2 (Or.inl rfl))
      have hall : fitAll text t.children = true := fitAll_iff.2 fun c hc =>
        ih c hc fun x hx => h x (mem_preorder_iff.2 (Or.inr ⟨c, hc, hx⟩))
      obtain ⟨_, start, stop, children⟩ := t
      rw [fits, Text.isSome_place?_of_isBoundary hstart, Text.isSome_place?_of_isBoundary hstop, hall]
      rfl

end Cst

namespace Node

variable {text : List Char} {n m x : Node} {s : SplitImport} {ns : List Node}

/-- The node of a nested tree whose split imports are seamless is tidy. -/
theorem tidy_ofCst (t : Cst) (ht : t.Nested) (h : t.Seamless text) :
    Tidy text (ofCst text t) (Text.place text t.stop) := by
  induction t using Region.induction with
  | node t ih =>
      rw [tidy_iff, start_ofCst]
      refine row_children_ofCst ht (fun c hc => ih c hc (ht.of_mem_children hc).2.1 (h.of_mem hc))
        (fun _ => .mk) fun htype n m s hnm hs => ?_
      exact row_joined hs (h t (mem_preorder_iff.2 (Or.inl rfl)) htype n m s hnm hs)

/-- What stands in a row when statements are put together stood in it before or is put together. -/
theorem mem_foldAll (hx : x ∈ foldAll text ns) :
    x ∈ ns ∨ ∃ n m, ∃ s : SplitImport, [n, m] <:+: ns ∧ s.Reads text n m ∧ x = s.joined n m := by
  fun_induction foldAll text ns with
  | case1 => exact Or.inl hx
  | case2 => exact Or.inl hx
  | case3 n m ns folded hfolded ih =>
      obtain ⟨s, hs, rfl⟩ := fold?_eq_some_iff.1 hfolded
      rcases List.mem_cons.1 hx with rfl | hx
      · exact Or.inr ⟨n, m, s, (List.prefix_append [n, m] ns).isInfix, hs, rfl⟩
      · have htail : ns <:+: n :: m :: ns := (List.suffix_append [n, m] ns).isInfix
        rcases ih hx with hx | ⟨a, b, s', hab, hs'⟩
        · exact Or.inl (htail.subset hx)
        · exact Or.inr ⟨a, b, s', hab.trans htail, hs'⟩
  | case4 n m ns _ ih =>
      rcases List.mem_cons.1 hx with rfl | hx
      · exact Or.inl List.mem_cons_self
      · have htail : m :: ns <:+: n :: m :: ns := (List.suffix_cons n (m :: ns)).isInfix
        rcases ih hx with hx | ⟨a, b, s, hab, hs⟩
        · exact Or.inl (htail.subset hx)
        · exact Or.inr ⟨a, b, s, hab.trans htail, hs⟩

/-- The parts of a split import are put together wherever they stand in a row. -/
theorem joined_mem_foldAll (hnm : [n, m] <:+: ns) (hs : s.Reads text n m) :
    s.joined n m ∈ foldAll text ns := by
  have hfold : fold? text n m = some (s.joined n m) := fold?_eq_some_iff.2 ⟨s, hs, rfl⟩
  fun_induction foldAll text ns with
  | case1 => simp at hnm
  | case2 a => simpa using hnm.length_le
  | case3 a b ns folded hfolded ih =>
      rcases List.infix_cons_iff.1 hnm with hprefix | hrest
      · obtain ⟨rfl, hnext⟩ := List.cons_prefix_cons.1 hprefix
        obtain ⟨rfl, -⟩ := List.cons_prefix_cons.1 hnext
        rw [hfold] at hfolded
        rw [Option.some.inj hfolded]
        exact List.mem_cons_self
      · rcases List.infix_cons_iff.1 hrest with hprefix | hrest
        · -- The second statement of a split import is not the first of another.
          obtain ⟨rfl, -⟩ := List.cons_prefix_cons.1 hprefix
          have hexport := hs.statement_type
          rw [(label_of_fold? hfolded).2.2] at hexport
          exact absurd hexport (by decide)
        · exact List.mem_cons_of_mem folded (ih hrest)
  | case4 a b ns hnone ih =>
      rcases List.infix_cons_iff.1 hnm with hprefix | hrest
      · obtain ⟨rfl, hnext⟩ := List.cons_prefix_cons.1 hprefix
        obtain ⟨rfl, -⟩ := List.cons_prefix_cons.1 hnext
        rw [hfold] at hnone
        cases hnone
      · exact List.mem_cons_of_mem a (ih hrest)

/-- What holds of both statements of a split import if it holds of the one that they are put together
to holds of a row if it holds of the row that is put together. -/
theorem forall_of_forall_foldAll {Q : Node → Prop}
    (hQ : ∀ n m (s : SplitImport), [n, m] <:+: ns → s.Reads text n m → Q (s.joined n m) → Q n ∧ Q m)
    (h : ∀ x ∈ foldAll text ns, Q x) : ∀ x ∈ ns, Q x := by
  fun_induction foldAll text ns with
  | case1 => exact h
  | case2 => exact h
  | case3 n m ns folded hfolded ih =>
      obtain ⟨s, hs, rfl⟩ := fold?_eq_some_iff.1 hfolded
      obtain ⟨hfirst, hrest⟩ := List.forall_mem_cons.1 h
      have htail : ns <:+: n :: m :: ns := (List.suffix_append [n, m] ns).isInfix
      obtain ⟨hn, hm⟩ := hQ n m s (List.prefix_append [n, m] ns).isInfix hs hfirst
      exact List.forall_mem_cons.2 ⟨hn, List.forall_mem_cons.2
        ⟨hm, ih (fun a b s' hab => hQ a b s' (hab.trans htail)) hrest⟩⟩
  | case4 n m ns _ ih =>
      obtain ⟨hfirst, hrest⟩ := List.forall_mem_cons.1 h
      have htail : m :: ns <:+: n :: m :: ns := (List.suffix_cons n (m :: ns)).isInfix
      exact List.forall_mem_cons.2
        ⟨hfirst, ih (fun a b s hab => hQ a b s (hab.trans htail)) hrest⟩

def Made (text : List Char) (n : Node) : Prop := ∃ t : Cst, t.Nested ∧ ofCst text t = n

namespace Made

theorem row (h : Made text n) (htype : n.type ≠ "declare") :
    Row text (fun _ _ => True) n.start n.stop n.children := by
  obtain ⟨t, ht, rfl⟩ := h
  rw [start_ofCst, (ends_ofCst text t).stop_eq htype]
  exact row_ofCst ht

theorem kind_ne (h : Made text n) (htype : n.type ≠ "declare") : n.kind ≠ .declareKeyword := by
  obtain ⟨t, -, rfl⟩ := h
  rw [type_ofCst] at htype
  rw [kind_ofCst]
  exact fun hkind => htype (Cst.type_of_kindOf_eq_declareKeyword hkind)

theorem of_infix {t : Cst} (ht : t.Nested) (h : [n, m] <:+: t.children.map (ofCst text)) :
    Made text n ∧ Made text m ∧ Precedes n m := by
  have hmade : ∀ x ∈ t.children.map (ofCst text), Made text x := by
    rw [List.forall_mem_map]
    exact fun c hc => ⟨c, (ht.of_mem_children hc).2.1, rfl⟩
  have hrow : Row text (fun _ _ => True) _ _ (t.children.map (ofCst text)) :=
    row_map_ofCst ((nested_iff t).1 ht).2 fun _ _ => trivial
  have hpairs := hrow.pairwise.sublist h.sublist
  exact ⟨hmade n (h.subset (by simp)), hmade m (h.subset (by simp)), by simpa using hpairs⟩

theorem child (h : Made text n) (htype : n.type ≠ "import_require_clause") (hx : x ∈ n.children) :
    Made text x ∨ ∃ a b, ∃ s : SplitImport, Made text a ∧ Made text b ∧ Precedes a b ∧
      s.Reads text a b ∧ x = s.joined a b := by
  obtain ⟨t, ht, rfl⟩ := h
  rw [type_ofCst] at htype
  rw [children_ofCst, arrange_of_ne htype] at hx
  rcases mem_foldAll hx with hx | ⟨a, b, s, hab, hs, rfl⟩
  · obtain ⟨c, hc, rfl⟩ := List.mem_map.1 hx
    exact Or.inl ⟨c, (ht.of_mem_children hc).2.1, rfl⟩
  · obtain ⟨ha, hb, hpair⟩ := of_infix ht hab
    exact Or.inr ⟨a, b, s, ha, hb, hpair, hs, rfl⟩

theorem child_of_type (h : Made text n) (htype : n.type ≠ "import_require_clause")
    (hx : x ∈ n.children) (hexport : x.type ≠ "export_statement") : Made text x := by
  rcases h.child htype hx with hx | ⟨a, b, s, -, -, -, hs, rfl⟩
  · exact hx
  · exact absurd hs.statement_type hexport

end Made

namespace Made

theorem bounds (h : Made text n) (hs : s.Reads text n m) :
    Made text s.imported ∧ n.start ≤ s.imported.start ∧ s.imported.start ≤ s.word.start ∧
      s.word.start < s.word.stop ∧ s.word.stop ≤ s.imported.stop ∧ s.imported.stop ≤ n.stop := by
  have himported : s.imported ∈ n.children := by simp [hs.statement_children]
  have hword : s.word ∈ s.imported.children := by simp [hs.imported_children]
  have hmade : Made text s.imported :=
    h.child_of_type (by simp [hs.statement_type]) himported (by simp [hs.imported_type])
  obtain ⟨e, hstart, -, he, hstop, -⟩ := (h.row (by simp [hs.statement_type])).of_mem himported
  obtain ⟨e', hstart', -, he', hstop', -⟩ :=
    (hmade.row (by simp [hs.imported_type])).of_mem hword
  have hend := he.stop_eq (by simp [hs.imported_type])
  have hend' := he'.stop_eq (by simp [hs.word_type])
  have hwide := hs.word_isToken
  simp only [isToken, isWide, Bool.and_eq_true, decide_eq_true_eq] at hwide
  exact ⟨hmade, hstart, hstart', hwide.1, by omega, by omega⟩

theorem call_bounds (h : Made text m) (hs : s.Reads text n m) :
    Made text s.call ∧ m.start ≤ s.call.start ∧ s.call.start ≤ s.call.stop ∧ s.call.stop ≤ m.stop := by
  have hcall : s.call ∈ m.children := by simp [hs.following_children]
  obtain ⟨e, hstart, hle, he, hstop, -⟩ := (h.row (by simp [hs.following_type])).of_mem hcall
  have hend := he.stop_eq (by simp [hs.call_type])
  exact ⟨h.child_of_type (by simp [hs.following_type]) hcall (by simp [hs.call_type]), hstart,
    by omega, by omega⟩

end Made

/-- A clause is orderly exactly if the nodes that are made of its children are. -/
theorem orderly_clause_iff {t : Cst} (ht : t.Nested) (htype : t.type = "import_require_clause") :
    Orderly (ofCst text t) ↔ ∀ c ∈ t.children, Orderly (ofCst text c) := by
  have hpairs : (ofCst text t).children.Pairwise Precedes := (row_ofCst ht).pairwise
  rw [orderly_iff, and_iff_right hpairs]
  rcases children_clause htype text with h | ⟨before, word, after, hparts, h⟩
  · rw [h, List.forall_mem_map]
  · have hcs := ((nested_iff t).1 ht).2
    rw [hparts] at hcs
    obtain ⟨mid, -, hrest⟩ := hcs.exists_of_append
    have hrow : Row text (fun _ _ => True) _ _ ((word :: after).map (ofCst text)) :=
      row_map_ofCst hrest fun _ _ => trivial
    rw [h, hparts, List.forall_mem_append, List.forall_mem_append, List.forall_mem_map,
      List.forall_mem_singleton, orderly_iff, and_iff_right hrow.pairwise, List.forall_mem_map]

/-- A node of a tree without characters is orderly, since nothing is put together in it. -/
theorem orderly_ofCst_of_narrow (t : Cst) (ht : t.Nested)
    (hnarrow : Text.place text t.stop ≤ Text.place text t.start) : Orderly (ofCst text t) := by
  induction t using Region.induction with
  | node t ih =>
      have hchildren : ∀ c ∈ t.children, Nested c ∧
          Text.place text c.stop ≤ Text.place text c.start := by
        intro c hc
        obtain ⟨hstart, hnested, hstop⟩ := ht.of_mem_children hc
        have hstart' := Text.place_le_place (s := text) hstart
        have hstop' := Text.place_le_place (s := text) hstop
        exact ⟨hnested, by omega⟩
      have horderly : ∀ c ∈ t.children, Orderly (ofCst text c) := fun c hc =>
        ih c hc (hchildren c hc).1 (hchildren c hc).2
      by_cases htype : Cst.type t = "import_require_clause"
      · exact (orderly_clause_iff ht htype).2 horderly
      · refine orderly_iff.2 ⟨(row_ofCst ht).pairwise, fun x hx => ?_⟩
        rw [children_ofCst, arrange_of_ne htype] at hx
        rcases mem_foldAll hx with hx | ⟨a, b, s, hab, hs, rfl⟩
        · exact List.forall_mem_map.2 horderly x hx
        · obtain ⟨c, hc, rfl⟩ := List.mem_map.1 (hab.subset (List.mem_cons_self (l := [b])))
          obtain ⟨hnested, hle⟩ := hchildren c hc
          have hbounds := Made.bounds ⟨c, hnested, rfl⟩ hs
          have hstop := (ends_ofCst text c).stop_eq (by simp [hs.statement_type])
          rw [start_ofCst, hstop] at hbounds
          omega

theorem Made.orderly_of_not_isWide (h : Made text n) (htype : n.type ≠ "import_require_clause")
    (hx : x ∈ n.children) (hwide : x.isWide = false) : Orderly x := by
  have hle : x.stop ≤ x.start := by simpa [isWide] using hwide
  rcases h.child htype hx with ⟨t, ht, rfl⟩ | ⟨a, b, s, ha, hb, hab, hs, rfl⟩
  · refine orderly_ofCst_of_narrow t ht ?_
    rw [start_ofCst] at hle
    rcases ends_ofCst text t with hstop | ⟨-, hstop, -⟩ <;> omega
  · obtain ⟨-, hstart, hstart', hword, hstop, hstop'⟩ := ha.bounds hs
    obtain ⟨-, hcall, hcall', hcall''⟩ := hb.call_bounds hs
    have hbefore := hab (ha.kind_ne (by simp [hs.statement_type]))
    simp only [SplitImport.joined] at hle
    omega

/-- What stays of the parts of a split import is orderly, and lies in order. -/
structure OrderlyParts (s : SplitImport) : Prop where
  beside : ∀ x ∈ s.before ++ s.after, x.isWide = true → Orderly x
  inside : ∀ x ∈ s.left ++ s.right, x.isWide = true → Orderly x
  word : Orderly s.word
  call : ∀ x ∈ s.call.children, Orderly x
  rest : ∀ x ∈ s.rest, Orderly x
  after_joinedImport : ∀ x ∈ s.after, x.isWide = true → Precedes s.joinedImport x
  right_reference : ∀ x ∈ s.right, x.isWide = true → Precedes x s.reference

/-- Of an orderly statement that is put together all that stays is orderly. -/
theorem OrderlyParts.of_joined (hn : Made text n) (hm : Made text m) (hnm : n.stop ≤ m.start)
    (hs : s.Reads text n m) (h : Orderly (s.joined n m)) : OrderlyParts s := by
  obtain ⟨-, -, hword, hwide, hstop, hstop'⟩ := hn.bounds hs
  obtain ⟨-, hcall, hcall', -⟩ := hm.call_bounds hs
  have hlt : s.imported.start < s.call.stop := by omega
  have hjoined : s.joinedImport.isWide = true := decide_eq_true hlt
  obtain ⟨hpairs, hchildren⟩ := orderly_iff.1 h
  simp only [SplitImport.joined, List.filter_append, List.filter_cons_of_pos hjoined]
    at hpairs hchildren
  obtain ⟨hpairs', hinner⟩ := orderly_iff.1 (hchildren s.joinedImport (by simp))
  simp only [SplitImport.joinedImport, List.filter_append] at hpairs' hinner
  obtain ⟨-, hreference⟩ := orderly_iff.1 (hinner s.reference (by simp))
  simp only [SplitImport.reference, List.forall_mem_cons] at hreference
  rw [List.pairwise_append, List.pairwise_append, List.pairwise_cons] at hpairs
  exact {
    beside := fun x hx hwide => hchildren x (by
      rcases List.mem_append.1 hx with hx | hx <;> simp [hx, hwide])
    inside := fun x hx hwide => hinner x (by
      rcases List.mem_append.1 hx with hx | hx <;> simp [hx, hwide])
    word := hreference.1
    call := hreference.2
    rest := fun x hx => hchildren x (by simp [hx])
    after_joinedImport := fun x hx hwide =>
      hpairs.1.2.1.1 x (List.mem_filter.2 ⟨hx, hwide⟩)
    right_reference := fun x hx hwide =>
      (List.pairwise_append.1 hpairs').2.2 x
        (List.mem_append_right _ (List.mem_filter.2 ⟨hx, hwide⟩)) s.reference (by simp) }

/-- Where what stays is orderly, so are the two statements that were put together. -/
theorem OrderlyParts.orderly (hn : Made text n) (hm : Made text m) (hs : s.Reads text n m)
    (h : OrderlyParts s) : Orderly n ∧ Orderly m := by
  obtain ⟨himported, -⟩ := hn.bounds hs
  obtain ⟨hcall, -⟩ := hm.call_bounds hs
  have htype : n.type ≠ "import_require_clause" := by simp [hs.statement_type]
  have himportedType : s.imported.type ≠ "import_require_clause" := by simp [hs.imported_type]
  have horderly : Orderly s.imported := by
    refine orderly_iff.2 ⟨(himported.row (by simp [hs.imported_type])).pairwise, fun x hx => ?_⟩
    cases hwide : x.isWide with
    | false => exact himported.orderly_of_not_isWide himportedType hx hwide
    | true =>
        rw [hs.imported_children, List.mem_append, List.mem_cons] at hx
        rcases hx with hx | rfl | hx
        · exact h.inside x (List.mem_append_left _ hx) hwide
        · exact h.word
        · exact h.inside x (List.mem_append_right _ hx) hwide
  constructor
  · refine orderly_iff.2 ⟨(hn.row (by simp [hs.statement_type])).pairwise, fun x hx => ?_⟩
    cases hwide : x.isWide with
    | false => exact hn.orderly_of_not_isWide htype hx hwide
    | true =>
        rw [hs.statement_children, List.mem_append, List.mem_cons] at hx
        rcases hx with hx | rfl | hx
        · exact h.beside x (List.mem_append_left _ hx) hwide
        · exact horderly
        · exact h.beside x (List.mem_append_right _ hx) hwide
  · refine orderly_iff.2 ⟨(hm.row (by simp [hs.following_type])).pairwise, ?_⟩
    rw [hs.following_children]
    exact List.forall_mem_cons.2
      ⟨orderly_iff.2 ⟨(hcall.row (by simp [hs.call_type])).pairwise, h.call⟩, h.rest⟩

theorem OrderlyParts.seamless (hn : Made text n) (hs : s.Reads text n m) (h : OrderlyParts s) :
    s.Seamless := by
  obtain ⟨himported, -, -, hword, -, -⟩ := hn.bounds hs
  have htype : s.imported.type ≠ "import_require_clause" := by simp [hs.imported_type]
  intro c hc hwide
  rcases List.mem_append.1 hc with hc | hc
  · -- It would have to end before the reference, but stands behind the word.
    have hcomment := hs.type_of_mem_right hc hwide
    have hmade : Made text c :=
      himported.child_of_type htype (by simp [hs.imported_children, hc]) (by simp [hcomment])
    have hmade' : Made text s.word :=
      himported.child_of_type htype (by simp [hs.imported_children]) (by simp [hs.word_type])
    have hpairs := (himported.row (by simp [hs.imported_type])).pairwise
    rw [hs.imported_children, List.pairwise_append, List.pairwise_cons] at hpairs
    have hafter := hpairs.2.1.1 c hc (hmade'.kind_ne (by simp [hs.word_type]))
    have hbefore := h.right_reference c hc hwide (hmade.kind_ne (by simp [hcomment]))
    simp only [SplitImport.reference] at hbefore
    simp only [isWide, decide_eq_true_eq] at hwide
    omega
  · have hkind : s.imported.kind ≠ .declareKeyword := himported.kind_ne (by simp [hs.imported_type])
    exact h.after_joinedImport c hc hwide hkind

/-- Neighbours that make up a split import are put together to a statement whose parts stay. -/
theorem OrderlyParts.of_infix {t : Cst} (ht : t.Nested) (hnm : [n, m] <:+: t.children.map (ofCst text))
    (hs : s.Reads text n m) (h : Orderly (s.joined n m)) :
    Made text n ∧ Made text m ∧ OrderlyParts s := by
  obtain ⟨hn, hm, hpair⟩ := Made.of_infix ht hnm
  exact ⟨hn, hm, .of_joined hn hm (hpair (hn.kind_ne (by simp [hs.statement_type]))) hs h⟩

/-- Where a node that is made of a tree is orderly, so are those of the children of the tree. -/
theorem orderly_ofCst_of_mem {t c : Cst} (ht : t.Nested) (h : Orderly (ofCst text t))
    (hc : c ∈ t.children) : Orderly (ofCst text c) := by
  by_cases htype : t.type = "import_require_clause"
  · exact (orderly_clause_iff ht htype).1 h c hc
  · have hchildren := (orderly_iff.1 h).2
    rw [children_ofCst, arrange_of_ne htype] at hchildren
    refine forall_of_forall_foldAll (fun n m s hnm hs hjoined => ?_) hchildren (ofCst text c)
      (List.mem_map_of_mem hc)
    obtain ⟨hn, hm, hparts⟩ := OrderlyParts.of_infix ht hnm hs hjoined
    exact hparts.orderly hn hm hs

/-- Where the node of a nested tree is orderly, all split imports in the tree are seamless. -/
theorem seamless_of_orderly (t : Cst) (ht : t.Nested) (h : Orderly (ofCst text t)) :
    t.Seamless text := by
  induction t using Region.induction with
  | node t ih =>
      intro x hx htype n m s hnm hs
      rcases mem_preorder_iff.1 hx with rfl | ⟨c, hc, hx⟩
      · have hjoined := joined_mem_foldAll hnm hs
        rw [← arrange_of_ne htype text x.children, ← children_ofCst] at hjoined
        obtain ⟨hn, -, hparts⟩ := OrderlyParts.of_infix ht hnm hs ((orderly_iff.1 h).2 _ hjoined)
        exact hparts.seamless hn hs
      · exact ih c hc (ht.of_mem_children hc).2.1 (orderly_ofCst_of_mem ht h hc) x hx htype n m s hnm hs

end Node

namespace ParsedFile

open Node

/-- The nodes of a file are nested but for the blanks behind keywords exactly if its split imports are
seamless. -/
theorem ofCst?_nested_iff {path text : String} {tree : SyntaxTree}
    (hbounds : ∀ x ∈ tree.root.preorder,
      Text.IsBoundary text.toList x.start ∧ Text.IsBoundary text.toList x.stop)
    (hnested : tree.root.Nested) :
    ∃ f, ofCst? path text tree = some f ∧
      ((∃ tight : Node, tight.Nested ∧ Corresponding (Widened text.toList) tight f.root) ↔
        tree.root.Seamless text.toList) := by
  have hfits := tree.root.fits_of_isBoundary hbounds
  refine ⟨_, if_pos hfits, ?_, ?_⟩
  · rintro ⟨tight, htight, hwide⟩
    exact seamless_of_orderly tree.root hnested (orderly_of_corresponding htight hwide)
  · intro hseamless
    have hle : (ofCst text.toList tree.root).start ≤ Text.place text.toList tree.root.stop := by
      rw [start_ofCst]
      exact Text.place_le_place ((nested_iff _).1 hnested).1
    obtain ⟨tight, -, -, htight, hwide⟩ := exists_tight (ofCst text.toList tree.root) hle
      (ends_ofCst _ _) (tidy_ofCst tree.root hnested hseamless)
    exact ⟨tight, htight, hwide⟩

/-- An import of the word `require` under an export, with a comment before the bracketed string. -/
def commentedRequire : String := "export import A = require /*y*/ ('./a');\n"

def commentedRequireTree : SyntaxTree where
  root := ⟨⟨"program", true, none⟩, 0, 41, [
    ⟨⟨"export_statement", true, none⟩, 0, 31, [
      ⟨⟨"export", false, none⟩, 0, 6, []⟩,
      ⟨⟨"import_alias", true, some "declaration"⟩, 7, 31, [
        ⟨⟨"import", false, none⟩, 7, 13, []⟩,
        ⟨⟨"identifier", true, none⟩, 14, 15, []⟩,
        ⟨⟨"=", false, none⟩, 16, 17, []⟩,
        ⟨⟨"identifier", true, none⟩, 18, 25, []⟩,
        ⟨⟨"comment", true, none⟩, 26, 31, []⟩,
        ⟨⟨";", false, none⟩, 31, 31, []⟩]⟩]⟩,
    ⟨⟨"expression_statement", true, none⟩, 32, 40, [
      ⟨⟨"parenthesized_expression", true, none⟩, 32, 39, [
        ⟨⟨"(", false, none⟩, 32, 33, []⟩,
        ⟨⟨"string", true, none⟩, 33, 38, [
          ⟨⟨"\'", false, none⟩, 33, 34, []⟩,
          ⟨⟨"string_fragment", true, none⟩, 34, 37, []⟩,
          ⟨⟨"\'", false, none⟩, 37, 38, []⟩]⟩,
        ⟨⟨")", false, none⟩, 38, 39, []⟩]⟩,
      ⟨⟨";", false, none⟩, 39, 40, []⟩]⟩]⟩
  hasErrors := false

theorem isBoundary_commentedRequireTree : ∀ x ∈ commentedRequireTree.root.preorder,
    Text.IsBoundary commentedRequire.toList x.start ∧
      Text.IsBoundary commentedRequire.toList x.stop := by
  have hascii : Text.byteLength commentedRequire.toList = commentedRequire.toList.length := by decide
  have hle : ∀ x ∈ commentedRequireTree.root.preorder, x.start ≤ 41 ∧ x.stop ≤ 41 := by decide
  intro x hx
  exact ⟨Text.isBoundary_of_le hascii (hle x hx).1, Text.isBoundary_of_le hascii (hle x hx).2⟩

theorem nested_commentedRequireTree : commentedRequireTree.root.Nested := by
  simp [commentedRequireTree, Nested, NestedFrom]

/-- A comment behind the word `require` comes to lie in the import beside the reference that covers
it. -/
theorem not_nested_commentedRequire :
    commentedRequireTree.root.Nested ∧
      ∃ f, ofCst? "f.d.ts" commentedRequire commentedRequireTree = some f ∧
        ¬ ∃ tight : Node, tight.Nested ∧
          Corresponding (Widened commentedRequire.toList) tight f.root := by
  have hfits := commentedRequireTree.root.fits_of_isBoundary isBoundary_commentedRequireTree
  refine ⟨nested_commentedRequireTree, _, if_pos hfits, ?_⟩
  rintro ⟨tight, htight, hwide⟩
  -- The children of the import, the reference being the last.
  have hchildren : ((ofCst commentedRequire.toList commentedRequireTree.root).get? [0, 1]).map
      (fun x => x.children.map fun c => (kind c, c.start, c.stop)) =
        some [(.other, 7, 13), (.other, 14, 15), (.other, 16, 17), (.other, 26, 31),
          (.externalModuleReference, 18, 39)] := by
    decide +kernel
  obtain ⟨x, hx, hspans⟩ := Option.map_eq_some_iff.1 hchildren
  have hpairs : (x.children.map fun c => (kind c, c.start, c.stop)).Pairwise
      fun p q => p.1 ≠ .declareKeyword → p.2.2 ≤ q.2.1 :=
    List.pairwise_map.2 (orderly_of_corresponding htight hwide [0, 1] x hx)
  rw [hspans] at hpairs
  exact absurd hpairs (by decide)

theorem ofCst?_nested_iff_commentedRequire :
    commentedRequireTree.root.Nested ∧
      ∃ f, ofCst? "f.d.ts" commentedRequire commentedRequireTree = some f ∧
        ((∃ tight : Node, tight.Nested ∧
            Corresponding (Widened commentedRequire.toList) tight f.root) ↔
          commentedRequireTree.root.Seamless commentedRequire.toList) :=
  ⟨nested_commentedRequireTree,
    ofCst?_nested_iff isBoundary_commentedRequireTree nested_commentedRequireTree⟩

end ParsedFile

end DeclBundle
