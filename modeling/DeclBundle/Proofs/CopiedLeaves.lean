import DeclBundle.Proofs.Inset
import DeclBundle.Proofs.ModuleBlock

/-!
# Leaves in the block of a module

A leaf of a tree that is neither rewritten nor part of something that is (`Emission.IsKeptLeaf`) is copied
to the body of the block: no edit takes anything of it away or puts anything into it (`Edit.Keeps`), so its
characters stand there at some place (`stands_substitute`), and the leaves stand there in their order.
Indentation looks at the body as a whole. So a leaf is written to the block with a unit of indentation at
each line with something in it that begins inside of the leaf, and as it is if there is none
(`emission_copies`).
-/

namespace DeclBundle

open Text

namespace Region

namespace Edit

variable {es : List Edit} {source u w : List Char} {i start stop : Nat}

theorem substituteFrom_append_cons (es : List Edit) (i : Nat) (u : List Char) (c : Char)
    (v : List Char) : substituteFrom es i (u ++ c :: v) = substituteFrom es i u ++
      ((if es.any (covers · (i + u.length)) then [] else [c]) ++
        substituteFrom es (i + u.length + 1) v) := by
  induction u generalizing i with
  | nil => simp only [List.nil_append, substituteFrom, List.length_nil, Nat.add_zero]
  | cons d u ih =>
      have hlength : i + 1 + u.length = i + (d :: u).length := by
        rw [List.length_cons]
        omega
      rw [List.cons_append, substituteFrom, ih, substituteFrom, hlength]
      simp only [List.append_assoc]

/-- What is behind a part of a text makes no difference to what is made of that part. -/
theorem substituteFrom_prefix_append (es : List Edit) (i : Nat) (u v : List Char) :
    substituteFrom es i u <+: substituteFrom es i (u ++ v) := by
  cases v with
  | nil => rw [List.append_nil]
  | cons c v =>
      rw [substituteFrom_append_cons]
      exact List.prefix_append _ _

/-- The offset in the new text of the character at an offset of the old one. -/
def placeIn (es : List Edit) (source : List Char) (i : Nat) : Nat :=
  (substituteFrom es 0 (source.take i)).length

theorem take_append_drop_take (source : List Char) {i j : Nat} (h : i ≤ j) :
    source.take i ++ (source.take j).drop i = source.take j := by
  conv_rhs => rw [← List.take_append_drop i (source.take j), List.take_take, Nat.min_eq_left h]

theorem placeIn_mono (es : List Edit) (source : List Char) {i j : Nat} (hij : i ≤ j) :
    placeIn es source i ≤ placeIn es source j := by
  rw [placeIn, placeIn, ← take_append_drop_take source hij]
  exact (substituteFrom_prefix_append es 0 _ _).length_le

/-- Edits take nothing away from a stretch of a text and put nothing into it. -/
structure Keeps (es : List Edit) (start stop : Nat) : Prop where
  uncovered : ∀ e ∈ es, ∀ i, start ≤ i → i < stop → e.covers i = false
  uncut : ∀ e ∈ es, start < e.start → stop ≤ e.start

theorem Keeps.tail (h : Keeps es start stop) : Keeps es (start + 1) stop where
  uncovered e he i hi := h.uncovered e he i (Nat.le_of_succ_le hi)
  uncut e he hlt := h.uncut e he (Nat.lt_of_succ_lt hlt)

/-- Behind its first character a stretch that is kept is copied, up to where other texts are put in. -/
theorem Keeps.substituteFrom_eq (h : Keeps es start (start + 1 + w.length)) :
    substituteFrom es (start + 1) w = w ++ textsAt es (start + 1 + w.length) := by
  induction w generalizing start with
  | nil => rfl
  | cons c w ih =>
      have hlength : start + 1 + (c :: w).length = start + 1 + 1 + w.length := by
        rw [List.length_cons]
        omega
      have hcovers : es.any (covers · (start + 1)) = false := by
        rw [List.any_eq_false]
        intro e he
        rw [h.uncovered e he (start + 1) (Nat.le_succ start) (by rw [hlength]; omega)]
        exact Bool.false_ne_true
      have htexts : textsAt es (start + 1) = [] := by
        rw [textsAt, List.flatMap_eq_nil_iff]
        intro e he
        refine if_neg fun hstart => ?_
        have := h.uncut e he (by omega)
        rw [hlength] at this
        omega
      rw [hlength] at h ⊢
      rw [substituteFrom, htexts, hcovers, ih h.tail]
      rfl

theorem Keeps.append_cons {c : Char} (h : Keeps es u.length (u.length + 1 + w.length)) :
    substituteFrom es 0 (u ++ c :: w) =
      substituteFrom es 0 u ++ (c :: w ++ textsAt es (u.length + 1 + w.length)) := by
  have hcovers : es.any (covers · (0 + u.length)) = false := by
    rw [List.any_eq_false]
    intro e he
    rw [Nat.zero_add, h.uncovered e he u.length (Nat.le_refl _) (by omega)]
    exact Bool.false_ne_true
  rw [substituteFrom_append_cons, hcovers, Nat.zero_add, h.substituteFrom_eq]
  rfl

variable (h : Keeps es start stop) (hle : start ≤ stop) (hstop : stop ≤ source.length)
include h hle hstop

/-- What is made of a text up to the end of a stretch that is kept ends with that stretch, but for the texts
that are put in behind it. -/
theorem Keeps.exists_substituteFrom_take : ∃ rest, substituteFrom es 0 (source.take stop) =
    substituteFrom es 0 (source.take start) ++ ((source.take stop).drop start ++ rest) := by
  have hstretch := take_append_drop_take source hle
  have hlength : (source.take start).length = start := List.length_take_of_le (hle.trans hstop)
  cases hslice : (source.take stop).drop start with
  | nil =>
      rw [hslice, List.append_nil] at hstretch
      exact ⟨[], by rw [← hstretch, List.append_nil, List.append_nil]⟩
  | cons c w =>
      have hcount := congrArg List.length hslice
      rw [List.length_drop, List.length_take_of_le hstop, List.length_cons] at hcount
      obtain rfl : stop = start + 1 + w.length := by omega
      rw [← hlength] at h
      rw [hslice] at hstretch
      exact ⟨_, by rw [← hstretch, h.append_cons]⟩

theorem stands_substitute :
    Stands (substituteFrom es 0 source) (placeIn es source start) ((source.take stop).drop start) := by
  have hbefore := substituteFrom_prefix_append es 0 (source.take start) (source.drop start)
  have hbehind := substituteFrom_prefix_append es 0 (source.take stop) (source.drop stop)
  rw [List.take_append_drop] at hbefore hbehind
  obtain ⟨rest, hrest⟩ := h.exists_substituteFrom_take hle hstop
  obtain ⟨more, hmore⟩ := hbehind
  refine ⟨hbefore.length_le, rest ++ more, ?_⟩
  rw [placeIn, ← hmore, hrest, List.append_assoc, List.drop_left, List.append_assoc]

/-- What comes behind a stretch that is kept comes behind it in the new text, too. -/
theorem placeIn_add_le :
    placeIn es source start + ((source.take stop).drop start).length ≤ placeIn es source stop := by
  obtain ⟨rest, hrest⟩ := h.exists_substituteFrom_take hle hstop
  rw [placeIn, placeIn, hrest, List.length_append, List.length_append]
  omega

end Edit

end Region

namespace Node

theorem laid_of_nested {text : List Char} {root : Node} (h : root.Nested) (hstop : root.stop ≤ text.length) :
    Laid text root where
  within _ _ hn := (h.descendant hn).2.2.trans hstop
  nested := by
    refine ⟨root, h, fun a => ?_, fun a t n ht hn hlt => ?_⟩
    · cases root.get? a with
      | none => exact .none
      | some n => exact .some ⟨rfl, rfl, .inl rfl⟩
    · obtain rfl : t = n := Option.some.inj (ht.symm.trans hn)
      exact absurd hlt (lt_irrefl _)

end Node

namespace Emission

open Region Region.Edit

/-- A node without children that is neither rewritten nor part of a node that is. -/
structure IsKeptLeaf (id : String) (root : Node) (a : List Nat) (n : Node) : Prop where
  get?_eq : root.get? a = some n
  childless : n.children = []
  kept : ∀ b m, b <+: a → root.get? b = some m → ∀ text, ¬ Rewrites id (parentAt none root b) m text

def keptLeaves (id : String) (root : Node) : List (Visit NodeLabel) :=
  (root.visits (replacement id)).filter fun v =>
    v.region.children.isEmpty && (replacement id v.parent v.region).isNone

section Leaves

variable {id : String} {text : List Char} {root m n : Node} {a b : List Nat}

theorem mem_keptLeaves_iff {v : Visit NodeLabel} : v ∈ keptLeaves id root ↔
    IsKeptLeaf id root v.address v.region ∧ v.parent = parentAt none root v.address := by
  rw [keptLeaves, List.mem_filter, mem_visits_iff, Bool.and_eq_true, List.isEmpty_iff,
    Option.isNone_iff_eq_none]
  constructor
  · rintro ⟨⟨hget, hparent, hreached⟩, hchildless, hnone⟩
    refine ⟨⟨hget, hchildless, fun b m hb hm => replacement_eq_none_iff.1 ?_⟩, hparent⟩
    by_cases hne : b = v.address
    · obtain rfl : m = v.region := by
        rw [hne, hget] at hm
        exact (Option.some.inj hm).symm
      rwa [hne, ← hparent]
    · exact hreached b hb hne m hm
  · rintro ⟨⟨hget, hchildless, hkept⟩, hparent⟩
    refine ⟨⟨hget, hparent, fun b hb _ m hm => replacement_eq_none_iff.2 (hkept b m hb hm)⟩,
      hchildless, ?_⟩
    rw [hparent]
    exact replacement_eq_none_iff.2 (hkept _ _ (List.prefix_refl _) hget)

theorem get?_eq_none_of_childless (h : root.get? a = some n) (hn : n.children = []) (hab : a <+: b)
    (hne : a ≠ b) : root.get? b = none := by
  induction a generalizing root b with
  | nil =>
      obtain rfl : root = n := by simpa using h
      cases b with
      | nil => exact absurd rfl hne
      | cons i b => rw [get?_cons, hn, List.getElem?_nil, Option.bind_none]
  | cons i a ih =>
      obtain ⟨b', rfl⟩ := hab
      obtain ⟨c, hc, hcn⟩ := exists_child_of_get?_cons h
      rw [List.cons_append, get?_cons, hc, Option.bind_some]
      refine ih hcn (List.prefix_append _ _) fun heq => hne ?_
      rw [List.cons_append, ← heq]

namespace IsKeptLeaf

variable (h : IsKeptLeaf id root a n)
include h

theorem not_prefix (hm : root.get? b = some m) (hne : a ≠ b) : ¬ a <+: b := by
  intro hab
  rw [get?_eq_none_of_childless h.get?_eq h.childless hab hne] at hm
  cases hm

/-- What comes behind a leaf that is kept begins where it ends, or later. -/
theorem stop_le_start (hlaid : Node.Laid text root) (hm : root.get? b = some m) (hab : a < b) :
    n.stop ≤ m.start := by
  obtain ⟨tight, hnested, hwide, -⟩ := hlaid.nested
  obtain ⟨s, hs, hlabel, -, hstop⟩ := hwide.exists_left h.get?_eq
  obtain ⟨t, ht, -, hstart, -⟩ := hwide.exists_left hm
  rw [hstart]
  rcases hnested.of_lt hs ht hab with ⟨hbelow, -⟩ | hapart
  · exact absurd hbelow (h.not_prefix hm (ne_of_lt hab))
  · rcases hstop with hstop | ⟨hkeyword, -⟩
    · rwa [hstop]
    · -- A keyword would be dropped.
      have hkind : n.kind = .declareKeyword := by rw [Node.kind, hlabel, ← Node.kind, hkeyword]
      exact absurd (.keyword hkind) (h.kept a n (List.prefix_refl a) h.get?_eq "")

theorem keeps (hlaid : Node.Laid text root) :
    Keeps (root.edits (replacement id)) n.start n.stop := by
  have hedit : ∀ e ∈ root.edits (replacement id), ∃ b m, root.get? b = some m ∧ e.start = m.start ∧
      e.stop = m.stop ∧ a ≠ b ∧ ¬ b <+: a := by
    intro e he
    rw [← map_snd_placedEdits] at he
    obtain ⟨⟨b, e⟩, hb, rfl⟩ := List.mem_map.1 he
    obtain ⟨m, hm, hstart, hstop, hrewrites, -⟩ := mem_placedEdits_replacement.1 hb
    have hbelow : ¬ b <+: a := fun hba => h.kept b m hba hm _ hrewrites
    exact ⟨b, m, hm, hstart, hstop, fun hab => hbelow (hab ▸ List.prefix_refl a), hbelow⟩
  constructor
  · intro e he i hstart hstop
    obtain ⟨b, m, hm, hestart, hestop, hne, hbelow⟩ := hedit e he
    rw [Bool.eq_false_iff, ne_eq, covers_iff, hestart, hestop]
    intro hcovers
    rcases lt_or_gt_of_ne hne with hab | hba
    · exact not_covers_of_lt hlaid h.get?_eq hm hab (h.not_prefix hm hne) i ⟨⟨hstart, hstop⟩, hcovers⟩
    · exact not_covers_of_lt hlaid hm h.get?_eq hba hbelow i ⟨hcovers, hstart, hstop⟩
  · intro e he hlt
    obtain ⟨b, m, hm, hestart, -, hne, -⟩ := hedit e he
    rw [hestart] at hlt ⊢
    rcases lt_or_gt_of_ne hne with hab | hba
    · exact h.stop_le_start hlaid hm hab
    · obtain ⟨tight, hnested, hwide, -⟩ := hlaid.nested
      obtain ⟨s, hs, -, hsstart, -⟩ := hwide.exists_left h.get?_eq
      obtain ⟨t, ht, -, htstart, -⟩ := hwide.exists_left hm
      have := hnested.start_le ht hs hba
      omega

end IsKeptLeaf

theorem body_eq_substitute {f : ParsedFile} (hlaid : Node.Laid f.text.toList f.root) :
    (body id f).toList = substituteFrom (f.root.edits (replacement id)) 0 f.text.toList := by
  rw [body, splice_eq_substitute _ _ _ (inOrder_visits hlaid _), substitute, String.toList_ofList]
  intro e he
  rw [← map_snd_placedEdits] at he
  obtain ⟨⟨a, d⟩, hd, rfl⟩ := List.mem_map.1 he
  obtain ⟨n, hn, hstart, -⟩ := mem_placedEdits_replacement.1 hd
  rw [hstart]
  exact (hlaid.start_le_stop hn).trans (hlaid.within a n hn)

end Leaves

/-- A leaf that is kept, and the offset in the body of the block to which it is copied. -/
structure Copy where
  address : List Nat
  leaf : Node
  place : Nat

namespace Copy

def chars (f : ParsedFile) (x : Copy) : List Char := x.leaf.slice f.text.toList

/-- Whether the unit of indentation is put behind the character at an offset of the body. -/
def unitAt (l : Layout) (f : ParsedFile) (i : Nat) : Bool :=
  unitBehind l.eol.toList 0 (body (l.idOf f.path) f).toList i

/-- The characters that are written for the leaf. -/
def written (l : Layout) (f : ParsedFile) (x : Copy) : List Char :=
  inset l.indent.toList (unitAt l f) x.place (x.chars f)

/-- Whether no unit of indentation is put into the leaf. -/
def IsWhole (l : Layout) (f : ParsedFile) (x : Copy) : Prop :=
  ∀ i, x.place < i → i < x.place + (x.chars f).length → unitAt l f (i - 1) = false

theorem written_eq_chars_iff (l : Layout) (f : ParsedFile) (x : Copy) :
    x.written l f = x.chars f ↔ l.indent = "" ∨ x.IsWhole l f := by
  rw [written, inset_eq_self_iff, String.toList_eq_nil_iff]
  rfl

/-- With one of the two line ends no unit is put into a leaf if no line with something in it begins
there. -/
theorem isWhole_iff {l : Layout} (heol : Settings.IsEol l.eol) {f : ParsedFile} {x : Copy}
    (hstands : Stands (body (l.idOf f.path) f).toList x.place (x.chars f)) : x.IsWhole l f ↔
      ∀ i, x.place < i → i < x.place + (x.chars f).length →
        ¬ LineBegins l.eol.toList (body (l.idOf f.path) f).toList i := by
  have hlength := hstands.starts.length_le
  rw [List.length_drop] at hlength
  have hle := hstands.le
  refine forall_congr' fun i => forall_congr' fun hplace => forall_congr' fun hi => ?_
  have hbehind := unitBehind_iff (toList_eol heol) (s := (body (l.idOf f.path) f).toList) (i := i - 1)
    (by omega)
  rw [Nat.sub_add_cancel (Nat.one_le_of_lt hplace)] at hbehind
  rw [← hbehind, Bool.not_eq_true, unitAt]

end Copy

/-- The leaves of a file that are kept, each with the offset to which it is copied. -/
def copies (id : String) (f : ParsedFile) : List Copy :=
  (keptLeaves id f.root).map fun v =>
    ⟨v.address, v.region, placeIn (f.root.edits (replacement id)) f.text.toList v.region.start⟩

section Copies

variable {id : String} {f : ParsedFile}

theorem isKeptLeaf_iff_exists_copy {a : List Nat} {n : Node} :
    IsKeptLeaf id f.root a n ↔ ∃ x ∈ copies id f, x.address = a ∧ x.leaf = n := by
  simp only [copies, List.mem_map, mem_keptLeaves_iff]
  constructor
  · intro h
    exact ⟨_, ⟨⟨a, parentAt none f.root a, n⟩, ⟨h, rfl⟩, rfl⟩, rfl, rfl⟩
  · rintro ⟨_, ⟨v, ⟨h, -⟩, rfl⟩, rfl, rfl⟩
    exact h

theorem copies_sorted (id : String) (f : ParsedFile) :
    ((copies id f).map Copy.address).Pairwise (· < ·) := by
  rw [copies, List.map_map]
  exact (visits_sorted (replacement id) f.root).sublist (List.filter_sublist.map Visit.address)

variable (hlaid : Node.Laid f.text.toList f.root)
include hlaid

theorem stands_copy {x : Copy} (hx : x ∈ copies id f) :
    Stands (body id f).toList x.place (x.chars f) := by
  obtain ⟨v, hv, rfl⟩ := List.mem_map.1 hx
  obtain ⟨h, -⟩ := mem_keptLeaves_iff.1 hv
  rw [body_eq_substitute hlaid]
  exact stands_substitute (h.keeps hlaid) (hlaid.start_le_stop h.get?_eq) (hlaid.within _ _ h.get?_eq)

theorem copies_apart :
    (copies id f).Pairwise fun x y => x.place + (x.chars f).length ≤ y.place := by
  refine List.pairwise_map.2 ?_
  have hsorted : (keptLeaves id f.root).Pairwise fun v w => v.address < w.address :=
    (List.pairwise_map.1 (visits_sorted (replacement id) f.root)).sublist List.filter_sublist
  refine hsorted.imp_of_mem fun {v w} hv hw hvw => ?_
  obtain ⟨hleaf, -⟩ := mem_keptLeaves_iff.1 hv
  obtain ⟨hnext, -⟩ := mem_keptLeaves_iff.1 hw
  have hapart := hleaf.stop_le_start hlaid hnext.get?_eq hvw
  exact (placeIn_add_le (hleaf.keeps hlaid) (hlaid.start_le_stop hleaf.get?_eq)
    (hlaid.within _ _ hleaf.get?_eq)).trans (placeIn_mono _ _ hapart)

theorem woven_copies {l : Layout} (hmodule : f.isModule = true) :
    Woven ((copies (l.idOf f.path) f).map (Copy.written l f)) (l.emission f).toList := by
  have hstands : ∀ x ∈ (copies (l.idOf f.path) f).map fun x => (x.place, x.chars f),
      Stands (body (l.idOf f.path) f).toList x.1 x.2 :=
    List.forall_mem_map.2 fun x hx => stands_copy hlaid hx
  have hrow := woven_spread l.indent.toList (Copy.unitAt l f) hstands
    (List.pairwise_map.2 (copies_apart hlaid)) fun x _ => Nat.zero_le x.1
  rw [List.drop_zero, List.map_map] at hrow
  have hnest : (nest l.eol l.indent (body (l.idOf f.path) f)).toList =
      spread l.indent.toList (Copy.unitAt l f) 0 (body (l.idOf f.path) f).toList := by
    rw [nest, String.toList_ofList, nestFrom_eq_spread]
    rfl
  simp only [Layout.emission, hmodule, if_true, block, String.toList_append, hnest]
  exact (((hrow.prepend _).append _).append _).append _

end Copies

/-- The leaves of a module that are kept stand in its block in their order, each as it is written
(`Copy.written`). This is as it is in the file exactly if the unit of indentation is empty or is not put
into the leaf; with one of the two line ends it is put into a leaf in which a line with something in it
begins. Whichever leaves one looks at, they stand in the block as they are if it is put into none of
them. -/
theorem emission_copies {l : Layout} {f : ParsedFile} (hmodule : f.isModule = true)
    (hlaid : Node.Laid f.text.toList f.root) :
    ∃ copies : List Copy,
      (copies.map Copy.address).Pairwise (· < ·) ∧
      (∀ a n, IsKeptLeaf (l.idOf f.path) f.root a n ↔ ∃ x ∈ copies, x.address = a ∧ x.leaf = n) ∧
      (∀ x ∈ copies, Stands (body (l.idOf f.path) f).toList x.place (x.chars f)) ∧
      Woven (copies.map (Copy.written l f)) (l.emission f).toList ∧
      (∀ x ∈ copies, x.written l f = x.chars f ↔ l.indent = "" ∨ x.IsWhole l f) ∧
      (Settings.IsEol l.eol → ∀ x ∈ copies, x.IsWhole l f ↔
        ∀ i, x.place < i → i < x.place + (x.chars f).length →
          ¬ LineBegins l.eol.toList (body (l.idOf f.path) f).toList i) ∧
      ∀ p : Copy → Bool, (∀ x ∈ copies, p x = true → l.indent = "" ∨ x.IsWhole l f) →
        Woven ((copies.filter p).map (Copy.chars f)) (l.emission f).toList := by
  have hwoven : Woven ((copies (l.idOf f.path) f).map (Copy.written l f)) (l.emission f).toList :=
    woven_copies hlaid hmodule
  refine ⟨copies (l.idOf f.path) f, copies_sorted _ _, fun a n => isKeptLeaf_iff_exists_copy,
    fun x hx => stands_copy hlaid hx, hwoven, fun x _ => x.written_eq_chars_iff l f,
    fun heol x hx => Copy.isWhole_iff heol (stands_copy hlaid hx), fun p hp => ?_⟩
  have hsame : ((copies (l.idOf f.path) f).filter p).map (Copy.written l f) =
      ((copies (l.idOf f.path) f).filter p).map (Copy.chars f) := by
    refine List.map_congr_left fun x hx => ?_
    obtain ⟨hx, hpx⟩ := List.mem_filter.1 hx
    exact (x.written_eq_chars_iff l f).2 (hp x hx hpx)
  rw [← hsame]
  exact hwoven.sublist (List.filter_sublist.map _)

/-- A module with a type that is a text of two lines. -/
def templateModule : ParsedFile where
  path := "/p/f.d.ts"
  text := "export type A = \x60a\nb\x60;\n"
  root :=
    ⟨⟨.sourceFile, "program", false, none⟩, 0, 23, [
      ⟨⟨.declaration, "export_statement", true, none⟩, 0, 22, [
        ⟨⟨.other, "export", false, none⟩, 0, 6, []⟩,
        ⟨⟨.declaration, "type_alias_declaration", false, none⟩, 7, 22, [
          ⟨⟨.other, "type", false, none⟩, 7, 11, []⟩,
          ⟨⟨.other, "type_identifier", false, none⟩, 12, 13, []⟩,
          ⟨⟨.other, "=", false, none⟩, 14, 15, []⟩,
          ⟨⟨.other, "template_literal_type", false, none⟩, 16, 21, [
            ⟨⟨.other, "\x60", false, none⟩, 16, 17, []⟩,
            ⟨⟨.other, "string_fragment", false, none⟩, 17, 20, []⟩,
            ⟨⟨.other, "\x60", false, none⟩, 20, 21, []⟩]⟩,
          ⟨⟨.other, ";", false, none⟩, 21, 22, []⟩]⟩]⟩]⟩
  hasErrors := false

def templateLayout : Layout := ⟨"/", "/p", "pkg", "\n", "\t"⟩

theorem exists_keptLeaf_templateModule : ∃ n,
    IsKeptLeaf (templateLayout.idOf templateModule.path) templateModule.root [0, 1, 3, 1] n ∧
      n.isComment = false ∧ n.slice templateModule.text.toList = "a\nb".toList := by
  have hmem : [0, 1, 3, 1] ∈ (keptLeaves (templateLayout.idOf templateModule.path)
      templateModule.root).map Visit.address := by decide +kernel
  obtain ⟨v, hv, haddress⟩ := List.mem_map.1 hmem
  obtain ⟨h, -⟩ := mem_keptLeaves_iff.1 hv
  rw [haddress] at h
  have hleaf : (templateModule.root.get? [0, 1, 3, 1]).map (fun n => (Node.isComment n,
      Node.slice templateModule.text.toList n)) = some (false, "a\nb".toList) := by decide +kernel
  rw [h.get?_eq, Option.map_some, Option.some.injEq, Prod.mk.injEq] at hleaf
  exact ⟨v.region, h, hleaf⟩

theorem not_infix_templateModule :
    ¬ "a\nb".toList <:+: (templateLayout.emission templateModule).toList := by
  decide +kernel

/-- A text of two lines between backquotes has the unit of indentation in it afterwards. -/
theorem exists_keptLeaf_not_infix : ∃ n,
    IsKeptLeaf (templateLayout.idOf templateModule.path) templateModule.root [0, 1, 3, 1] n ∧
      n.isComment = false ∧ n.slice templateModule.text.toList = "a\nb".toList ∧
      ¬ n.slice templateModule.text.toList <:+: (templateLayout.emission templateModule).toList ∧
      templateLayout.emission templateModule =
        "\ndeclare module 'pkg/f' \x7b\n\texport type A = \x60a\n\tb\x60;\n\n\x7d\n" := by
  obtain ⟨n, hn, hcomment, hslice⟩ := exists_keptLeaf_templateModule
  exact ⟨n, hn, hcomment, hslice, hslice ▸ not_infix_templateModule, by decide +kernel⟩

theorem emission_copies_templateModule : templateModule.isModule = true ∧
    Node.Laid templateModule.text.toList templateModule.root ∧
      ∃ (copies : List Copy) (x : Copy), x ∈ copies ∧ x.address = [0, 1, 3, 1] ∧
        x.chars templateModule = "a\nb".toList ∧
        x.written templateLayout templateModule ≠ x.chars templateModule ∧
        Woven (copies.map (Copy.written templateLayout templateModule))
          (templateLayout.emission templateModule).toList := by
  have hmodule : templateModule.isModule = true := by decide +kernel
  have hlaid : Node.Laid templateModule.text.toList templateModule.root :=
    Node.laid_of_nested (by simp [templateModule, nested_iff, nestedFrom_cons]) (by decide)
  obtain ⟨copies, -, hleaves, -, hwoven, -⟩ := emission_copies (l := templateLayout) hmodule hlaid
  obtain ⟨n, hn, -, hslice⟩ := exists_keptLeaf_templateModule
  obtain ⟨x, hx, haddress, rfl⟩ := (hleaves _ _).1 hn
  refine ⟨hmodule, hlaid, copies, x, hx, haddress, hslice, fun hsame => ?_, hwoven⟩
  have hinfix := hwoven.infix_of_mem (List.mem_map_of_mem hx)
  rw [hsame, Copy.chars, hslice] at hinfix
  exact not_infix_templateModule hinfix

end Emission

end DeclBundle
