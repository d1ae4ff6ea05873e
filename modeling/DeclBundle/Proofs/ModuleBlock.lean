import DeclBundle.Emission
import DeclBundle.Proofs.NestedSplice

/-!
# The block of a module

What the bundle holds of one file. `Rewrites id parent n text` lists what is put in for nodes of a
module: nothing for the word that makes a declaration ambient, an id for a relative specifier.
`IsEdit` says this of an address, where only the outermost of nested nodes counts. `Laid` is what a
parser promises of the stretches of its nodes: those of a nested tree in the text, in which a
keyword may also cover the blank behind it if nothing else does.

`emission_eq_substitute`: the emission of a module is a block around the text in which exactly these
edits are made at once, and that of a script is its text.
-/

namespace DeclBundle

open Region Region.Edit

namespace Node

/-- The same node, but that a keyword may also cover the blank behind it. -/
def Widened (text : List Char) (t n : Node) : Prop :=
  n.label = t.label ∧ n.start = t.start ∧
    (n.stop = t.stop ∨
      t.kind = .declareKeyword ∧ n.stop = t.stop + 1 ∧
        (text[t.stop]? = some ' ' ∨ text[t.stop]? = some '\t'))

/-- The nodes of a tree lie in a text, nested but for the blanks behind keywords, which no other
node with characters covers unless it lies above. -/
structure Laid (text : List Char) (root : Node) : Prop where
  within : ∀ a n, root.get? a = some n → n.stop ≤ text.length
  nested : ∃ tight : Node, tight.Nested ∧ Corresponding (Widened text) tight root ∧
    ∀ a t n, tight.get? a = some t → root.get? a = some n → t.stop < n.stop →
      ∀ b m, root.get? b = some m → ¬ b <+: a → ¬ (m.start ≤ t.stop ∧ t.stop < m.stop)

theorem Laid.start_le_stop {text : List Char} {root n : Node} (h : Laid text root) {a : List Nat}
    (hn : root.get? a = some n) : n.start ≤ n.stop := by
  obtain ⟨tight, hnested, hwide, -⟩ := h.nested
  obtain ⟨t, ht, -, hstart, hstop⟩ := hwide.exists_left hn
  have hle : t.start ≤ t.stop := ((nested_iff t).1 (hnested.descendant ht).2.1).1
  rcases hstop with hstop | ⟨-, hstop, -⟩
  · omega
  · omega

end Node

namespace Emission

/-- The texts that stand for nodes in the module with an id. -/
inductive Rewrites (id : String) (parent : Option Node) (n : Node) : String → Prop
  | keyword (hk : n.kind = .declareKeyword) : Rewrites id parent n ""
  | reference {m : Node} {s : String} (hk : n.kind = .externalModuleReference)
      (hm : n.findChild? .stringLiteral = some m) (hs : m.label.literal = some s)
      (hr : isRelative s = true) :
      Rewrites id parent n ("require('" ++ Module.resolveId id s ++ "')")
  | specifier {p : Node} {s : String} (hk : n.kind = .stringLiteral) (hp : parent = some p)
      (hpk : p.kind = .importDeclaration ∨ p.kind = .exportDeclaration)
      (hs : n.label.literal = some s) (hr : isRelative s = true) :
      Rewrites id parent n ("'" ++ Module.resolveId id s ++ "'")

theorem specifier?_eq_some_iff {n : Node} {s : String} :
    specifier? n = some s ↔ n.label.literal = some s ∧ isRelative s = true := by
  rw [specifier?, Option.filter_eq_some_iff]

theorem bearsSpecifier_iff {parent : Option Node} :
    bearsSpecifier parent = true ↔
      ∃ p, parent = some p ∧ (p.kind = .importDeclaration ∨ p.kind = .exportDeclaration) := by
  cases parent with
  | none => simp [bearsSpecifier]
  | some p => simp [bearsSpecifier]

theorem replacement_eq_some_iff {id : String} {parent : Option Node} {n : Node} {text : String} :
    replacement id parent n = some text ↔ Rewrites id parent n text := by
  constructor
  · intro h
    unfold replacement at h
    split at h
    case h_1 hk =>
      obtain ⟨s, hs, rfl⟩ := Option.map_eq_some_iff.1 h
      obtain ⟨m, hm, hms⟩ := Option.bind_eq_some_iff.1 hs
      obtain ⟨hlit, hrel⟩ := specifier?_eq_some_iff.1 hms
      exact .reference hk hm hlit hrel
    case h_2 hk =>
      obtain rfl : "" = text := Option.some.inj h
      exact .keyword hk
    case h_3 hk =>
      split at h
      case isTrue hb =>
        obtain ⟨p, hp, hpk⟩ := bearsSpecifier_iff.1 hb
        obtain ⟨s, hs, rfl⟩ := Option.map_eq_some_iff.1 h
        obtain ⟨hlit, hrel⟩ := specifier?_eq_some_iff.1 hs
        exact .specifier hk hp hpk hlit hrel
      case isFalse => cases h
    case h_4 => cases h
  · intro h
    cases h with
    | keyword hk => rw [replacement, hk]
    | @reference m s hk hm hs hr =>
        have hspec : specifier? m = some s := specifier?_eq_some_iff.2 ⟨hs, hr⟩
        simp only [replacement, hk, hm, Option.bind_some, hspec, Option.map_some]
    | @specifier p s hk hp hpk hs hr =>
        have hspec : specifier? n = some s := specifier?_eq_some_iff.2 ⟨hs, hr⟩
        have hbears : bearsSpecifier parent = true := bearsSpecifier_iff.2 ⟨p, hp, hpk⟩
        simp only [replacement, hk, hbears, if_true, hspec, Option.map_some]

theorem replacement_eq_none_iff {id : String} {parent : Option Node} {n : Node} :
    replacement id parent n = none ↔ ∀ text, ¬ Rewrites id parent n text := by
  rw [Option.eq_none_iff_forall_ne_some]
  exact forall_congr' fun text => not_congr replacement_eq_some_iff

/-- An edit belongs to a node at an address, and no node above it is rewritten. -/
def IsEdit (id : String) (root : Node) (a : List Nat) (e : Edit) : Prop :=
  ∃ n, root.get? a = some n ∧ e.start = n.start ∧ e.stop = n.stop ∧
    Rewrites id (parentAt none root a) n e.text ∧
    ∀ b m, b <+: a → b ≠ a → root.get? b = some m →
      ∀ text, ¬ Rewrites id (parentAt none root b) m text

theorem mem_placedEdits_replacement {id : String} {root : Node} {a : List Nat} {e : Edit} :
    (a, e) ∈ root.placedEdits (replacement id) ↔ IsEdit id root a e := by
  rw [mem_placedEdits_iff_isTopmost]
  constructor
  · rintro ⟨⟨n, hn, hstart, hstop, htext⟩, hreached⟩
    exact ⟨n, hn, hstart, hstop, replacement_eq_some_iff.1 htext, fun b m hb hne hm =>
      replacement_eq_none_iff.1 (hreached b hb hne m hm)⟩
  · rintro ⟨n, hn, hstart, hstop, htext, habove⟩
    exact ⟨⟨n, hn, hstart, hstop, replacement_eq_some_iff.2 htext⟩, fun b hb hne m hm =>
      replacement_eq_none_iff.2 (habove b m hb hne hm)⟩

theorem not_prefix_of_lt {a b : List Nat} (h : a < b) : ¬ b <+: a := fun hp => hp.le h

/-- In a tree that is laid out in a text the regions of a walk begin in order. -/
theorem inOrder_visits {text : List Char} {root : Node} (h : Node.Laid text root)
    (replace : Replacement NodeLabel) : InOrder (root.visits replace) := by
  obtain ⟨tight, hnested, hwide, -⟩ := h.nested
  refine (List.pairwise_map.1 (visits_sorted replace root)).imp_of_mem fun {v w} hv hw hvw => ?_
  obtain ⟨s, hs, -, hvs, -⟩ := hwide.exists_left (mem_visits_iff.1 hv).1
  obtain ⟨t, ht, -, hwt, -⟩ := hwide.exists_left (mem_visits_iff.1 hw).1
  rw [hvs, hwt]
  exact hnested.start_le hs ht hvw

/-- Two nodes of which neither lies above the other have no character in common. -/
theorem not_covers_of_lt {text : List Char} {root m n : Node} (h : Node.Laid text root)
    {a b : List Nat} (hm : root.get? a = some m) (hn : root.get? b = some n) (hab : a < b)
    (hp : ¬ a <+: b) (i : Nat) : ¬ ((m.start ≤ i ∧ i < m.stop) ∧ n.start ≤ i ∧ i < n.stop) := by
  rintro ⟨⟨-, hmi⟩, hni, hin⟩
  obtain ⟨tight, hnested, hwide, hblank⟩ := h.nested
  obtain ⟨s, hs, -, -, hstop⟩ := hwide.exists_left hm
  obtain ⟨t, ht, -, hstart, -⟩ := hwide.exists_left hn
  have hst : s.stop ≤ t.start := by
    rcases hnested.of_lt hs ht hab with ⟨hpre, -⟩ | hst
    · exact absurd hpre hp
    · exact hst
  rcases hstop with hstop | ⟨-, hstop, -⟩
  · omega
  · -- Only the blank behind the keyword is left, and that no other node covers.
    refine hblank a s m hs hm (by omega) b n hn (not_prefix_of_lt hab) ⟨?_, ?_⟩
    · omega
    · omega

/-- The emission of a module is a block around the text with all its edits made at once; that of a
script is its text. -/
theorem emission_eq_substitute (l : Layout) (f : ParsedFile) :
    (f.isModule = false → l.emission f = f.text) ∧
    (f.isModule = true → Node.Laid f.text.toList f.root →
      ∃ es : List (List Nat × Edit),
        (es.Pairwise fun x y =>
          x.1 < y.1 ∧ ∀ i, ¬ (x.2.covers i = true ∧ y.2.covers i = true)) ∧
        (∀ a e, (a, e) ∈ es ↔ IsEdit (l.idOf f.path) f.root a e) ∧
        l.emission f =
          l.eol ++ "declare module '" ++ l.idOf f.path ++ "' \x7b" ++ l.eol ++ l.indent ++
            nest l.eol l.indent (substitute f.text (es.map Prod.snd)) ++ l.eol ++ "\x7d" ++
            l.eol) := by
  refine ⟨fun h => by simp [Layout.emission, h], fun h hlaid => ?_⟩
  refine ⟨f.root.placedEdits (replacement (l.idOf f.path)), ?_, fun a e =>
    mem_placedEdits_replacement, ?_⟩
  · refine (placedEdits_sorted _ f.root).imp_of_mem ?_
    rintro ⟨a, d⟩ ⟨b, e⟩ hd he hab
    obtain ⟨m, hm, hdstart, hdstop, hdtext, -⟩ := mem_placedEdits_replacement.1 hd
    obtain ⟨n, hn, hestart, hestop, -, habove⟩ := mem_placedEdits_replacement.1 he
    refine ⟨hab, fun i => ?_⟩
    have hp : ¬ a <+: b := fun hp => habove a m hp (ne_of_lt hab) hm d.text hdtext
    rw [covers_iff, covers_iff, hdstart, hdstop, hestart, hestop]
    exact not_covers_of_lt hlaid hm hn hab hp i
  · have hsplice : body (l.idOf f.path) f =
        substitute f.text (f.root.edits (replacement (l.idOf f.path))) := by
      apply splice_eq_substitute _ _ _ (inOrder_visits hlaid _)
      intro e he
      rw [← map_snd_placedEdits] at he
      obtain ⟨⟨a, d⟩, hd, rfl⟩ := List.mem_map.1 he
      obtain ⟨n, hn, hstart, -⟩ := mem_placedEdits_replacement.1 hd
      rw [hstart]
      exact (hlaid.start_le_stop hn).trans (hlaid.within a n hn)
    rw [map_snd_placedEdits, ← hsplice]
    simp only [Layout.emission, h, if_true, block]

/-- A module that imports another one and declares something with a keyword and its blank. -/
def ambientModule (keywordStop : Nat) : ParsedFile where
  path := "/p/a.d.ts"
  text := "import './b';\nexport declare let x;"
  root :=
    ⟨⟨.sourceFile, "program", false, none⟩, 0, 35, [
      ⟨⟨.importDeclaration, "import_statement", false, none⟩, 0, 13, [
        ⟨⟨.stringLiteral, "string", false, some "./b"⟩, 7, 12, []⟩]⟩,
      ⟨⟨.declaration, "export_statement", true, none⟩, 14, 35, [
        ⟨⟨.declareKeyword, "declare", false, none⟩, 21, keywordStop, []⟩]⟩]⟩
  hasErrors := false

theorem laid_ambientModule :
    Node.Laid (ambientModule 29).text.toList (ambientModule 29).root where
  within := by
    have hstop : ∀ v ∈ (ambientModule 29).root.visits (fun _ _ => none),
        v.region.stop ≤ (ambientModule 29).text.toList.length := by
      decide
    intro a n hn
    obtain ⟨v, hv, rfl, rfl⟩ := exists_visit_of_get? hn
    exact hstop v hv
  nested := by
    have hsame : ∀ t : Node, Node.Widened (ambientModule 29).text.toList t t := fun t =>
      ⟨rfl, rfl, Or.inl rfl⟩
    have hblank : ∀ v ∈ (ambientModule 28).root.visits (fun _ _ => none),
        ∀ n ∈ (ambientModule 29).root.get? v.address, v.region.stop < n.stop →
          ∀ w ∈ (ambientModule 29).root.visits (fun _ _ => none), ¬ w.address <+: v.address →
            ¬ (w.region.start ≤ v.region.stop ∧ v.region.stop < w.region.stop) := by
      decide
    refine ⟨(ambientModule 28).root, by simp [ambientModule, nested_iff, nestedFrom_cons], ?_, ?_⟩
    · refine corresponding_of_children ⟨rfl, rfl, Or.inl rfl⟩ (.cons ?_ (.cons ?_ .nil))
      · refine corresponding_of_children (hsame _) (.cons ?_ .nil)
        exact corresponding_of_children (hsame _) .nil
      · refine corresponding_of_children ⟨rfl, rfl, Or.inl rfl⟩ (.cons ?_ .nil)
        exact corresponding_of_children ⟨rfl, rfl, Or.inr ⟨rfl, rfl, Or.inl (by decide)⟩⟩ .nil
    · intro a t n ht hn hlt b m hm
      obtain ⟨v, hv, rfl, rfl⟩ := exists_visit_of_get? ht
      obtain ⟨w, hw, rfl, rfl⟩ := exists_visit_of_get? hm
      exact hblank v hv n hn hlt w hw

theorem emission_ambientModule :
    (ambientModule 29).isModule = true ∧
    Node.Laid (ambientModule 29).text.toList (ambientModule 29).root ∧
    ∃ es : List (List Nat × Edit),
      (es.Pairwise fun x y =>
        x.1 < y.1 ∧ ∀ i, ¬ (x.2.covers i = true ∧ y.2.covers i = true)) ∧
      (∀ a e, (a, e) ∈ es ↔
        IsEdit (Layout.idOf ⟨"/", "/p", "pkg", "\n", "\t"⟩ "/p/a.d.ts") (ambientModule 29).root
          a e) ∧
      Layout.emission ⟨"/", "/p", "pkg", "\n", "\t"⟩ (ambientModule 29) =
        "\n" ++ "declare module '" ++ Layout.idOf ⟨"/", "/p", "pkg", "\n", "\t"⟩ "/p/a.d.ts" ++
          "' \x7b" ++ "\n" ++ "\t" ++
          nest "\n" "\t" (substitute (ambientModule 29).text (es.map Prod.snd)) ++ "\n" ++ "\x7d" ++
          "\n" :=
  ⟨by decide, laid_ambientModule,
    (emission_eq_substitute ⟨"/", "/p", "pkg", "\n", "\t"⟩ (ambientModule 29)).2 (by decide)
      laid_ambientModule⟩

end Emission

end DeclBundle
