import DeclBundle.Proofs.ModuleBlock

/-!
# Rows of nodes

`Row text P low high ns` says that nodes lie in order and apart between two offsets, but for the blanks
behind keywords, and that `P` holds of each of them together with the offset where it ends. A `Tidy`
node has a row of tidy children in it, so it is nested but for these blanks (`exists_tight`).

`Orderly` is less: wherever two nodes lie side by side in a tree, the first ends before the second
begins, unless it is a keyword. It follows from the same (`orderly_of_corresponding`).
-/

namespace DeclBundle.Node

open Region

variable {text : List Char} {P : Node → Nat → Prop} {low mid high : Nat} {n : Node} {ns ms : List Node}

/-- Where a node ends but for the blank behind a keyword. -/
def Ends (text : List Char) (n : Node) (e : Nat) : Prop :=
  n.stop = e ∨ (n.kind = .declareKeyword ∧ n.type = "declare") ∧ n.stop = e + 1 ∧
    (text[e]? = some ' ' ∨ text[e]? = some '\t')

theorem Ends.stop_eq {e : Nat} (h : Ends text n e) (htype : n.type ≠ "declare") : n.stop = e :=
  h.resolve_right fun h => htype h.1.2

theorem Ends.stop_eq_of_kind {e : Nat} (h : Ends text n e) (hkind : n.kind ≠ .declareKeyword) :
    n.stop = e :=
  h.resolve_right fun h => hkind h.1.1

/-- A node ends before another one begins, unless it is a keyword. -/
def Precedes (n m : Node) : Prop := n.kind ≠ .declareKeyword → n.stop ≤ m.start

/-- Nodes lie in order and apart between two offsets, but for the blanks behind keywords. -/
inductive Row (text : List Char) (P : Node → Nat → Prop) : Nat → Nat → List Node → Prop
  | nil {low high : Nat} : low ≤ high → Row text P low high []
  | cons {low e high : Nat} {n : Node} {ns : List Node} :
      low ≤ n.start → n.start ≤ e → Ends text n e → P n e → Row text P e high ns →
        Row text P low high (n :: ns)

/-- A node with a row of tidy children in it. -/
inductive Tidy (text : List Char) : Node → Nat → Prop
  | mk {n : Node} {e : Nat} : Row text (Tidy text) n.start e n.children → Tidy text n e

theorem row_cons_iff : Row text P low high (n :: ns) ↔ ∃ e, low ≤ n.start ∧ n.start ≤ e ∧
    Ends text n e ∧ P n e ∧ Row text P e high ns := by
  constructor
  · intro h
    cases h with
    | cons hlow hn he hP hrest => exact ⟨_, hlow, hn, he, hP, hrest⟩
  · rintro ⟨e, hlow, hn, he, hP, hrest⟩
    exact .cons hlow hn he hP hrest

theorem tidy_iff {e : Nat} : Tidy text n e ↔ Row text (Tidy text) n.start e n.children :=
  ⟨fun | .mk h => h, .mk⟩

namespace Row

theorem le (h : Row text P low high ns) : low ≤ high := by
  induction h with
  | nil hle => exact hle
  | cons hlow hle _ _ _ ih => exact hlow.trans (hle.trans ih)

theorem mono_left {low' : Nat} (h : Row text P low high ns) (hle : low' ≤ low) :
    Row text P low' high ns := by
  cases h with
  | nil h => exact .nil (hle.trans h)
  | cons hlow hn he hP hrest => exact .cons (hle.trans hlow) hn he hP hrest

theorem append (h : Row text P low mid ns) (h' : Row text P mid high ms) :
    Row text P low high (ns ++ ms) := by
  induction h with
  | nil hle => exact h'.mono_left hle
  | cons hlow hn he hP _ ih => exact .cons hlow hn he hP (ih h')

theorem exists_of_append (h : Row text P low high (ns ++ ms)) :
    ∃ mid, Row text P low mid ns ∧ Row text P mid high ms := by
  induction ns generalizing low with
  | nil => exact ⟨low, .nil le_rfl, h⟩
  | cons n ns ih =>
      obtain ⟨e, hlow, hn, he, hP, hrest⟩ := row_cons_iff.1 h
      obtain ⟨mid, hns, hms⟩ := ih hrest
      exact ⟨mid, .cons hlow hn he hP hns, hms⟩

theorem filter (h : Row text P low high ns) (p : Node → Bool) : Row text P low high (ns.filter p) := by
  induction h with
  | nil hle => exact .nil hle
  | @cons low e high n ns hlow hn he hP _ ih =>
      rw [List.filter_cons]
      split
      · exact .cons hlow hn he hP ih
      · exact ih.mono_left (hlow.trans hn)

theorem of_mem (h : Row text P low high ns) (hn : n ∈ ns) :
    ∃ e, low ≤ n.start ∧ n.start ≤ e ∧ Ends text n e ∧ e ≤ high ∧ P n e := by
  induction h with
  | nil => simp at hn
  | @cons low e high m ns hlow hm he hP hrest ih =>
      rcases List.mem_cons.1 hn with rfl | hn
      · exact ⟨e, hlow, hm, he, hrest.le, hP⟩
      · obtain ⟨e', hlow', hrest'⟩ := ih hn
        exact ⟨e', hlow.trans (hm.trans hlow'), hrest'⟩

/-- The nodes of a row that are left begin where the first of them does. -/
theorem filter_from {p : Node → Bool} {start : Nat} (h : Row text P low high ns)
    (hstart : ∀ n ∈ ns, p n = true → start ≤ n.start) (hhigh : high ≤ start) :
    Row text P start start (ns.filter p) := by
  induction h with
  | nil => exact .nil le_rfl
  | @cons low e high n ns hlow hn he hP hrest ih =>
      have hns := ih (fun m hm => hstart m (List.mem_cons_of_mem n hm)) hhigh
      rw [List.filter_cons]
      split
      case isTrue hp =>
        have hle : e ≤ start := hrest.le.trans hhigh
        have hfirst := hstart n List.mem_cons_self hp
        exact .cons hfirst hn he hP (hns.mono_left hle)
      case isFalse => exact hns

theorem pairwise (h : Row text P low high ns) : ns.Pairwise Precedes := by
  induction h with
  | nil => exact .nil
  | @cons low e high n ns _ _ he _ hrest ih =>
      refine .cons (fun m hm hkind => ?_) ih
      obtain ⟨_, hle, -⟩ := hrest.of_mem hm
      rw [he.stop_eq_of_kind hkind]
      exact hle

end Row

mutual

theorem exists_tight : ∀ (n : Node) {e : Nat}, n.start ≤ e → Ends text n e → Tidy text n e →
    ∃ t : Node, t.start = n.start ∧ t.stop = e ∧ t.Nested ∧ Corresponding (Widened text) t n
  | ⟨label, start, stop, children⟩, e, hle, he, h => by
    obtain ⟨ts, hts, hall⟩ := exists_tights children (tidy_iff.1 h)
    have hstop : Widened text ⟨label, start, e, ts⟩ ⟨label, start, stop, children⟩ := by
      refine ⟨rfl, rfl, ?_⟩
      rcases he with he | ⟨⟨hkind, -⟩, he, hblank⟩
      · exact Or.inl he
      · exact Or.inr ⟨hkind, he, hblank⟩
    exact ⟨⟨label, start, e, ts⟩, rfl, rfl, (nested_iff _).2 ⟨hle, hts⟩,
      corresponding_of_children hstop hall⟩

theorem exists_tights : ∀ (ns : List Node) {low high : Nat}, Row text (Tidy text) low high ns →
    ∃ ts : List Node, NestedFrom low high ts ∧ List.Forall₂ (Corresponding (Widened text)) ts ns
  | [], low, high, h => ⟨[], (nestedFrom_nil low high).2 h.le, .nil⟩
  | n :: ns, low, high, h => by
    obtain ⟨e, hlow, hle, he, hn, hrest⟩ := row_cons_iff.1 h
    obtain ⟨t, hstart, hstop, ht, hcorr⟩ := exists_tight n hle he hn
    obtain ⟨ts, hts, hall⟩ := exists_tights ns hrest
    exact ⟨t :: ts, (nestedFrom_cons low high t ts).2 ⟨hstart ▸ hlow, ht, hstop ▸ hts⟩,
      .cons hcorr hall⟩

end

/-- Wherever nodes lie side by side in a tree, each precedes those behind it. -/
def Orderly (n : Node) : Prop :=
  ∀ a (x : Node), n.get? a = some x → x.children.Pairwise Precedes

theorem orderly_iff :
    Orderly n ↔ n.children.Pairwise Precedes ∧ ∀ c ∈ n.children, Orderly c := by
  constructor
  · intro h
    refine ⟨h [] n (get?_nil n), fun c hc a x hx => ?_⟩
    obtain ⟨i, hi⟩ := List.mem_iff_getElem?.1 hc
    exact h (i :: a) x (by rw [get?_cons, hi, Option.bind_some, hx])
  · rintro ⟨hpairs, hchildren⟩ a x hx
    cases a with
    | nil =>
        obtain rfl : n = x := by simpa using hx
        exact hpairs
    | cons i a =>
        obtain ⟨c, hc, hcx⟩ := exists_child_of_get?_cons hx
        exact hchildren c (List.mem_of_getElem? hc) a x hcx

/-- A tree that is nested but for the blanks behind keywords is orderly. -/
theorem orderly_of_corresponding {t : Node} (ht : t.Nested) (h : Corresponding (Widened text) t n) :
    Orderly n := by
  intro a
  induction a generalizing t n with
  | nil =>
      intro x hx
      obtain rfl : n = x := by simpa using hx
      rw [List.pairwise_iff_getElem]
      intro i j hi hj hij hkind
      have hchild : ∀ k (hk : k < n.children.length),
          ∃ c, t.children[k]? = some c ∧ Widened text c n.children[k] := by
        intro k hk
        obtain ⟨c, hc, hwide⟩ := h.exists_left (a := [k]) (y := n.children[k]) (by simp [get?_cons, hk])
        exact ⟨c, by simpa [get?_cons] using hc, hwide⟩
      obtain ⟨c, hc, hlabel, -, hstop⟩ := hchild i hi
      obtain ⟨d, hd, -, hstart, -⟩ := hchild j hj
      have hkind' : kind c ≠ .declareKeyword := by rwa [kind, ← hlabel]
      rw [hstart, hstop.resolve_right fun hwide => hkind' hwide.1]
      exact ((nested_iff t).1 ht).2.stop_le_start hc hd hij
  | cons i a ih =>
      intro x hx
      obtain ⟨c, hc, hcx⟩ := exists_child_of_get?_cons hx
      obtain ⟨d, hd, -⟩ := h.exists_left (a := [i]) (y := c) (by simp [get?_cons, hc])
      have hd' : t.children[i]? = some d := by simpa [get?_cons] using hd
      refine ih (((nested_iff t).1 ht).2.child hd').2.1 (fun b => ?_) x hcx
      have hb := h (i :: b)
      rwa [get?_cons, get?_cons, hc, hd', Option.bind_some, Option.bind_some] at hb

end DeclBundle.Node
