import DeclBundle.Proofs.Nesting
import DeclBundle.Proofs.Substitution

/-!
# Splices of nested trees

In a nested tree the regions that a walk asks for begin in order, so a splice makes its edits at once.
The edits are those of the topmost replaced regions (`IsTopmost`): no two of them overlap, since neither
of two topmost regions lies in the other. Each region above which nothing is replaced is asked for once,
and before those in it (`splice_nested`).
-/

namespace DeclBundle

namespace Region

open Edit

variable {α : Type} {root : Region α}

def Reached (replace : Replacement α) (root : Region α) (a : List Nat) : Prop :=
  ∀ b, b <+: a → b ≠ a → ∀ m, root.get? b = some m → replace (parentAt none root b) m = none

/-- An edit is that of the region at an address, and no region above it is replaced. -/
structure IsTopmost (replace : Replacement α) (root : Region α) (a : List Nat) (e : Edit) : Prop where
  replaced : ∃ n, root.get? a = some n ∧ e.start = n.start ∧ e.stop = n.stop ∧
    replace (parentAt none root a) n = some e.text
  reached : Reached replace root a

theorem mem_placedEdits_iff_isTopmost {replace : Replacement α} {a : List Nat} {e : Edit} :
    (a, e) ∈ root.placedEdits replace ↔ IsTopmost replace root a e := by
  rw [mem_placedEdits_iff]
  constructor
  · rintro ⟨p, n, hv, he⟩
    obtain ⟨hn, rfl, hreached⟩ := mem_visits_iff.1 hv
    obtain ⟨text, htext, rfl⟩ := Option.map_eq_some_iff.1 he
    exact ⟨⟨n, hn, rfl, rfl, htext⟩, hreached⟩
  · rintro ⟨⟨n, hn, hstart, hstop, htext⟩, hreached⟩
    refine ⟨_, n, mem_visits_iff.2 ⟨hn, rfl, hreached⟩, ?_⟩
    obtain ⟨start, stop, text⟩ := e
    obtain rfl : start = n.start := hstart
    obtain rfl : stop = n.stop := hstop
    rw [Visit.edit?, htext, Option.map_some]

theorem IsTopmost.not_prefix {replace : Replacement α} {a b : List Nat} {d e : Edit}
    (hd : IsTopmost replace root a d) (he : IsTopmost replace root b e) (hne : a ≠ b) : ¬ a <+: b := by
  intro hprefix
  obtain ⟨n, hn, -, -, htext⟩ := hd.replaced
  rw [he.reached a hprefix hne n hn] at htext
  cases htext

namespace Nested

variable (h : root.Nested)
include h

theorem inOrder_visits (replace : Replacement α) : InOrder (root.visits replace) :=
  (List.pairwise_map.1 (visits_sorted replace root)).imp_of_mem fun hv hw hvw =>
    h.start_le (mem_visits_iff.1 hv).1 (mem_visits_iff.1 hw).1 hvw

theorem stop_le_start_of_isTopmost {replace : Replacement α} {a b : List Nat} {d e : Edit}
    (hd : IsTopmost replace root a d) (he : IsTopmost replace root b e) (hab : a < b) :
    d.stop ≤ e.start := by
  have hne : a ≠ b := ne_of_lt hab
  obtain ⟨m, hm, -, hstop, -⟩ := hd.replaced
  obtain ⟨n, hn, hstart, -, -⟩ := he.replaced
  rw [hstop, hstart]
  rcases h.of_lt hm hn hab with ⟨hfirst, -⟩ | hapart
  · exact absurd hfirst (hd.not_prefix he hne)
  · exact hapart

theorem bounds_of_isTopmost {replace : Replacement α} {a : List Nat} {e : Edit}
    (he : IsTopmost replace root a e) : e.start ≤ e.stop ∧ e.stop ≤ root.stop := by
  obtain ⟨n, hn, hstart, hstop, -⟩ := he.replaced
  obtain ⟨-, hnested, hle⟩ := h.descendant hn
  rw [hstart, hstop]
  exact ⟨((nested_iff n).1 hnested).1, hle⟩

end Nested

/-- A splice of a nested tree replaces the stretches of the topmost replaced regions, which lie apart, and
keeps everything else. It asks for each region with no replaced region above it, once and in the order in
which regions come before those in them. -/
theorem splice_nested {source : String} (hnested : root.Nested)
    (hstop : root.stop ≤ source.toList.length) (replace : Replacement α) :
    ∃ (es : List (List Nat × Edit)) (vs : List (Visit α)),
      (es.Pairwise fun x y => x.1 < y.1 ∧ x.2.stop ≤ y.2.start) ∧
      (∀ a e, (a, e) ∈ es ↔ IsTopmost replace root a e) ∧
      (∀ x ∈ es, x.2.start ≤ x.2.stop ∧ x.2.stop ≤ source.toList.length) ∧
      root.splice source replace = substitute source (es.map Prod.snd) ∧
      root.visited replace = vs.map Visit.region ∧
      (vs.map Visit.address).Pairwise (· < ·) ∧
      ∀ v, v ∈ vs ↔ root.get? v.address = some v.region ∧
        v.parent = parentAt none root v.address ∧ Reached replace root v.address := by
  have htopmost : ∀ x ∈ root.placedEdits replace, IsTopmost replace root x.1 x.2 := fun _ hx =>
    mem_placedEdits_iff_isTopmost.1 hx
  have hbounds : ∀ x ∈ root.placedEdits replace,
      x.2.start ≤ x.2.stop ∧ x.2.stop ≤ source.toList.length := by
    intro x hx
    obtain ⟨hle, hroot⟩ := hnested.bounds_of_isTopmost (htopmost x hx)
    exact ⟨hle, hroot.trans hstop⟩
  refine ⟨root.placedEdits replace, root.visits replace, ?_, fun _ _ => mem_placedEdits_iff_isTopmost,
    hbounds, ?_, visited_eq_map_visits root replace, visits_sorted replace root,
    fun _ => mem_visits_iff⟩
  · refine (placedEdits_sorted replace root).imp_of_mem fun hx hy hxy => ⟨hxy, ?_⟩
    exact hnested.stop_le_start_of_isTopmost (htopmost _ hx) (htopmost _ hy) hxy
  · rw [map_snd_placedEdits]
    refine splice_eq_substitute source root replace (hnested.inOrder_visits replace) fun e he => ?_
    rw [← map_snd_placedEdits, List.mem_map] at he
    obtain ⟨x, hx, rfl⟩ := he
    exact (hbounds x hx).1.trans (hbounds x hx).2

/-- A tree whose labels tell its regions apart. -/
def numberedTree : Region Nat :=
  ⟨0, 0, 9, [⟨1, 1, 4, [⟨2, 2, 3, []⟩]⟩, ⟨3, 4, 4, []⟩, ⟨4, 4, 6, []⟩, ⟨5, 7, 9, [⟨6, 8, 9, []⟩]⟩]⟩

/-- The first child is replaced with what lies in it, the next two stand side by side, and of the last one
only what lies in it is replaced. -/
def numberedReplacement : Replacement Nat := fun _ r =>
  match r.label with
  | 1 => some "X"
  | 2 => some "lost"
  | 3 => some "Y"
  | 4 => some ""
  | 6 => some "Z"
  | _ => none

theorem splice_nested_numberedTree :
    numberedTree.Nested ∧ numberedTree.stop ≤ "abcdefghij".toList.length ∧
      numberedTree.splice "abcdefghij" numberedReplacement = "aXYghZj" ∧
      ∃ (es : List (List Nat × Edit)) (vs : List (Visit Nat)),
        (es.Pairwise fun x y => x.1 < y.1 ∧ x.2.stop ≤ y.2.start) ∧
        (∀ a e, (a, e) ∈ es ↔ IsTopmost numberedReplacement numberedTree a e) ∧
        (∀ x ∈ es, x.2.start ≤ x.2.stop ∧ x.2.stop ≤ "abcdefghij".toList.length) ∧
        numberedTree.splice "abcdefghij" numberedReplacement =
          substitute "abcdefghij" (es.map Prod.snd) ∧
        numberedTree.visited numberedReplacement = vs.map Visit.region ∧
        (vs.map Visit.address).Pairwise (· < ·) ∧
        ∀ v, v ∈ vs ↔ numberedTree.get? v.address = some v.region ∧
          v.parent = parentAt none numberedTree v.address ∧
          Reached numberedReplacement numberedTree v.address := by
  have hnested : numberedTree.Nested := by simp [numberedTree, nested_iff, nestedFrom_cons]
  have hstop : numberedTree.stop ≤ "abcdefghij".toList.length := by decide
  exact ⟨hnested, hstop, by decide +kernel, splice_nested hnested hstop numberedReplacement⟩

end Region

end DeclBundle
