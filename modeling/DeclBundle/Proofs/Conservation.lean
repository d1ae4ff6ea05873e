import DeclBundle.Proofs.Visit
import Mathlib.Data.List.Sort

/-!
# Splicing conserves text

Nothing ties the regions of a tree to each other or to the text here: they may overlap, run
backwards or pass the end. `Keeps length low high es ps` says what the parts `ps` keep of the text
between two offsets while the edits `es` are made: its characters in order, each at most once, and
all those that lie in no replaced stretch. A step of the walk has this property between its two
cursors, and steps one after another have it together, so a whole walk has it (`keeps_walk`). The
main statement is `splice_conserves`.
-/

namespace DeclBundle

namespace Part

def copied (length : Nat) : Part → List Nat
  | kept start stop => List.range' start (min stop length - start)
  | put _ => []

/-- The offsets of the characters that a row of parts keeps. -/
def offsets (length : Nat) (parts : List Part) : List Nat := parts.flatMap (copied length)

def text? : Part → Option String
  | kept _ _ => none
  | put text => some text

def texts (parts : List Part) : List String := parts.filterMap text?

theorem offsets_append (length : Nat) (ps qs : List Part) :
    offsets length (ps ++ qs) = offsets length ps ++ offsets length qs := by
  simp [offsets]

theorem texts_append (ps qs : List Part) : texts (ps ++ qs) = texts ps ++ texts qs := by
  simp [texts]

theorem filterMap_range'_getElem? (source : List Char) (start n : Nat) :
    (List.range' start n).filterMap (source[·]?) = (source.drop start).take n := by
  induction n generalizing start with
  | zero => simp
  | succ n ih =>
      rw [List.range'_succ, List.filterMap_cons, ih (start + 1)]
      by_cases h : start < source.length
      · rw [List.getElem?_eq_getElem h, List.drop_eq_getElem_cons h, List.take_succ_cons]
      · have hnone : source[start]? = none := List.getElem?_eq_none (Nat.le_of_not_lt h)
        have hdrop : source.drop start = [] := List.drop_eq_nil_of_le (Nat.le_of_not_lt h)
        have hdrop' : source.drop (start + 1) = [] := List.drop_eq_nil_of_le (by omega)
        simp [hnone, hdrop, hdrop']

theorem chars_kept (source : List Char) (start stop : Nat) :
    chars source (kept start stop) =
      (copied source.length (kept start stop)).filterMap (source[·]?) := by
  have htake : (source.take stop) = source.take (min stop source.length) := by
    rw [← List.take_take, List.take_length]
  rw [copied, filterMap_range'_getElem?, chars, htake, List.drop_take]

theorem lt_of_mem_offsets {length i : Nat} {parts : List Part} (h : i ∈ offsets length parts) :
    i < length := by
  obtain ⟨p, -, hp⟩ := List.mem_flatMap.1 h
  cases p with
  | put text => simp [copied] at hp
  | kept start stop =>
      rw [copied, List.mem_range'_1] at hp
      omega

theorem render_of_texts_eq_nil (source : List Char) (parts : List Part) (h : texts parts = []) :
    render source parts = (offsets source.length parts).filterMap (source[·]?) := by
  induction parts with
  | nil => simp [offsets]
  | cons p parts ih =>
      cases p with
      | put text => simp [texts, text?] at h
      | kept start stop =>
          have hrest : texts parts = [] := by simpa [texts, text?] using h
          rw [render_cons, ih hrest, chars_kept]
          simp [offsets]

end Part

namespace Region

variable {α : Type}

/-- What parts keep of a text between two offsets while edits are made. -/
structure Keeps (length low high : Nat) (es : List Edit) (ps : List Part) : Prop where
  le : low ≤ high
  increasing : (Part.offsets length ps).Pairwise (· < ·)
  between : ∀ i ∈ Part.offsets length ps, low ≤ i ∧ i < high
  complete : ∀ i, low ≤ i → i < high → i < length →
    i ∈ Part.offsets length ps ∨ ∃ e ∈ es, e.start ≤ i ∧ i < e.stop
  texts : Part.texts ps = es.map Edit.text

namespace Keeps

variable {length low mid high : Nat}

theorem nil (length low : Nat) : Keeps length low low [] [] where
  le := Nat.le_refl low
  increasing := by simp [Part.offsets]
  between := by simp [Part.offsets]
  complete := fun i hlow hhigh _ => absurd hlow (Nat.not_le_of_lt hhigh)
  texts := rfl

theorem append {es fs : List Edit} {ps qs : List Part} (h : Keeps length low mid es ps)
    (h' : Keeps length mid high fs qs) : Keeps length low high (es ++ fs) (ps ++ qs) where
  le := Nat.le_trans h.le h'.le
  increasing := by
    rw [Part.offsets_append, List.pairwise_append]
    refine ⟨h.increasing, h'.increasing, ?_⟩
    intro i hi j hj
    exact Nat.lt_of_lt_of_le (h.between i hi).2 (h'.between j hj).1
  between := by
    intro i hi
    rw [Part.offsets_append, List.mem_append] at hi
    rcases hi with hi | hi
    · exact ⟨(h.between i hi).1, Nat.lt_of_lt_of_le (h.between i hi).2 h'.le⟩
    · exact ⟨Nat.le_trans h.le (h'.between i hi).1, (h'.between i hi).2⟩
  complete := by
    intro i hlow hhigh hlen
    rw [Part.offsets_append, List.mem_append]
    by_cases hmid : i < mid
    · rcases h.complete i hlow hmid hlen with hi | ⟨e, he, hs⟩
      · exact Or.inl (Or.inl hi)
      · exact Or.inr ⟨e, List.mem_append_left fs he, hs⟩
    · rcases h'.complete i (Nat.le_of_not_lt hmid) hhigh hlen with hi | ⟨e, he, hs⟩
      · exact Or.inl (Or.inr hi)
      · exact Or.inr ⟨e, List.mem_append_right es he, hs⟩
  texts := by rw [Part.texts_append, List.map_append, h.texts, h'.texts]

theorem kept (length low stop : Nat) :
    Keeps length low (max low stop) [] [.kept low stop] where
  le := Nat.le_max_left low stop
  increasing := by
    simpa [Part.offsets, Part.copied] using List.pairwise_lt_range'
  between := by
    intro i hi
    simp only [Part.offsets, Part.copied, List.flatMap_cons, List.flatMap_nil, List.append_nil,
      List.mem_range'_1] at hi
    omega
  complete := by
    intro i hlow hhigh hlen
    refine Or.inl ?_
    simp only [Part.offsets, Part.copied, List.flatMap_cons, List.flatMap_nil, List.append_nil,
      List.mem_range'_1]
    omega
  texts := rfl

theorem gap (length cursor start : Nat) :
    Keeps length cursor (max cursor start) [] (gap cursor start) := by
  by_cases h : cursor < start
  · rw [Region.gap, if_pos h]
    exact kept length cursor start
  · rw [Region.gap, if_neg h, Nat.max_eq_left (Nat.le_of_not_lt h)]
    exact nil length cursor

theorem put {start : Nat} (h : start ≤ low) (length stop : Nat) (text : String) :
    Keeps length low (max low stop) [⟨start, stop, text⟩] [.put text] where
  le := Nat.le_max_left low stop
  increasing := by simp [Part.offsets, Part.copied]
  between := by simp [Part.offsets, Part.copied]
  complete := by
    intro i hlow hhigh _
    refine Or.inr ⟨_, List.mem_singleton_self _, Nat.le_trans h hlow, ?_⟩
    show i < stop
    omega
  texts := rfl

end Keeps

mutual

theorem keeps_walk (length : Nat) (replace : Replacement α) (parent : Option (Region α))
    (cursor : Nat) :
    ∀ r : Region α,
      Keeps length cursor (walk replace parent cursor r).cursor (editsFrom replace parent r)
        (walk replace parent cursor r).parts
  | ⟨label, start, stop, children⟩ => by
      have hgap := Keeps.gap length cursor start
      cases h : replace parent ⟨label, start, stop, children⟩ with
      | some text =>
          have hput := Keeps.put (Nat.le_max_right cursor start) length stop text
          rw [editsFrom_of_some h, walk]
          simp only [h]
          simpa using hgap.append hput
      | none =>
          have hall := keeps_walkAll length replace (some ⟨label, start, stop, children⟩)
            (max cursor start) children
          rw [editsFrom_of_none h, walk]
          simp only [h]
          simpa using hgap.append hall

theorem keeps_walkAll (length : Nat) (replace : Replacement α) (parent : Option (Region α))
    (cursor : Nat) :
    ∀ rs : List (Region α),
      Keeps length cursor (walkAll replace parent cursor rs).cursor (editsAll replace parent rs)
        (walkAll replace parent cursor rs).parts
  | [] => by
      rw [editsAll_nil, walkAll]
      exact Keeps.nil length cursor
  | c :: cs => by
      have hc := keeps_walk length replace parent cursor c
      have hcs := keeps_walkAll length replace parent (walk replace parent cursor c).cursor cs
      rw [editsAll_cons, walkAll]
      exact hc.append hcs

end

/-- A whole splice keeps what it does not replace, up to the end of the text. -/
theorem keeps_spliceParts (length : Nat) (root : Region α) (replace : Replacement α) :
    Keeps length 0 (max (walk replace none 0 root).cursor length) (root.edits replace)
      (root.spliceParts length replace) := by
  have hwalk := keeps_walk length replace none 0 root
  have hrest := Keeps.kept length (walk replace none 0 root).cursor length
  simpa [edits, spliceParts] using hwalk.append hrest

theorem splice_none (source : String) (root : Region α) :
    root.splice source (fun _ _ => none) = source := by
  have hkeeps := keeps_spliceParts source.toList.length root fun _ _ => none
  have hedits : root.edits (fun _ _ => none) = [] := by
    rw [edits, editsFrom, List.filterMap_eq_nil_iff]
    exact fun _ _ => rfl
  rw [hedits] at hkeeps
  have hoffsets : Part.offsets source.toList.length
      (root.spliceParts source.toList.length fun _ _ => none) =
      List.range source.toList.length := by
    apply hkeeps.increasing.eq_of_mem_iff List.pairwise_lt_range
    intro i
    rw [List.mem_range]
    refine ⟨Part.lt_of_mem_offsets, fun hi => ?_⟩
    rcases hkeeps.complete i (Nat.zero_le i) (by omega) hi with h | ⟨e, he, -⟩
    · exact h
    · simp at he
  rw [splice, Part.render_of_texts_eq_nil _ _ hkeeps.texts, hoffsets, List.range_eq_range',
    Part.filterMap_range'_getElem?, List.drop_zero, List.take_length, String.ofList_toList]

/-- Whatever the regions are, a splice puts in the replacements in the order in which they were
given, keeps characters of the text in their order and none of them twice, and loses only characters
that lie in a replaced region. The labels may be anything, so a replacement may tell each region of a
tree from all others. -/
theorem splice_conserves (source : String) (root : Region α) (replace : Replacement α) :
    (∃ parts : List Part,
      (root.splice source replace).toList = Part.render source.toList parts ∧
      Part.texts parts = (root.edits replace).map Edit.text ∧
      (Part.offsets source.toList.length parts).Pairwise (· < ·) ∧
      ∀ i < source.toList.length, i ∈ Part.offsets source.toList.length parts ∨
        ∃ e ∈ root.edits replace, e.start ≤ i ∧ i < e.stop) ∧
    root.visited replace = (root.visits replace).map Visit.region ∧
    root.splice source (fun _ _ => none) = source := by
  have hkeeps := keeps_spliceParts source.toList.length root replace
  refine ⟨⟨root.spliceParts source.toList.length replace, ?_, hkeeps.texts, hkeeps.increasing, ?_⟩,
    visited_eq_map_visits root replace, splice_none source root⟩
  · rw [splice, String.toList_ofList]
  · intro i hi
    exact hkeeps.complete i (Nat.zero_le i) (by omega) hi

end Region

end DeclBundle
