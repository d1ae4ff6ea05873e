import DeclBundle.Proofs.ParsedOrder

/-!
# Drafts

A draft is a text into which characters were put. `former` is the text without them and `revised` the text
with them. A place in the draft is a place in both texts; `back` leads from the one in the revised text to
the one in the former text, which is the number of former characters before it.

Where nothing was put in the two texts have the same characters (`slice_eq`), and a stretch that does not
consist of what was put in has characters in both (`back_lt_back`). Behind a word the revised text may have
what was put in where the former text has a blank (`skipBlank_eq`).
-/

namespace DeclBundle

/-- A text into which characters were put, each of its characters with whether it was put in. -/
abbrev Draft := List (Char × Bool)

namespace Draft

def former (d : Draft) : List Char := (d.filter fun x => !x.2).map Prod.fst

def revised (d : Draft) : List Char := d.map Prod.fst

def back (d : Draft) (k : Nat) : Nat := (former (d.take k)).length

def formerByte (d : Draft) (k : Nat) : Nat := Text.byteLength (former (d.take k))

def revisedByte (d : Draft) (k : Nat) : Nat := Text.byteLength (revised (d.take k))

def Plain (d : Draft) (k l : Nat) : Prop := ∀ x ∈ (d.take l).drop k, x.2 = false

instance (d : Draft) (k l : Nat) : Decidable (Plain d k l) :=
  inferInstanceAs (Decidable (∀ x ∈ (d.take l).drop k, x.2 = false))

def putIn (d : Draft) (k l : Nat) : Bool := ((d.take l).drop k).all Prod.snd

variable {d : Draft} {k l : Nat}

theorem former_append (d e : Draft) : former (d ++ e) = former d ++ former e := by
  simp [former]

@[simp] theorem length_revised (d : Draft) : (revised d).length = d.length := by
  simp [revised]

theorem former_eq_revised (h : ∀ x ∈ d, x.2 = false) : former d = revised d := by
  rw [former, revised, List.filter_eq_self.2 fun x hx => by simp [h x hx]]

theorem former_take (d : Draft) (k : Nat) : former (d.take k) = (former d).take (back d k) := by
  have hsplit := former_append (d.take k) (d.drop k)
  rw [List.take_append_drop] at hsplit
  rw [hsplit, back, List.take_left]

theorem back_le_length (d : Draft) (k : Nat) : back d k ≤ (former d).length := by
  have h := congrArg List.length (former_take d k)
  rw [List.length_take, ← back] at h
  omega

theorem revised_take (d : Draft) (k : Nat) : revised (d.take k) = (revised d).take k :=
  List.map_take

/-- The characters between two places, with the former ones before them. -/
theorem take_eq (d : Draft) (hkl : k ≤ l) : d.take l = d.take k ++ (d.take l).drop k := by
  have hcut : (d.take l).take k = d.take k := by rw [List.take_take, Nat.min_eq_left hkl]
  rw [← hcut, List.take_append_drop]

theorem back_eq (d : Draft) (hkl : k ≤ l) :
    back d l = back d k + (former ((d.take l).drop k)).length := by
  have hsplit := congrArg List.length (former_append (d.take k) ((d.take l).drop k))
  rwa [← take_eq d hkl, List.length_append, ← back, ← back] at hsplit

theorem back_mono (d : Draft) (hkl : k ≤ l) : back d k ≤ back d l := by
  rw [back_eq d hkl]
  omega

theorem place_formerByte (d : Draft) (k : Nat) :
    Text.place (former d) (formerByte d k) = back d k := by
  rw [formerByte, former_take]
  exact Text.place_byteLength_take (back_le_length d k)

theorem place_revisedByte (hk : k ≤ d.length) : Text.place (revised d) (revisedByte d k) = k := by
  rw [revisedByte, revised_take]
  exact Text.place_byteLength_take (by rwa [length_revised])

theorem isBoundary_formerByte (d : Draft) (k : Nat) : Text.IsBoundary (former d) (formerByte d k) :=
  ⟨back d k, by rw [formerByte, former_take]⟩

theorem isBoundary_revisedByte (d : Draft) (k : Nat) :
    Text.IsBoundary (revised d) (revisedByte d k) :=
  ⟨k, by rw [revisedByte, revised_take]⟩

theorem former_slice (d : Draft) (hkl : k ≤ l) :
    ((former d).take (back d l)).drop (back d k) = former ((d.take l).drop k) := by
  have hsplit := former_append (d.take k) ((d.take l).drop k)
  rw [← take_eq d hkl, former_take d l] at hsplit
  rw [hsplit, back, List.drop_left]

theorem revised_slice (d : Draft) (k l : Nat) :
    ((revised d).take l).drop k = revised ((d.take l).drop k) := by
  simp [revised, List.map_take, List.map_drop]

theorem slice_eq (h : d.Plain k l) (hkl : k ≤ l) :
    ((former d).take (back d l)).drop (back d k) = ((revised d).take l).drop k := by
  rw [former_slice d hkl, revised_slice]
  exact former_eq_revised h

/-- A stretch that does not consist of what was put in has characters in the former text. -/
theorem back_lt_back (h : d.putIn k l = false) (hkl : k ≤ l) : back d k < back d l := by
  obtain ⟨x, hx, hput⟩ := List.all_eq_false.1 h
  have hformer : x.1 ∈ former ((d.take l).drop k) :=
    List.mem_map_of_mem (List.mem_filter.2 ⟨hx, by simpa using hput⟩)
  have hpos := List.length_pos_of_mem hformer
  rw [back_eq d hkl]
  omega

theorem putIn_eq_false_of_plain (h : d.Plain k l) (hkl : k < l) (hl : l ≤ d.length) :
    d.putIn k l = false := by
  have hmem : d[k] ∈ (d.take l).drop k := by
    rw [List.mem_iff_getElem?]
    exact ⟨0, by rw [List.getElem?_drop, List.getElem?_take_of_lt (by omega)]; simp⟩
  exact List.all_eq_false.2 ⟨d[k], hmem, by simp [h _ hmem]⟩

theorem back_succ (h : d[k]? = none ∨ ∃ c, d[k]? = some (c, true)) : back d (k + 1) = back d k := by
  rcases h with h | ⟨c, h⟩
  · rw [back, back, List.take_of_length_le, List.take_of_length_le]
    all_goals
      have := List.getElem?_eq_none_iff.1 h
      omega
  · rw [back, List.take_add_one, h, former_append, List.length_append, ← back]
    simp [former]

theorem getElem?_back {c : Char} (h : d[k]? = some (c, false)) :
    (former d)[back d k]? = some c ∧ back d (k + 1) = back d k + 1 := by
  have hsucc : former (d.take (k + 1)) = former (d.take k) ++ [c] := by
    rw [List.take_add_one, h, former_append]
    rfl
  constructor
  · have htake := former_take d (k + 1)
    have hlt : back d k < back d (k + 1) := by
      rw [back, back, hsucc, List.length_append]
      simp
    rw [← List.getElem?_take_of_lt hlt, ← htake, hsucc, back, List.getElem?_append_right le_rfl]
    simp
  · rw [back, hsucc, List.length_append, ← back, List.length_singleton]

/-- The blank behind a place is skipped in both texts, unless something was put in before it. -/
theorem skipBlank_eq (d : Draft) (k : Nat) :
    Node.skipBlank d.former (d.back k) = d.back (Node.skipBlank d.revised k) ∨
      d.back (Node.skipBlank d.revised k) = d.back k := by
  have hrevised : (revised d)[k]? = (d[k]?).map Prod.fst := List.getElem?_map
  have hstep : Node.skipBlank d.revised k = k ∨ Node.skipBlank d.revised k = k + 1 := by
    unfold Node.skipBlank
    split
    · split_ifs <;> simp
    · exact Or.inl rfl
  cases hk : d[k]? with
  | none =>
      refine Or.inr ?_
      rcases hstep with h | h
      · rw [h]
      · rw [h, back_succ (Or.inl hk)]
  | some x =>
      obtain ⟨c, put⟩ := x
      cases put with
      | true =>
          refine Or.inr ?_
          rcases hstep with h | h
          · rw [h]
          · rw [h, back_succ (Or.inr ⟨c, hk⟩)]
      | false =>
          obtain ⟨hformer, hsucc⟩ := getElem?_back hk
          rw [hk, Option.map_some] at hrevised
          refine Or.inl ?_
          simp only [Node.skipBlank, hformer, hrevised]
          split_ifs
          · exact hsucc.symm
          · rfl

end Draft

end DeclBundle
