import DeclBundle.Proofs.Indentation
import DeclBundle.Proofs.Substitution

/-!
# Words in an indented text

`nest` copies a text and puts the unit of indentation behind some of its characters
(`nestFrom_eq_spread`); behind which ones, `unitBehind` says, and a character in front of which a line with
something in it begins is one that the unit is put before (`unitBehind_iff`). A word of the text is written
with the units that come inside it (`inset`), so it is written as it is exactly if there are none
(`inset_eq_self_iff`). Words that stand in a text one after another stand so, as they are written, in the
nested text (`woven_spread`).
-/

namespace DeclBundle

namespace Text

variable {s t w : List Char} {ws ws' : List (List Char)}

/-- Texts stand one after another in a text. -/
inductive Woven : List (List Char) → List Char → Prop
  | nil (s : List Char) : Woven [] s
  | cons {w : List Char} {ws : List (List Char)} {s : List Char} (gap : List Char) (h : Woven ws s) :
      Woven (w :: ws) (gap ++ (w ++ s))

namespace Woven

theorem prepend (h : Woven ws s) (t : List Char) : Woven ws (t ++ s) := by
  cases h with
  | nil => exact nil _
  | cons gap h =>
      rw [← List.append_assoc t gap]
      exact cons (t ++ gap) h

theorem append (h : Woven ws s) (t : List Char) : Woven ws (s ++ t) := by
  induction h with
  | nil => exact nil _
  | cons gap _ ih =>
      rw [List.append_assoc, List.append_assoc]
      exact cons gap ih

theorem sublist (h : Woven ws s) (hws : List.Sublist ws' ws) : Woven ws' s := by
  induction h generalizing ws' with
  | nil s =>
      rw [List.sublist_nil.1 hws]
      exact nil s
  | @cons w ws s gap _ ih =>
      rcases List.sublist_cons_iff.1 hws with hrest | ⟨ws'', rfl, hrest⟩
      · rw [← List.append_assoc]
        exact (ih hrest).prepend (gap ++ w)
      · exact cons gap (ih hrest)

theorem infix_of_mem (h : Woven ws s) (hw : w ∈ ws) : w <:+: s := by
  induction h with
  | nil => cases hw
  | @cons w' ws s gap _ ih =>
      rcases List.mem_cons.1 hw with rfl | hw
      · exact ⟨gap, s, List.append_assoc _ _ _⟩
      · exact (ih hw).trans ⟨gap ++ w', [], by simp⟩

end Woven

/-- A text stands in another at an offset. -/
structure Stands (s : List Char) (i : Nat) (w : List Char) : Prop where
  le : i ≤ s.length
  starts : w <+: s.drop i

theorem Stands.drop_eq {i : Nat} (h : Stands s i w) : s.drop i = w ++ s.drop (i + w.length) := by
  obtain ⟨rest, hrest⟩ := h.starts
  rw [← List.drop_drop, ← hrest, List.drop_left]

/-- A text with a unit behind each marked character; the offset of the first character is given. -/
def spread (indent : List Char) (mark : Nat → Bool) : Nat → List Char → List Char
  | _, [] => []
  | i, c :: cs => c :: ((if mark i then indent else []) ++ spread indent mark (i + 1) cs)

/-- A text with a unit behind each marked character but the last one. -/
def inset (indent : List Char) (mark : Nat → Bool) : Nat → List Char → List Char
  | _, [] => []
  | _, [c] => [c]
  | i, c :: d :: cs => c :: ((if mark i then indent else []) ++ inset indent mark (i + 1) (d :: cs))

theorem spread_append (indent : List Char) (mark : Nat → Bool) (i : Nat) (s t : List Char) :
    spread indent mark i (s ++ t) = spread indent mark i s ++ spread indent mark (i + s.length) t := by
  induction s generalizing i with
  | nil => rfl
  | cons c s ih =>
      have hlength : i + (c :: s).length = i + 1 + s.length := by
        rw [List.length_cons]
        omega
      simp only [List.cons_append, spread, ih, hlength, List.append_assoc]

theorem spread_succ (indent : List Char) (mark : Nat → Bool) (i : Nat) (s : List Char) :
    spread indent mark (i + 1) s = spread indent (fun j => mark (j + 1)) i s := by
  induction s generalizing i with
  | nil => rfl
  | cons c s ih => rw [spread, spread, ih]

theorem exists_spread_eq (indent : List Char) (mark : Nat → Bool) (i : Nat) (w : List Char) :
    ∃ tail, spread indent mark i w = inset indent mark i w ++ tail := by
  induction i, w using inset.induct with
  | case1 => exact ⟨[], rfl⟩
  | case2 i c => exact ⟨if mark i then indent else [], by simp [spread, inset]⟩
  | case3 i c d cs ih =>
      obtain ⟨tail, ih⟩ := ih
      exact ⟨tail, by rw [spread, ih, inset, List.cons_append, List.append_assoc]⟩

/-- Words that stand one after another in a text are written one after another. -/
theorem woven_spread (indent : List Char) (mark : Nat → Bool) {row : List (Nat × List Char)} {o : Nat}
    (hstands : ∀ x ∈ row, Stands s x.1 x.2)
    (hrow : row.Pairwise fun x y => x.1 + x.2.length ≤ y.1) (ho : ∀ x ∈ row, o ≤ x.1) :
    Woven (row.map fun x => inset indent mark x.1 x.2) (spread indent mark o (s.drop o)) := by
  induction row generalizing o with
  | nil => exact .nil _
  | cons x row ih =>
      obtain ⟨hx, hrow⟩ := List.pairwise_cons.1 hrow
      obtain ⟨hstand, hstands⟩ := List.forall_mem_cons.1 hstands
      have hle := ho x List.mem_cons_self
      have hsplit : s.drop o = (s.take x.1).drop o ++ (x.2 ++ s.drop (x.1 + x.2.length)) := by
        rw [← hstand.drop_eq, Region.Edit.drop_take_append_drop s hle]
      have hlength : o + ((s.take x.1).drop o).length = x.1 := by
        have := hstand.le
        rw [List.length_drop, List.length_take]
        omega
      obtain ⟨tail, htail⟩ := exists_spread_eq indent mark x.1 x.2
      rw [hsplit, spread_append, hlength, spread_append, htail, List.map_cons, List.append_assoc]
      exact .cons _ ((ih hstands hrow hx).prepend tail)

theorem length_le_length_inset (indent : List Char) (mark : Nat → Bool) (i : Nat) (w : List Char) :
    w.length ≤ (inset indent mark i w).length := by
  induction i, w using inset.induct with
  | case1 => exact Nat.le_refl _
  | case2 => exact Nat.le_refl _
  | case3 i c d cs ih =>
      rw [inset, List.length_cons, List.length_cons (a := c), List.length_append]
      omega

theorem inset_eq_self_iff (indent : List Char) (mark : Nat → Bool) (i : Nat) (w : List Char) :
    inset indent mark i w = w ↔ indent = [] ∨ ∀ j, i < j → j < i + w.length → mark (j - 1) = false := by
  induction i, w using inset.induct with
  | case1 i => exact iff_of_true rfl (.inr fun j hij hj => absurd hj (by simp; omega))
  | case2 i c =>
      refine iff_of_true rfl (.inr fun j hij hj => absurd hj ?_)
      rw [List.length_singleton]
      omega
  | case3 i c d cs ih =>
      have hinside : (∀ j, i < j → j < i + (c :: d :: cs).length → mark (j - 1) = false) ↔
          mark i = false ∧ ∀ j, i + 1 < j → j < i + 1 + (d :: cs).length → mark (j - 1) = false := by
        simp only [List.length_cons]
        constructor
        · intro h
          exact ⟨h (i + 1) (Nat.lt_succ_self i) (by omega), fun j hij hj => h j (by omega) (by omega)⟩
        · rintro ⟨hi, h⟩ j hij hj
          rcases Nat.eq_or_lt_of_le hij with rfl | hij
          · exact hi
          · exact h j hij (by omega)
      have hlength := length_le_length_inset indent mark (i + 1) (d :: cs)
      rw [inset, hinside, List.cons_inj_right]
      cases hmark : mark i with
      | false => simpa using ih
      | true =>
          simp only [if_true, Bool.true_eq_false, false_and, or_false]
          constructor
          · intro h
            have := congrArg List.length h
            rw [List.length_append] at this
            exact List.length_eq_zero_iff.1 (by omega)
          · intro h
            rw [ih.2 (.inl h), h, List.nil_append]

end Text

namespace Emission

open Text

/-- Whether nesting puts the unit behind the character at an offset; the counter is that of `nestFrom`. -/
def unitBehind (eol : List Char) : Nat → List Char → Nat → Bool
  | _, [], _ => false
  | k, c :: cs, i =>
    let ahead := if k = 0 ∧ breaks eol (c :: cs) then eol.length else k
    match i with
    | 0 => ahead = 1
    | i + 1 => unitBehind eol (ahead - 1) cs i

theorem nestFrom_eq_spread (eol indent : List Char) (k : Nat) (s : List Char) :
    nestFrom eol indent k s = spread indent (unitBehind eol k s) 0 s := by
  induction s generalizing k with
  | nil => rfl
  | cons c cs ih =>
      rw [nestFrom, spread, spread_succ, ih]
      simp [unitBehind]

/-- At an offset a line with something in it begins. -/
structure LineBegins (eol s : List Char) (i : Nat) : Prop where
  lt : i < s.length
  ended : eol <:+ s.take i
  full : ¬ eol <+: s.drop i

theorem breaks_iff {eol s : List Char} :
    breaks eol s = true ↔ ∃ rest, s = eol ++ rest ∧ rest ≠ [] ∧ ¬ eol <+: rest := by
  constructor
  · intro h
    obtain ⟨rest, hrest⟩ : ∃ rest, after? eol s = some rest := by
      unfold breaks at h
      cases hafter : after? eol s with
      | none => simp [hafter] at h
      | some rest => exact ⟨rest, rfl⟩
    obtain rfl := after?_eq_some_iff.1 hrest
    exact ⟨rest, rfl, (breaks_append eol rest).1 h⟩
  · rintro ⟨rest, rfl, h⟩
    exact (breaks_append eol rest).2 h

/-- A line with something in it begins behind the line ends that such a line follows. -/
theorem breaks_drop_iff {eol s : List Char} {i : Nat} (hi : i ≤ s.length) :
    breaks eol (s.drop i) = true ↔ LineBegins eol s (i + eol.length) := by
  rw [breaks_iff]
  constructor
  · rintro ⟨rest, hrest, hne, hfull⟩
    have hs : s = s.take i ++ (eol ++ rest) := by rw [← hrest, List.take_append_drop]
    have hlength : (s.take i).length = i := List.length_take_of_le hi
    have hbefore : (s.take i ++ eol).length = i + eol.length := by rw [List.length_append, hlength]
    rw [hs, ← List.append_assoc, ← hbefore]
    refine ⟨?_, ?_, ?_⟩
    · have hall : (s.take i ++ eol ++ rest).length = (s.take i ++ eol).length + rest.length :=
        List.length_append
      rw [hall]
      exact Nat.lt_add_of_pos_right (List.length_pos_iff.2 hne)
    · rw [List.take_left]
      exact List.suffix_append _ _
    · rwa [List.drop_left]
  · rintro ⟨hlt, ⟨u, hu⟩, hfull⟩
    have hlength := congrArg List.length hu
    rw [List.length_append, List.length_take_of_le (Nat.le_of_lt hlt)] at hlength
    have hs : s = u ++ (eol ++ s.drop (i + eol.length)) := by
      rw [← List.append_assoc, hu, List.take_append_drop]
    have hi : i = u.length := by omega
    refine ⟨s.drop (i + eol.length), ?_, ?_, hfull⟩
    · conv_lhs => rw [hs, hi, List.drop_left, ← hi]
    · rw [ne_eq, List.drop_eq_nil_iff]
      omega

theorem unitBehind_feed (s : List Char) (i : Nat) :
    unitBehind ['\n'] 0 s i = breaks ['\n'] (s.drop i) := by
  induction s generalizing i with
  | nil => simp [unitBehind, breaks, after?]
  | cons c cs ih =>
      cases hbreaks : breaks ['\n'] (c :: cs) with
      | false => cases i <;> simp [unitBehind, hbreaks, ih]
      | true => cases i <;> simp [unitBehind, hbreaks, ih]

theorem unitBehind_returnFeed (s : List Char) : unitBehind ['\r', '\n'] 0 s 0 = false ∧
    ∀ i, unitBehind ['\r', '\n'] 0 s (i + 1) = breaks ['\r', '\n'] (s.drop i) := by
  have hfeed (rest : List Char) : breaks ['\r', '\n'] ('\n' :: rest) = false := by
    simp [breaks, after?]
  induction s using lineInduction (List.cons_ne_nil '\r' ['\n']) with
  | nil => simp [unitBehind, breaks, after?]
  | lineEnd rest ih =>
      obtain ⟨ihfirst, ih⟩ := ih
      simp only [List.cons_append, List.nil_append]
      cases hbreaks : breaks ['\r', '\n'] ('\r' :: '\n' :: rest) with
      | false =>
          refine ⟨by simp [unitBehind, hbreaks], fun i => ?_⟩
          rcases i with _ | _ | i
          · simp [unitBehind, hbreaks, hfeed]
          · simp [unitBehind, hbreaks, hfeed, ihfirst]
          · simp [unitBehind, hbreaks, hfeed, ih]
      | true =>
          refine ⟨by simp [unitBehind, hbreaks], fun i => ?_⟩
          rcases i with _ | _ | i
          · simp [unitBehind, hbreaks]
          · simp [unitBehind, hbreaks, hfeed, ihfirst]
          · simp [unitBehind, hbreaks, ih]
  | cons c cs hc ih =>
      obtain ⟨ihfirst, ih⟩ := ih
      have hbreaks : breaks ['\r', '\n'] (c :: cs) = false := by
        rw [Bool.eq_false_iff, ne_eq, breaks_iff]
        rintro ⟨rest, hrest, -⟩
        exact hc ⟨rest, hrest.symm⟩
      refine ⟨by simp [unitBehind, hbreaks], fun i => ?_⟩
      cases i with
      | zero => simp [unitBehind, hbreaks, ihfirst]
      | succ i => simp [unitBehind, hbreaks, ih]

/-- The unit is put behind a character exactly if a line with something in it begins there. -/
theorem unitBehind_iff {eol : List Char} (heol : eol = ['\n'] ∨ eol = ['\r', '\n']) {s : List Char}
    {i : Nat} (hi : i < s.length) : unitBehind eol 0 s i = true ↔ LineBegins eol s (i + 1) := by
  rcases heol with rfl | rfl
  · rw [unitBehind_feed, breaks_drop_iff (Nat.le_of_lt hi)]
    rfl
  · cases i with
    | zero =>
        refine iff_of_false (by simp [(unitBehind_returnFeed s).1]) fun h => ?_
        have hlength := h.ended.length_le
        simp only [List.length_take, List.length_cons, List.length_nil] at hlength
        omega
    | succ i =>
        rw [(unitBehind_returnFeed s).2 i, breaks_drop_iff (by omega)]
        rfl

end Emission

end DeclBundle
