/-!
# Cutting and joining text

`pieces c s` cuts a text at every occurrence of one character, so that `n` occurrences give `n + 1`
pieces, and `join` puts a separator between pieces. The two undo each other: `join_pieces` holds for
every text, `pieces_join` for pieces that do not hold the separator. `after?` and `before?` cut off a
known beginning or a known ending.
-/

namespace DeclBundle.Text

/-- The stretches of a text between the occurrences of one character. -/
def pieces (c : Char) : List Char → List (List Char)
  | [] => [[]]
  | x :: xs =>
    if x = c then [] :: pieces c xs
    else
      match pieces c xs with
      | [] => [[x]]
      | p :: ps => (x :: p) :: ps

/-- The pieces in order, with the separator between each two of them. -/
def join (sep : List Char) : List (List Char) → List Char
  | [] => []
  | [p] => p
  | p :: q :: ps => p ++ sep ++ join sep (q :: ps)

def after? : List Char → List Char → Option (List Char)
  | [], s => some s
  | _ :: _, [] => none
  | x :: xs, y :: ys => if x = y then after? xs ys else none

def before? (ending s : List Char) : Option (List Char) :=
  (after? ending.reverse s.reverse).map List.reverse

@[simp] theorem pieces_nil (c : Char) : pieces c [] = [[]] := rfl

theorem pieces_cons_self (c : Char) (xs : List Char) : pieces c (c :: xs) = [] :: pieces c xs := by
  simp [pieces]

theorem pieces_ne_nil (c : Char) (s : List Char) : pieces c s ≠ [] := by
  cases s with
  | nil => simp
  | cons x xs =>
    simp only [pieces]
    split
    · simp
    · split <;> simp

theorem pieces_cons_of_ne {c x : Char} (h : x ≠ c) (xs : List Char) :
    ∃ p ps, pieces c xs = p :: ps ∧ pieces c (x :: xs) = (x :: p) :: ps := by
  cases hx : pieces c xs with
  | nil => exact absurd hx (pieces_ne_nil c xs)
  | cons p ps => exact ⟨p, ps, rfl, by simp [pieces, h, hx]⟩

@[simp] theorem join_nil (sep : List Char) : join sep [] = [] := rfl

@[simp] theorem join_singleton (sep p : List Char) : join sep [p] = p := rfl

theorem join_cons_cons (sep p q : List Char) (ps : List (List Char)) :
    join sep (p :: q :: ps) = p ++ sep ++ join sep (q :: ps) := rfl

theorem join_pieces (c : Char) (s : List Char) : join [c] (pieces c s) = s := by
  induction s with
  | nil => rfl
  | cons x xs ih =>
    by_cases h : x = c
    · subst h
      rw [pieces_cons_self]
      cases hx : pieces x xs with
      | nil => exact absurd hx (pieces_ne_nil x xs)
      | cons p ps =>
        rw [hx] at ih
        rw [join_cons_cons, ih]
        simp
    · obtain ⟨p, ps, hp, hxp⟩ := pieces_cons_of_ne h xs
      rw [hp] at ih
      rw [hxp]
      cases ps with
      | nil => simpa using ih
      | cons q qs =>
        rw [join_cons_cons] at ih ⊢
        simp [← ih]

theorem pieces_of_not_mem {c : Char} {s : List Char} (h : c ∉ s) : pieces c s = [s] := by
  induction s with
  | nil => rfl
  | cons x xs ih =>
    simp only [List.mem_cons, not_or] at h
    simp [pieces, Ne.symm h.1, ih h.2]

theorem pieces_append_cons {c : Char} {p : List Char} (h : c ∉ p) (s : List Char) :
    pieces c (p ++ c :: s) = p :: pieces c s := by
  induction p with
  | nil => simp [pieces]
  | cons x xs ih =>
    simp only [List.mem_cons, not_or] at h
    simp [pieces, Ne.symm h.1, ih h.2]

/-- Cutting finds the pieces that were joined, if none holds the separator. -/
theorem pieces_join {c : Char} {ps : List (List Char)} (hne : ps ≠ []) (h : ∀ p ∈ ps, c ∉ p) :
    pieces c (join [c] ps) = ps := by
  induction ps with
  | nil => exact absurd rfl hne
  | cons p ps ih =>
    cases ps with
    | nil => simpa using pieces_of_not_mem (h p (by simp))
    | cons q qs =>
      rw [join_cons_cons, List.append_assoc, List.singleton_append,
        pieces_append_cons (h p (by simp)), ih (by simp) (fun r hr => h r (by simp [hr]))]

theorem not_mem_of_mem_pieces {c : Char} {s p : List Char} (hp : p ∈ pieces c s) : c ∉ p := by
  induction s generalizing p with
  | nil => simp_all
  | cons x xs ih =>
    by_cases h : x = c
    · subst h
      rw [pieces_cons_self] at hp
      rcases List.mem_cons.1 hp with rfl | hp
      · simp
      · exact ih hp
    · obtain ⟨q, qs, hq, hxq⟩ := pieces_cons_of_ne h xs
      rw [hxq] at hp
      rcases List.mem_cons.1 hp with rfl | hp
      · have := ih (p := q) (by simp [hq])
        simp [Ne.symm h, this]
      · exact ih (by simp [hq, hp])

/-- A text has a rest after `p` exactly if it is `p` followed by that rest. -/
theorem after?_eq_some_iff {p s t : List Char} : after? p s = some t ↔ s = p ++ t := by
  induction p generalizing s with
  | nil => simp [after?]
  | cons x xs ih =>
    cases s with
    | nil => simp [after?]
    | cons y ys =>
      by_cases h : x = y
      · subst h
        simp [after?, ih]
      · simp [after?, h, Ne.symm h]

@[simp] theorem after?_append (p t : List Char) : after? p (p ++ t) = some t :=
  after?_eq_some_iff.2 rfl

/-- A text has a beginning before `e` exactly if it is that beginning followed by `e`. -/
theorem before?_eq_some_iff {e s t : List Char} : before? e s = some t ↔ s = t ++ e := by
  rw [before?, Option.map_eq_some_iff]
  constructor
  · rintro ⟨u, hu, rfl⟩
    have h := congrArg List.reverse (after?_eq_some_iff.1 hu)
    simpa using h
  · rintro rfl
    exact ⟨t.reverse, by simp, by simp⟩

end DeclBundle.Text
