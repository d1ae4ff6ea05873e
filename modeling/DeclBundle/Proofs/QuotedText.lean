import DeclBundle.Proofs.Steps
import Mathlib.Data.List.Basic

/-!
# Quoted texts

A text between quotes is read character by character; a backslash escapes the next one, and the first quote
that is not escaped ends the text (`read`). What an escaped character stands for is left open. Reading ends
at the quote that was put behind a text exactly if the text closes (`ends_iff`), and gives back the text
exactly if neither a quote nor a backslash is in it (`denotes_iff`). A path closes if none of its steps has
a bare quote in it and the last one closes (`closes_join_iff`).
-/

namespace DeclBundle.Quoted

/-- Whether the character behind a text is escaped, the first one of the text being escaped or not; there
is nothing behind it if a bare quote stands in it. -/
def scan (quote : Char) : Bool → List Char → Option Bool
  | escaped, [] => some escaped
  | true, _ :: s => scan quote false s
  | false, c :: s =>
    if c = '\\' then scan quote true s
    else if c = quote then none
    else scan quote false s

/-- What a literal stands for, its opening quote being read, and the text behind its closing quote. A
backslash escapes the next character, whatever that stands for then. -/
def read (escape : Char → Char) (quote : Char) : List Char → Option (List Char × List Char)
  | [] => none
  | ['\\'] => none
  | '\\' :: e :: s => (read escape quote s).map fun r => (escape e :: r.1, r.2)
  | c :: s =>
    if c = quote then some ([], s) else (read escape quote s).map fun r => (c :: r.1, r.2)

/-- A text between quotes is read up to the second one. -/
def Ends (quote : Char) (t rest : List Char) : Prop :=
  ∀ escape, ∃ value, read escape quote (t ++ quote :: rest) = some (value, rest)

/-- A text between quotes stands for itself. -/
def Denotes (quote : Char) (t rest : List Char) : Prop :=
  ∀ escape, read escape quote (t ++ quote :: rest) = some (t, rest)

def Closes (quote : Char) (t : List Char) : Prop := scan quote false t = some false

def HasBare (quote : Char) (t : List Char) : Prop := scan quote false t = none

/-- Neither a quote nor a backslash is in a text. -/
def Plain (quote : Char) (t : List Char) : Prop := quote ∉ t ∧ '\\' ∉ t

instance (quote : Char) (t : List Char) : Decidable (Closes quote t) :=
  inferInstanceAs (Decidable (_ = _))

instance (quote : Char) (t : List Char) : Decidable (HasBare quote t) :=
  inferInstanceAs (Decidable (_ = _))

instance (quote : Char) (t : List Char) : Decidable (Plain quote t) :=
  inferInstanceAs (Decidable (_ ∧ _))

variable {quote : Char} {s t rest : List Char}

theorem read_cons_of_ne {escape : Char → Char} {c : Char} (hc : c ≠ '\\') :
    read escape quote (c :: s) =
      if c = quote then some ([], s) else (read escape quote s).map fun r => (c :: r.1, r.2) := by
  rw [read]
  · exact fun h => absurd h hc
  · exact fun _ _ h => absurd h hc

/-- What is read and what is left are shorter than the text by the closing quote at least. -/
theorem length_of_read {escape : Char → Char} {value : List Char}
    (h : read escape quote s = some (value, rest)) : value.length + rest.length < s.length := by
  fun_induction read escape quote s generalizing value with
  | case1 => cases h
  | case2 => cases h
  | case3 e s ih =>
      obtain ⟨⟨value', rest'⟩, hr, heq⟩ := Option.map_eq_some_iff.1 h
      simp only [Prod.mk.injEq] at heq
      obtain ⟨rfl, rfl⟩ := heq
      have hlength := ih hr
      simp only [List.length_cons]
      omega
  | case4 s _ _ =>
      obtain ⟨rfl, rfl⟩ := Prod.mk.inj (Option.some.inj h)
      simp
  | case5 c s _ _ _ ih =>
      obtain ⟨⟨value', rest'⟩, hr, heq⟩ := Option.map_eq_some_iff.1 h
      simp only [Prod.mk.injEq] at heq
      obtain ⟨rfl, rfl⟩ := heq
      have hlength := ih hr
      simp only [List.length_cons]
      omega

/-- Reading ends at the quote behind a text exactly if that is neither escaped nor comes too late. -/
theorem exists_read_iff (hquote : quote ≠ '\\') (escape : Char → Char) (t rest : List Char) :
    (∃ value, read escape quote (t ++ quote :: rest) = some (value, rest)) ↔ Closes quote t := by
  unfold Closes
  fun_induction read escape quote t with
  | case1 => simp [read_cons_of_ne hquote, scan]
  | case2 =>
      have hscan : scan quote false ['\\'] = some true := by simp [scan]
      rw [hscan]
      refine iff_of_false ?_ (by simp)
      rintro ⟨value, h⟩
      simp only [List.cons_append, List.nil_append, read, Option.map_eq_some_iff] at h
      obtain ⟨⟨value', rest'⟩, hr, heq⟩ := h
      simp only [Prod.mk.injEq] at heq
      obtain ⟨-, rfl⟩ := heq
      have hlength := length_of_read hr
      omega
  | case3 e s ih =>
      have hscan : scan quote false ('\\' :: e :: s) = scan quote false s := by simp [scan]
      rw [hscan, ← ih]
      simp only [List.cons_append, read, Option.map_eq_some_iff, Prod.mk.injEq]
      constructor
      · rintro ⟨_, ⟨value, _⟩, hr, rfl, rfl⟩
        exact ⟨value, hr⟩
      · rintro ⟨value, hr⟩
        exact ⟨_, ⟨value, rest⟩, hr, rfl, rfl⟩
  | case4 s _ _ =>
      have hscan : scan quote false (quote :: s) = none := by simp [scan, hquote]
      rw [hscan, List.cons_append, read_cons_of_ne hquote, if_pos rfl]
      refine iff_of_false ?_ (by simp)
      rintro ⟨value, h⟩
      have hrest := congrArg List.length (Prod.mk.inj (Option.some.inj h)).2
      simp only [List.length_append, List.length_cons] at hrest
      omega
  | case5 c s hlast hnext hne ih =>
      have hc : c ≠ '\\' := by
        rintro rfl
        cases s with
        | nil => exact hlast rfl rfl
        | cons e s => exact hnext e s rfl rfl
      have hscan : scan quote false (c :: s) = scan quote false s := by simp [scan, hc, hne]
      rw [hscan, ← ih, List.cons_append, read_cons_of_ne hc, if_neg hne]
      simp only [Option.map_eq_some_iff, Prod.mk.injEq]
      constructor
      · rintro ⟨_, ⟨value, _⟩, hr, rfl, rfl⟩
        exact ⟨value, hr⟩
      · rintro ⟨value, hr⟩
        exact ⟨_, ⟨value, rest⟩, hr, rfl, rfl⟩

theorem ends_iff (hquote : quote ≠ '\\') : Ends quote t rest ↔ Closes quote t := by
  constructor
  · exact fun h => (exists_read_iff hquote id t rest).1 (h id)
  · exact fun h escape => (exists_read_iff hquote escape t rest).2 h

theorem read_of_plain (h : Plain quote t) (hne : quote ≠ '\\')
    (escape : Char → Char) (rest : List Char) :
    read escape quote (t ++ quote :: rest) = some (t, rest) := by
  obtain ⟨hquote, hback⟩ := h
  induction t with
  | nil => rw [List.nil_append, read_cons_of_ne hne, if_pos rfl]
  | cons c t ih =>
      rw [List.mem_cons, not_or] at hquote hback
      rw [List.cons_append, read_cons_of_ne (Ne.symm hback.1), if_neg (Ne.symm hquote.1),
        ih hquote.2 hback.2]
      rfl

/-- What is read of a text only stands for that text if no character had to be escaped. -/
theorem plain_of_read {escape : Char → Char} (hne : quote ≠ '\\')
    (h : read escape quote (t ++ quote :: rest) = some (t, rest)) : Plain quote t := by
  fun_induction read escape quote t with
  | case1 => exact ⟨List.not_mem_nil, List.not_mem_nil⟩
  | case2 =>
      simp only [List.cons_append, List.nil_append, read, Option.map_eq_some_iff] at h
      obtain ⟨⟨value, rest'⟩, hr, heq⟩ := h
      simp only [Prod.mk.injEq] at heq
      have hlength := length_of_read hr
      rw [heq.2] at hlength
      omega
  | case3 e s ih =>
      simp only [List.cons_append, read, Option.map_eq_some_iff] at h
      obtain ⟨⟨value, rest'⟩, hr, heq⟩ := h
      simp only [Prod.mk.injEq] at heq
      have hlength := length_of_read hr
      have hvalue := congrArg List.length heq.1
      rw [heq.2] at hlength
      simp only [List.length_append, List.length_cons] at hlength hvalue
      omega
  | case4 s _ _ =>
      rw [List.cons_append, read_cons_of_ne hne, if_pos rfl] at h
      cases (Prod.mk.inj (Option.some.inj h)).1
  | case5 c s hlast hnext hquote ih =>
      have hc : c ≠ '\\' := by
        rintro rfl
        cases s with
        | nil => exact hlast rfl rfl
        | cons e s => exact hnext e s rfl rfl
      rw [List.cons_append, read_cons_of_ne hc, if_neg hquote] at h
      obtain ⟨⟨value, rest'⟩, hr, heq⟩ := Option.map_eq_some_iff.1 h
      simp only [Prod.mk.injEq, List.cons.injEq, true_and] at heq
      obtain ⟨rfl, rfl⟩ := heq
      obtain ⟨hs, hs'⟩ := ih hr
      exact ⟨List.not_mem_cons_of_ne_of_not_mem (Ne.symm hquote) hs,
        List.not_mem_cons_of_ne_of_not_mem (Ne.symm hc) hs'⟩

/-- A text between quotes stands for itself exactly if neither a quote nor a backslash is in it. -/
theorem denotes_iff (hne : quote ≠ '\\') : Denotes quote t rest ↔ Plain quote t := by
  constructor
  · exact fun h => plain_of_read hne (h id)
  · exact fun h escape => read_of_plain h hne escape rest

/-! ### Texts in a row -/

theorem scan_append (quote : Char) (escaped : Bool) (s t : List Char) :
    scan quote escaped (s ++ t) = (scan quote escaped s).bind fun e => scan quote e t := by
  fun_induction scan quote escaped s with
  | case1 => simp
  | case2 c s ih => simpa [scan] using ih
  | case3 s ih => simpa [scan] using ih
  | case4 s hne => simp [scan, hne]
  | case5 c s hc hquote ih => simpa [scan, hc, hquote] using ih

theorem scan_cons (quote : Char) (escaped : Bool) (c : Char) (s : List Char) :
    scan quote escaped (c :: s) = (scan quote escaped [c]).bind fun e => scan quote e s :=
  scan_append quote escaped [c] s

/-- A character that is neither a quote nor a backslash leaves nothing escaped. -/
theorem scan_cons_of_ne {c : Char} (hquote : c ≠ quote) (hc : c ≠ '\\') (escaped : Bool)
    (s : List Char) : scan quote escaped (c :: s) = scan quote false s := by
  cases escaped with
  | true => rw [scan]
  | false => rw [scan, if_neg hc, if_neg hquote]

theorem not_hasBare_of_closes (h : Closes quote t) : ¬ HasBare quote t := by
  rw [HasBare, h]
  exact nofun

theorem scan_join_cons_cons (hquote : quote ≠ '/') (s t : List Char) (ts : List (List Char)) :
    scan quote false (Text.join ['/'] (s :: t :: ts)) =
      (scan quote false s).bind fun _ => scan quote false (Text.join ['/'] (t :: ts)) := by
  rw [Text.join_cons_cons, List.append_assoc, scan_append]
  congr 1
  funext escaped
  rw [List.singleton_append, scan_cons_of_ne (Ne.symm hquote) (by decide)]

theorem hasBare_join_iff (hquote : quote ≠ '/') {ss : List (List Char)} :
    HasBare quote (Text.join ['/'] ss) ↔ ∃ s ∈ ss, HasBare quote s := by
  induction ss with
  | nil => exact iff_of_false nofun nofun
  | cons s ss ih =>
      cases ss with
      | nil => simp
      | cons t ts =>
          rw [List.exists_mem_cons_iff, ← ih, HasBare, scan_join_cons_cons hquote,
            Option.bind_eq_none_iff]
          cases h : scan quote false s with
          | none => exact iff_of_true nofun (.inl h)
          | some escaped =>
              simp [HasBare, h]

/-- A path may stand between quotes if no bare quote stands in its steps and the last one does not leave
the closing quote escaped. -/
theorem closes_join_iff (hquote : quote ≠ '/') {ss : List (List Char)} :
    Closes quote (Text.join ['/'] ss) ↔
      (∀ s ∈ ss, ¬ HasBare quote s) ∧ ∀ s ∈ ss.getLast?, Closes quote s := by
  induction ss with
  | nil => simp [Closes, scan]
  | cons s ss ih =>
      cases ss with
      | nil => simpa using not_hasBare_of_closes
      | cons t ts =>
          rw [List.getLast?_cons_cons, List.forall_mem_cons, and_assoc, ← ih, Closes,
            scan_join_cons_cons hquote, Option.bind_eq_some_iff]
          simp only [HasBare, Closes, exists_and_right, ← Option.isSome_iff_exists,
            Option.isSome_iff_ne_none, ne_eq]

/-- Where no quote and no backslash stands, nothing is bare or escaped. -/
theorem closes_of_plain (h : Plain quote t) : Closes quote t := by
  obtain ⟨hquote, hback⟩ := h
  induction t with
  | nil => rfl
  | cons c t ih =>
      rw [List.mem_cons, not_or] at hquote hback
      rw [Closes, scan_cons_of_ne (Ne.symm hquote.1) (Ne.symm hback.1)]
      exact ih hquote.2 hback.2

end DeclBundle.Quoted
