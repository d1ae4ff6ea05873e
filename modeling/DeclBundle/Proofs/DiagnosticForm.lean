import DeclBundle.Compiler.Report
import Mathlib.Data.List.Infix
import Mathlib.Data.List.TakeWhile
import Mathlib.Tactic.FinCases

/-!
# The form of a diagnostic

A diagnostic is headed `category TScode: message`, and one at a place has the name of a file and the place
in front, `file(line,column): category TScode: message`. `Heading.ofChars?` and `Position.ofChars?` read
texts of these forms and no others. A place has no second bracket, so that the name of a file and a place
behind it can overlap with another place only if that place is within the name: if the name holds none,
`ReportLine.located?` finds the name itself (`located?_append`), and if a message holds none, its heading
is not taken for a diagnostic at a place (`located?_heading`).
-/

namespace DeclBundle

def Category.word : Category → String
  | error => "error"
  | warning => "warning"
  | message => "message"

namespace Heading

variable {s ds rest : List Char} {h : Heading}

def IsNumber (ds : List Char) : Prop := ds ≠ [] ∧ ∀ c ∈ ds, Text.isDecimalDigit c = true

def chars (h : Heading) : List Char :=
  h.category.word.toList ++ (" TS".toList ++ (h.code ++ (": ".toList ++ h.message)))

theorem digits?_eq_some_iff :
    digits? s = some (ds, rest) ↔
      IsNumber ds ∧ s = ds ++ rest ∧ ∀ c ∈ rest.head?, Text.isDecimalDigit c = false := by
  constructor
  · intro h
    unfold digits? at h
    dsimp only at h
    split at h
    · cases h
    case isFalse hne =>
      obtain ⟨rfl, rfl⟩ := Prod.mk.inj (Option.some.inj h)
      refine ⟨⟨by simpa using hne, fun c hc => ?_⟩, (List.takeWhile_append_dropWhile).symm,
        fun c hc => ?_⟩
      · exact List.mem_takeWhile_imp hc
      · have hhead := List.head?_dropWhile_not Text.isDecimalDigit s
        rw [Option.mem_def.1 hc] at hhead
        simpa using hhead
  · rintro ⟨⟨hne, hall⟩, rfl, hrest⟩
    have htake : (ds ++ rest).takeWhile Text.isDecimalDigit = ds := by
      rw [List.takeWhile_append_of_pos hall]
      cases rest with
      | nil => simp
      | cons c rest => simp [hrest c rfl]
    have hdrop : (ds ++ rest).dropWhile Text.isDecimalDigit = rest := by
      rw [List.dropWhile_append_of_pos hall]
      cases rest with
      | nil => rfl
      | cons c rest => simp [hrest c rfl]
    have hempty : ds.isEmpty = false := by simpa using hne
    rw [digits?, htake, hdrop]
    simp [hempty]

theorem category?_eq_some_iff {c : Category} :
    category? s = some (c, rest) ↔ s = c.word.toList ++ rest := by
  constructor
  · intro h
    obtain ⟨w, hw, hafter⟩ := List.exists_of_findSome?_eq_some h
    obtain ⟨t, ht, heq⟩ := Option.map_eq_some_iff.1 hafter
    obtain ⟨rfl, rfl⟩ := Prod.mk.inj heq
    rw [Text.after?_eq_some_iff.1 ht]
    fin_cases hw <;> rfl
  · rintro rfl
    cases c <;> simp [category?, categories, Category.word, Text.after?]

theorem ofChars?_eq_some_iff : ofChars? s = some h ↔ IsNumber h.code ∧ s = h.chars := by
  constructor
  · intro hs
    simp only [ofChars?, Option.bind_eq_bind, Option.bind_eq_some_iff, Prod.exists] at hs
    obtain ⟨c, r, hcategory, r', hts, code, r'', hcode, message, hmessage, hh⟩ := hs
    obtain rfl := Option.some.inj hh
    obtain ⟨hnumber, rfl, -⟩ := digits?_eq_some_iff.1 hcode
    refine ⟨hnumber, ?_⟩
    rw [category?_eq_some_iff.1 hcategory, Text.after?_eq_some_iff.1 hts,
      Text.after?_eq_some_iff.1 hmessage, chars]
  · rintro ⟨hnumber, rfl⟩
    have hcode : digits? (h.code ++ (": ".toList ++ h.message)) =
        some (h.code, ": ".toList ++ h.message) :=
      digits?_eq_some_iff.2 ⟨hnumber, rfl, by simp; decide⟩
    simp only [ofChars?, chars, category?_eq_some_iff.2 rfl, Option.bind_eq_bind, Option.bind_some,
      Text.after?_append, hcode]
    rfl

end Heading

namespace Position

open Heading (IsNumber)

variable {s : List Char} {p : Position} {h : Heading}

def chars (p : Position) : List Char :=
  "(".toList ++ (p.line ++ (",".toList ++ (p.column ++ "): ".toList)))

def IsNumbered (p : Position) (h : Heading) : Prop :=
  IsNumber p.line ∧ IsNumber p.column ∧ IsNumber h.code

/-- Places with headings are read from their texts and from no others. -/
theorem ofChars?_eq_some_iff :
    ofChars? s = some (p, h) ↔ p.IsNumbered h ∧ s = p.chars ++ h.chars := by
  constructor
  · intro hs
    simp only [ofChars?, Option.bind_eq_bind, Option.bind_eq_some_iff, Prod.exists] at hs
    obtain ⟨r₁, hopen, line, r₂, hline, r₃, hcomma, column, r₄, hcolumn, r₅, hclose, h', hheading,
      heq⟩ := hs
    obtain ⟨rfl, rfl⟩ := Prod.mk.inj (Option.some.inj heq)
    obtain ⟨hlineNumber, rfl, -⟩ := Heading.digits?_eq_some_iff.1 hline
    obtain ⟨hcolumnNumber, rfl, -⟩ := Heading.digits?_eq_some_iff.1 hcolumn
    obtain ⟨hcodeNumber, rfl⟩ := Heading.ofChars?_eq_some_iff.1 hheading
    refine ⟨⟨hlineNumber, hcolumnNumber, hcodeNumber⟩, ?_⟩
    rw [Text.after?_eq_some_iff.1 hopen, Text.after?_eq_some_iff.1 hcomma,
      Text.after?_eq_some_iff.1 hclose]
    simp [chars]
  · rintro ⟨⟨hline, hcolumn, hcode⟩, rfl⟩
    have hreadLine : Heading.digits? (p.line ++ (",".toList ++ (p.column ++ ("): ".toList ++ h.chars)))) =
        some (p.line, ",".toList ++ (p.column ++ ("): ".toList ++ h.chars))) :=
      Heading.digits?_eq_some_iff.2 ⟨hline, rfl, by simp; decide⟩
    have hreadColumn : Heading.digits? (p.column ++ ("): ".toList ++ h.chars)) =
        some (p.column, "): ".toList ++ h.chars) :=
      Heading.digits?_eq_some_iff.2 ⟨hcolumn, rfl, by simp; decide⟩
    simp only [ofChars?, chars, List.append_assoc, Option.bind_eq_bind, Option.bind_some,
      Text.after?_append, hreadLine, hreadColumn, Heading.ofChars?_eq_some_iff.2 ⟨hcode, rfl⟩]
    rfl

/-- What stands between the first bracket of a diagnostic at a place and its message. -/
def opening (p : Position) (h : Heading) : List Char :=
  p.line ++ (",".toList ++ (p.column ++ ("): ".toList ++
    (h.category.word.toList ++ (" TS".toList ++ (h.code ++ ": ".toList))))))

theorem chars_append (p : Position) (h : Heading) :
    p.chars ++ h.chars = '(' :: (p.opening h ++ h.message) := by
  simp [chars, opening, Heading.chars]

theorem not_mem_of_isNumber {ds : List Char} (h : IsNumber ds) : '(' ∉ ds := fun hmem =>
  absurd (h.2 _ hmem) (by decide)

theorem not_mem_opening (hp : p.IsNumbered h) : '(' ∉ p.opening h := by
  obtain ⟨hline, hcolumn, hcode⟩ := hp
  have hword : '(' ∉ h.category.word.toList := by
    cases h.category <;> decide
  simp [opening, not_mem_of_isNumber hline, not_mem_of_isNumber hcolumn, not_mem_of_isNumber hcode,
    hword]

end Position

/-- Whether a text holds one of the form `(line,column): category TScode: `. -/
def QuotesPlace (s : List Char) : Prop :=
  ∃ (before : List Char) (p : Position) (h : Heading),
    p.IsNumbered h ∧ s = before ++ (p.chars ++ h.chars)

theorem quotesPlace_of_ofChars? {s : List Char} {r : Position × Heading}
    (h : Position.ofChars? s = some r) : QuotesPlace s := by
  obtain ⟨hnumbered, hs⟩ := Position.ofChars?_eq_some_iff.1 h
  exact ⟨[], r.1, r.2, hnumbered, hs⟩

theorem QuotesPlace.append_left {s : List Char} (h : QuotesPlace s) (t : List Char) :
    QuotesPlace (t ++ s) := by
  obtain ⟨before, p, h, hnumbered, rfl⟩ := h
  exact ⟨t ++ before, p, h, hnumbered, (List.append_assoc t before _).symm⟩

theorem QuotesPlace.of_append {s t : List Char} (ht : '(' ∉ t) (h : QuotesPlace (t ++ s)) :
    QuotesPlace s := by
  obtain ⟨before, p, h, hnumbered, heq⟩ := h
  rw [Position.chars_append] at heq
  rcases List.append_eq_append_iff.1 heq with ⟨rest, hbefore, hs⟩ | ⟨rest, htext, hplace⟩
  · rw [hs, ← Position.chars_append]
    exact ⟨rest, p, h, hnumbered, rfl⟩
  · cases rest with
    | nil =>
        rw [List.nil_append] at hplace
        rw [← hplace, ← Position.chars_append]
        exact ⟨[], p, h, hnumbered, rfl⟩
    | cons c rest =>
        obtain ⟨rfl, -⟩ := List.cons.inj hplace
        exact absurd (htext ▸ by simp) ht

theorem quotesPlace_iff {s : List Char} :
    QuotesPlace s ↔ ∃ t ∈ s.tails, (Position.ofChars? t).isSome = true := by
  constructor
  · rintro ⟨before, p, h, hnumbered, rfl⟩
    refine ⟨p.chars ++ h.chars, (List.mem_tails _ _).2 (List.suffix_append before _), ?_⟩
    rw [Position.ofChars?_eq_some_iff.2 ⟨hnumbered, rfl⟩]
    rfl
  · rintro ⟨t, ht, hsome⟩
    obtain ⟨before, rfl⟩ := (List.mem_tails _ _).1 ht
    obtain ⟨r, hr⟩ := Option.isSome_iff_exists.1 hsome
    exact (quotesPlace_of_ofChars? hr).append_left before

instance : DecidablePred QuotesPlace := fun _ => decidable_of_iff _ quotesPlace_iff.symm

theorem QuotesPlace.of_ofChars?_append {s t : List Char} (hs : s ≠ []) {r : Position × Heading}
    (h : Position.ofChars? (s ++ '(' :: t) = some r) : QuotesPlace s := by
  obtain ⟨hnumbered, heq⟩ := Position.ofChars?_eq_some_iff.1 h
  obtain ⟨c, s, rfl⟩ := List.exists_cons_of_ne_nil hs
  rw [Position.chars_append, List.cons_append, List.cons.injEq] at heq
  obtain ⟨rfl, heq⟩ := heq
  have hbracket := Position.not_mem_opening hnumbered
  rcases List.append_eq_append_iff.1 heq with ⟨rest, hopening, ht⟩ | ⟨rest, hs, -⟩
  · cases rest with
    | nil =>
        rw [List.append_nil] at hopening
        refine ⟨[], r.1, { r.2 with message := [] }, hnumbered, ?_⟩
        rw [List.nil_append, Position.chars_append, List.append_nil, ← hopening]
        rfl
    | cons c rest =>
        obtain ⟨rfl, -⟩ := List.cons.inj ht
        exact absurd (hopening ▸ by simp) hbracket
  · refine ⟨[], r.1, { r.2 with message := rest }, hnumbered, ?_⟩
    rw [List.nil_append, Position.chars_append, hs]
    rfl

namespace ReportLine

open Heading (IsNumber)

variable {s file : List Char} {p : Position} {h : Heading}

theorem located?_eq_none (hs : ¬ QuotesPlace s) : located? s = none := by
  induction s with
  | nil => rfl
  | cons c s ih =>
      have hs' : ¬ QuotesPlace s := fun h => hs (h.append_left [c])
      have hplace : Position.ofChars? s = none :=
        Option.eq_none_iff_forall_ne_some.2 fun r hr => hs' (quotesPlace_of_ofChars? hr)
      rw [located?, hplace]
      simp [ih hs']

/-- A heading whose message quotes no place is no diagnostic at a place. -/
theorem located?_heading (hh : IsNumber h.code) (hmessage : ¬ QuotesPlace h.message) :
    located? h.chars = none := by
  refine located?_eq_none fun hquotes => hmessage ?_
  have hword : '(' ∉ h.category.word.toList := by
    cases h.category <;> decide
  have hfront : '(' ∉ h.category.word.toList ++ (" TS".toList ++ (h.code ++ ": ".toList)) := by
    simp [hword, Position.not_mem_of_isNumber hh]
  refine QuotesPlace.of_append hfront ?_
  rw [Heading.chars] at hquotes
  simpa using hquotes

theorem eq_append_of_located? {r : List Char × Position × Heading} (h : located? s = some r) :
    r.1 ≠ [] ∧ r.2.1.IsNumbered r.2.2 ∧ s = r.1 ++ (r.2.1.chars ++ r.2.2.chars) := by
  induction s generalizing r with
  | nil => cases h
  | cons c s ih =>
      rw [located?] at h
      split at h
      case h_1 position heading hplace =>
        obtain rfl := Option.some.inj h
        obtain ⟨hnumbered, rfl⟩ := Position.ofChars?_eq_some_iff.1 hplace
        exact ⟨List.cons_ne_nil c [], hnumbered, rfl⟩
      case h_2 =>
        obtain ⟨r', hr', rfl⟩ := Option.map_eq_some_iff.1 h
        obtain ⟨-, hnumbered, hs⟩ := ih hr'
        exact ⟨List.cons_ne_nil c _, hnumbered, congrArg (c :: ·) hs⟩

theorem isSome_located? {t : List Char} (hfile : file ≠ [])
    (ht : (Position.ofChars? t).isSome = true) : (located? (file ++ t)).isSome = true := by
  induction file with
  | nil => exact absurd rfl hfile
  | cons c file ih =>
      rw [List.cons_append, located?]
      split
      case h_1 => rfl
      case h_2 hnone =>
        rw [Option.isSome_map]
        refine ih fun hnil => ?_
        rw [hnil, List.nil_append] at hnone
        rw [hnone] at ht
        cases ht

/-- Of a diagnostic at a place the name of the file is found, if it quotes no place itself. -/
theorem located?_append (hfile : file ≠ []) (hquotes : ¬ QuotesPlace file) (hp : p.IsNumbered h) :
    located? (file ++ (p.chars ++ h.chars)) = some (file, p, h) := by
  induction file with
  | nil => exact absurd rfl hfile
  | cons c file ih =>
      rw [List.cons_append, located?]
      cases file with
      | nil => rw [List.nil_append, Position.ofChars?_eq_some_iff.2 ⟨hp, rfl⟩]
      | cons d file =>
          have hquotes' : ¬ QuotesPlace (d :: file) := fun h => hquotes (h.append_left [c])
          have hplace : Position.ofChars? (d :: file ++ (p.chars ++ h.chars)) = none := by
            refine Option.eq_none_iff_forall_ne_some.2 fun r hr => hquotes' ?_
            rw [Position.chars_append] at hr
            exact QuotesPlace.of_ofChars?_append (List.cons_ne_nil d file) hr
          rw [hplace, ih (List.cons_ne_nil d file) hquotes']
          rfl

end ReportLine

/-- Whether a text has the form of a diagnostic, with or without a place. -/
def IsDiagnostic (s : List Char) : Prop :=
  (∃ (file : List Char) (p : Position) (h : Heading), file ≠ [] ∧ p.IsNumbered h ∧
    s = file ++ (p.chars ++ h.chars)) ∨
    ∃ h : Heading, Heading.IsNumber h.code ∧ s = h.chars

theorem isDiagnostic_iff {s : List Char} :
    IsDiagnostic s ↔
      (ReportLine.located? s).isSome = true ∨ (Heading.ofChars? s).isSome = true := by
  refine or_congr ⟨?_, fun h => ?_⟩ ⟨?_, fun h => ?_⟩
  · rintro ⟨file, p, h, hfile, hnumbered, rfl⟩
    refine ReportLine.isSome_located? hfile ?_
    rw [Position.ofChars?_eq_some_iff.2 ⟨hnumbered, rfl⟩]
    rfl
  · obtain ⟨r, hr⟩ := Option.isSome_iff_exists.1 h
    obtain ⟨hfile, hnumbered, hs⟩ := ReportLine.eq_append_of_located? hr
    exact ⟨r.1, r.2.1, r.2.2, hfile, hnumbered, hs⟩
  · rintro ⟨h, hnumber, rfl⟩
    rw [Heading.ofChars?_eq_some_iff.2 ⟨hnumber, rfl⟩]
    rfl
  · obtain ⟨r, hr⟩ := Option.isSome_iff_exists.1 h
    exact ⟨r, Heading.ofChars?_eq_some_iff.1 hr⟩

instance : DecidablePred IsDiagnostic := fun _ => decidable_of_iff _ isDiagnostic_iff.symm

end DeclBundle
