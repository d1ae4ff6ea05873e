import DeclBundle.Proofs.DiagnosticForm
import DeclBundle.Proofs.Identity

/-!
# Reports read back

A report is a row of items: diagnostics with or without a place, each with the lines that go on with it,
listed files, blank lines and lines of no interest. `render` writes them line by line as the compiler
prints them, and `ReportItem.IsPlain` says what keeps an item apart from the others: there are no line
ends within it, and what stands in front of its place or its message quotes no other place. Reading what
was written gives the listed files and the diagnostics in order, with the lines that go on with them, as
long as each number can be read (`read_render`).
-/

namespace DeclBundle

namespace Text

variable {s : List Char} {c : Char}

theorem trimRight_eq_self (h : ∀ c ∈ s.getLast?, isBlank c = false) : trimRight s = s := by
  rw [← List.head?_reverse] at h
  rw [trimRight]
  cases hs : s.reverse with
  | nil => rw [List.dropWhile_nil, ← hs, List.reverse_reverse]
  | cons c cs =>
      have hc : isBlank c = false := h c (by rw [hs]; rfl)
      rw [List.dropWhile_cons_of_neg (by simp [hc]), ← hs, List.reverse_reverse]

theorem trim_eq_nil_iff : trim s = [] ↔ ∀ c ∈ s, isBlank c = true := by
  have hright (t : List Char) : trimRight t = [] ↔ ∀ c ∈ t, isBlank c = true := by
    rw [trimRight, List.reverse_eq_nil_iff, List.dropWhile_eq_nil_iff]
    simp
  rw [trim, hright]
  constructor
  · intro h
    -- The first character that is left is not blank, so none is left.
    refine List.dropWhile_eq_nil_iff.1 (Option.not_isSome_iff_eq_none.1 ?_ |> List.head?_eq_none_iff.1)
    intro hsome
    obtain ⟨c, hc⟩ := Option.isSome_iff_exists.1 hsome
    have hhead := List.head?_dropWhile_not isBlank s
    rw [hc] at hhead
    have hblank := h c (List.mem_of_head? hc)
    simp [hblank] at hhead
  · intro h c hc
    exact h c ((List.dropWhile_sublist _).mem hc)

theorem head?_trim (hc : isBlank c = false) (cs : List Char) : (trim (c :: cs)).head? = some c := by
  have hleft : trimLeft (c :: cs) = c :: cs := by
    rw [trimLeft, List.dropWhile_cons_of_neg (by simp [hc])]
  have hne : trim (c :: cs) ≠ [] := by
    intro hnil
    have hblank := trim_eq_nil_iff.1 hnil c List.mem_cons_self
    rw [hc] at hblank
    cases hblank
  have hfront : trim (c :: cs) <+: c :: cs := by
    rw [trim, hleft, trimRight, ← List.reverse_suffix, List.reverse_reverse]
    exact List.dropWhile_suffix _
  obtain ⟨d, ds, hd⟩ := List.exists_cons_of_ne_nil hne
  rw [hd] at hfront ⊢
  rw [(List.cons_prefix_cons.1 hfront).1]
  rfl

theorem trim_eq_self {cs : List Char} (hc : isBlank c = false)
    (hlast : ∀ d ∈ (c :: cs).getLast?, isBlank d = false) : trim (c :: cs) = c :: cs := by
  rw [trim, trimLeft, List.dropWhile_cons_of_neg (by simp [hc]), trimRight_eq_self hlast]

theorem digitValue?_digitChar {d : Nat} (h : d < 10) : digitValue? d.digitChar = some d := by
  have hall : ∀ d < 10, digitValue? d.digitChar = some d := by decide
  exact hall d h

theorem isDecimalDigit_of_mem_toDigits {n : Nat} (h : c ∈ Nat.toDigits 10 n) :
    isDecimalDigit c = true := by
  have hdigit := Nat.isDigit_of_mem_toDigits (by decide) (by decide) h
  simp only [Char.isDigit, Bool.and_eq_true, decide_eq_true_eq, UInt32.le_iff_toNat_le] at hdigit
  have hrange : 48 ≤ c.toNat ∧ c.toNat < 58 := ⟨hdigit.1, Nat.lt_succ_of_le hdigit.2⟩
  simp [isDecimalDigit, digitValue?, digitZeros, hrange]

theorem naturalOf_toDigits (n : Nat) : naturalOf (Nat.toDigits 10 n) = n := by
  induction n using Nat.strongRecOn with
  | ind n ih =>
      rw [Nat.toDigits_eq_if (by decide)]
      split
      case isTrue h =>
        rw [← List.nil_append [_], naturalOf_append_singleton, digitValue?_digitChar h]
        simp
      case isFalse h =>
        have hdigit : n % 10 < 10 := Nat.mod_lt n (by decide)
        rw [naturalOf_append_singleton, ih (n / 10) (by omega), digitValue?_digitChar hdigit,
          Option.getD_some]
        omega

theorem lt_length_toDigits_pow {k : Nat} (hk : 0 < k) : k < (Nat.toDigits 10 (Nat.pow 10 k)).length := by
  rw [← Nat.not_le, Nat.length_toDigits_le_iff (by decide) hk]
  exact Nat.lt_irrefl _

end Text

namespace Report

def IsShort (n : Nat) : Prop := (Nat.toDigits 10 n).length ≤ Text.digitLimit
deriving Decidable

theorem number_toDigits (n : Nat) :
    number (Nat.toDigits 10 n) =
      if IsShort n then .ok n else .error (.longNumber (Nat.toDigits 10 n).length) := by
  rw [number, Text.naturalOf_toDigits]
  by_cases h : IsShort n
  · rw [if_pos h, if_neg (Nat.not_lt.2 h)]
  · rw [if_neg h, if_pos (Nat.not_le.1 h)]

end Report

structure Remark where
  category : Category
  code : Nat
  message : String
  more : List String

namespace Remark

def heading (r : Remark) : String := r.category.word ++ " TS" ++ toString r.code ++ ": " ++ r.message

def text (r : Remark) : String := "\n".intercalate (r.message :: r.more)

def toHeading (r : Remark) : Heading := ⟨r.category, Nat.toDigits 10 r.code, r.message.toList⟩

theorem toList_toString (n : Nat) : (toString n).toList = Nat.toDigits 10 n := by
  rw [Nat.toString_eq_ofList_toDigits, String.toList_ofList]

theorem toList_heading (r : Remark) : r.heading.toList = r.toHeading.chars := by
  simp [heading, toHeading, Heading.chars]

end Remark

/-- What a compiler says in a report. -/
inductive ReportItem where
  | located (file : String) (line column : Nat) (remark : Remark)
  | general (remark : Remark)
  | listed (path : String)
  | blank (text : String)
  | noise (text : String)

namespace ReportItem

def lines : ReportItem → List String
  | located file line column r =>
    (file ++ "(" ++ toString line ++ "," ++ toString column ++ "): " ++ r.heading) :: r.more
  | general r => r.heading :: r.more
  | listed path => [path]
  | blank text => [text]
  | noise text => [text]

def render (items : List ReportItem) : String :=
  String.join ((items.flatMap lines).map fun l => l ++ "\n")

def path? : ReportItem → Option String
  | listed path => some path
  | _ => none

/-- The diagnostic that an item is, its file being seen from a directory. -/
def diagnostic? (cwd : String) : ReportItem → Option Diagnostic
  | located file line column r =>
    some ⟨some (Path.normalize (Path.join cwd file)), line, column, r.code, r.text, r.category⟩
  | general r => some ⟨none, 0, 0, r.code, r.text, r.category⟩
  | _ => none

def ignored? : ReportItem → Option String
  | noise text => some text
  | _ => none

def report (cwd : String) (items : List ReportItem) : Report where
  files := items.filterMap path?
  diagnostics := items.filterMap (diagnostic? cwd)
  ignored := items.filterMap ignored?

def IsLine (s : String) : Prop := ∀ c ∈ s.toList, Text.isLineEnd c = false

instance : DecidablePred IsLine := fun _ => List.decidableBAll _ _

def IsFlush (s : String) : Prop := ∃ c ∈ s.toList.head?, Text.isBlank c = false

instance : DecidablePred IsFlush := fun _ => Option.decidableExistsMem _

def IsUnpadded (s : String) : Prop := ∀ c ∈ s.toList.getLast?, Text.isBlank c = false

instance : DecidablePred IsUnpadded := fun _ => Option.decidableForallMem _

def IsBlank (s : String) : Prop := ∀ c ∈ s.toList, Text.isBlank c = true

instance : DecidablePred IsBlank := fun _ => List.decidableBAll _ _

/-- Whether a text goes on with a diagnostic: it begins with a blank character and ends with another one. -/
def IsMore (s : String) : Prop :=
  (∃ c ∈ s.toList.head?, Text.isBlank c = true) ∧ ∃ c ∈ s.toList.getLast?, Text.isBlank c = false

instance : DecidablePred IsMore := fun _ =>
  @instDecidableAnd _ _ (Option.decidableExistsMem _) (Option.decidableExistsMem _)

def IsPlainRemark (r : Remark) : Prop := IsLine r.message ∧ ∀ l ∈ r.more, IsLine l ∧ IsMore l
deriving Decidable

/-- Whether the lines of an item are not taken for anything else. -/
def IsPlain : ReportItem → Prop
  | located file _ _ r => IsFlush file ∧ IsLine file ∧ ¬ QuotesPlace file.toList ∧ IsPlainRemark r
  | general r => ¬ QuotesPlace r.message.toList ∧ IsPlainRemark r
  | listed path =>
    Path.isAbsolute path = true ∧ Path.normalize path = path ∧ IsLine path ∧ IsUnpadded path ∧
      ¬ QuotesPlace path.toList
  | blank text => IsLine text ∧ IsBlank text
  | noise text =>
    IsFlush text ∧ IsLine text ∧ Path.isAbsolute text = false ∧ ¬ IsDiagnostic text.toList

instance : DecidablePred IsPlain
  | located _ _ _ _ => inferInstanceAs (Decidable (_ ∧ _))
  | general _ => inferInstanceAs (Decidable (_ ∧ _))
  | listed _ => inferInstanceAs (Decidable (_ ∧ _))
  | blank _ => inferInstanceAs (Decidable (_ ∧ _))
  | noise _ => inferInstanceAs (Decidable (_ ∧ _))

/-- Whether the numbers of an item do not have too many digits to be read. -/
def IsReadable : ReportItem → Prop
  | located _ line column r => Report.IsShort line ∧ Report.IsShort column ∧ Report.IsShort r.code
  | general r => Report.IsShort r.code
  | _ => True

instance : DecidablePred IsReadable
  | located _ _ _ _ => inferInstanceAs (Decidable (_ ∧ _))
  | general _ => inferInstanceAs (Decidable (Report.IsShort _))
  | listed _ => isTrue trivial
  | blank _ => isTrue trivial
  | noise _ => isTrue trivial

section Lines

variable {s t : String}

theorem isLine_append (hs : IsLine s) (ht : IsLine t) : IsLine (s ++ t) := by
  intro c hc
  rw [String.toList_append] at hc
  exact (List.mem_append.1 hc).elim (hs c) (ht c)

theorem isLine_toString (n : Nat) : IsLine (toString n) := by
  intro c hc
  rw [Remark.toList_toString] at hc
  have hdigit := Nat.isDigit_of_mem_toDigits (by decide) (by decide) hc
  simp only [Char.isDigit, Bool.and_eq_true, decide_eq_true_eq, UInt32.le_iff_toNat_le] at hdigit
  have hrange : 48 ≤ c.toNat ∧ c.toNat ≤ 57 := hdigit
  simp only [Text.isLineEnd, Bool.or_eq_false_iff, Bool.and_eq_false_iff, decide_eq_false_iff_not,
    beq_eq_false_iff_ne]
  omega

theorem isLine_heading {r : Remark} (h : IsLine r.message) : IsLine r.heading := by
  have hword : IsLine r.category.word := by cases r.category <;> decide
  have hts : IsLine " TS" := by decide
  have hcolon : IsLine ": " := by decide
  exact isLine_append (isLine_append (isLine_append (isLine_append hword hts) (isLine_toString _))
    hcolon) h

theorem isLine_of_mem_lines {i : ReportItem} (h : i.IsPlain) {l : String} (hl : l ∈ i.lines) :
    IsLine l := by
  cases i with
  | located file line column r =>
      obtain ⟨-, hfile, -, hmessage, hmore⟩ := h
      rcases List.mem_cons.1 hl with rfl | hl
      · have hopen : IsLine "(" := by decide
        have hcomma : IsLine "," := by decide
        have hclose : IsLine "): " := by decide
        exact isLine_append (isLine_append (isLine_append (isLine_append (isLine_append
          (isLine_append hfile hopen) (isLine_toString _)) hcomma) (isLine_toString _)) hclose)
          (isLine_heading hmessage)
      · exact (hmore l hl).1
  | general r =>
      obtain ⟨-, hmessage, hmore⟩ := h
      rcases List.mem_cons.1 hl with rfl | hl
      · exact isLine_heading hmessage
      · exact (hmore l hl).1
  | listed path =>
      obtain rfl := List.mem_singleton.1 hl
      exact h.2.2.1
  | blank text =>
      obtain rfl := List.mem_singleton.1 hl
      exact h.1
  | noise text =>
      obtain rfl := List.mem_singleton.1 hl
      exact h.2.1

theorem lines_join {ls : List String} (h : ∀ l ∈ ls, IsLine l) :
    Text.lines (String.join (ls.map fun l => l ++ "\n")).toList = ls.map String.toList := by
  induction ls with
  | nil => rfl
  | cons l ls ih =>
      have htext : (String.join ((l :: ls).map fun l => l ++ "\n")).toList =
          l.toList ++ '\n' :: (String.join (ls.map fun l => l ++ "\n")).toList := by
        simp [String.join_cons]
      rw [htext, Text.lines_append_newline (h l List.mem_cons_self),
        ih fun l' hl' => h l' (List.mem_cons_of_mem l hl'), List.map_cons]

theorem lines_render {items : List ReportItem} (h : ∀ i ∈ items, i.IsPlain) :
    Text.lines (render items).toList = (items.flatMap lines).map String.toList := by
  refine lines_join fun l hl => ?_
  obtain ⟨i, hi, hl⟩ := List.mem_flatMap.1 hl
  exact isLine_of_mem_lines (h i hi) hl

end Lines

section Kinds

variable {s : List Char} {text : String} {r : Remark}

theorem isNumber_toDigits (n : Nat) : Heading.IsNumber (Nat.toDigits 10 n) :=
  ⟨Nat.toDigits_ne_nil, fun _ => Text.isDecimalDigit_of_mem_toDigits⟩

def positionOf (line column : Nat) : Position := ⟨Nat.toDigits 10 line, Nat.toDigits 10 column⟩

theorem isNumbered_positionOf (line column : Nat) (r : Remark) :
    (positionOf line column).IsNumbered r.toHeading :=
  ⟨isNumber_toDigits line, isNumber_toDigits column, isNumber_toDigits r.code⟩

theorem toList_located (file : String) (line column : Nat) (r : Remark) :
    (file ++ "(" ++ toString line ++ "," ++ toString column ++ "): " ++ r.heading).toList =
      file.toList ++ ((positionOf line column).chars ++ r.toHeading.chars) := by
  simp [positionOf, Position.chars, Remark.toList_heading]

theorem ofChars_of_flush (h : ∃ c ∈ s.head?, Text.isBlank c = false) :
    ReportLine.ofChars s =
      match ReportLine.located? s, Heading.ofChars? s with
      | some (path, position, heading), _ => .located path position heading
      | none, some heading => .general heading
      | none, none =>
        if ReportLine.isAbsolute (Text.trim s) then .file (Text.trim s) else .noise s := by
  obtain ⟨c, hc, hflush⟩ := h
  cases s with
  | nil => cases hc
  | cons d s =>
      obtain rfl := Option.some.inj hc
      have htrim : (Text.trim (d :: s)).isEmpty = false := by
        have hhead := Text.head?_trim hflush s
        rw [List.isEmpty_eq_false_iff]
        intro hnil
        rw [hnil] at hhead
        cases hhead
      rw [ReportLine.ofChars, if_neg (by simp [htrim])]
      exact if_neg (by simp [hflush])

theorem ofChars_located {file : String} {line column : Nat} (hflush : IsFlush file)
    (hquotes : ¬ QuotesPlace file.toList) :
    ReportLine.ofChars (file ++ "(" ++ toString line ++ "," ++ toString column ++ "): " ++
        r.heading).toList =
      .located file.toList (positionOf line column) r.toHeading := by
  obtain ⟨c, hc, hblank⟩ := hflush
  have hne : file.toList ≠ [] := by
    intro hnil
    rw [hnil] at hc
    cases hc
  rw [toList_located, ofChars_of_flush ⟨c, List.mem_head?_append_of_mem_head? hc, hblank⟩,
    ReportLine.located?_append hne hquotes (isNumbered_positionOf line column r)]

theorem ofChars_general (hquotes : ¬ QuotesPlace r.message.toList) :
    ReportLine.ofChars r.heading.toList = .general r.toHeading := by
  have hnumber := isNumber_toDigits r.code
  have hflush : ∃ c ∈ r.toHeading.chars.head?, Text.isBlank c = false := by
    unfold Heading.chars
    cases r.toHeading.category
    · exact ⟨'e', rfl, by decide⟩
    · exact ⟨'w', rfl, by decide⟩
    · exact ⟨'m', rfl, by decide⟩
  rw [Remark.toList_heading, ofChars_of_flush hflush, ReportLine.located?_heading hnumber hquotes,
    Heading.ofChars?_eq_some_iff.2 ⟨hnumber, rfl⟩]

theorem ofChars_of_not_isDiagnostic (hflush : IsFlush text) (h : ¬ IsDiagnostic text.toList) :
    ReportLine.ofChars text.toList =
      if ReportLine.isAbsolute (Text.trim text.toList) then .file (Text.trim text.toList)
      else .noise text.toList := by
  rw [isDiagnostic_iff, not_or, Option.not_isSome_iff_eq_none, Option.not_isSome_iff_eq_none] at h
  rw [ofChars_of_flush hflush, h.1, h.2]

theorem ofChars_listed (habsolute : Path.isAbsolute text = true)
    (hlast : IsUnpadded text) (h : ¬ QuotesPlace text.toList) :
    ReportLine.ofChars text.toList = .file text.toList := by
  obtain ⟨cs, hcs⟩ := Path.isAbsolute_iff.1 habsolute
  have hslash : Text.isBlank '/' = false := by decide
  have hflush : IsFlush text := ⟨'/', by rw [hcs]; rfl, hslash⟩
  have hnot : ¬ IsDiagnostic text.toList := by
    rintro (⟨file, p, heading, -, hnumbered, heq⟩ | ⟨heading, -, heq⟩)
    · exact h ⟨file, p, heading, hnumbered, heq⟩
    · rw [hcs, Heading.chars] at heq
      cases hword : heading.category <;> rw [hword] at heq <;> simp [Category.word] at heq
  have htrim : Text.trim text.toList = text.toList := by
    rw [IsUnpadded, hcs] at hlast
    rw [hcs]
    exact Text.trim_eq_self hslash hlast
  rw [ofChars_of_not_isDiagnostic hflush hnot, htrim, if_pos (by rw [hcs]; rfl)]

theorem ofChars_noise (hflush : IsFlush text) (habsolute : Path.isAbsolute text = false)
    (h : ¬ IsDiagnostic text.toList) : ReportLine.ofChars text.toList = .noise text.toList := by
  have hnot : ReportLine.isAbsolute (Text.trim text.toList) = false := by
    obtain ⟨c, hc, hblank⟩ := id hflush
    cases htext : text.toList with
    | nil => rfl
    | cons d cs =>
        rw [htext] at hc
        obtain rfl := Option.some.inj hc
        have hhead := Text.head?_trim hblank cs
        unfold ReportLine.isAbsolute
        split
        case h_1 heq =>
          rw [heq] at hhead
          have hslash : d = '/' := (Option.some.inj hhead).symm
          rw [Path.isAbsolute_iff.2 ⟨cs, hslash ▸ htext⟩] at habsolute
          exact habsolute
        case h_2 => rfl
  rw [ofChars_of_not_isDiagnostic hflush h, hnot, if_neg Bool.false_ne_true]

theorem ofChars_blank (h : IsBlank text) :
    ReportLine.ofChars text.toList = .blank := by
  cases htext : text.toList with
  | nil => rfl
  | cons c cs =>
      rw [ReportLine.ofChars, if_pos]
      rw [List.isEmpty_iff, Text.trim_eq_nil_iff, ← htext]
      exact h

theorem ofChars_more (h : IsMore text) : ReportLine.ofChars text.toList = .more text.toList := by
  obtain ⟨⟨c, hc, hblank⟩, d, hd, hlast⟩ := h
  have hright : Text.trimRight text.toList = text.toList :=
    Text.trimRight_eq_self fun e he => Option.some.inj (hd.symm.trans he) ▸ hlast
  have htrim : (Text.trim text.toList).isEmpty = false := by
    rw [List.isEmpty_eq_false_iff]
    intro hnil
    have hall := Text.trim_eq_nil_iff.1 hnil d (List.mem_of_getLast? hd)
    rw [hlast] at hall
    cases hall
  cases htext : text.toList with
  | nil =>
      rw [htext] at hc
      cases hc
  | cons e cs =>
      rw [htext] at hc hright htrim
      obtain rfl := Option.some.inj hc
      rw [ReportLine.ofChars, if_neg (by simp [htrim]), if_pos hblank, hright]

end Kinds

end ReportItem

namespace Report

open ReportItem

variable {cwd : String}

def append (r r' : Report) : Report where
  files := r.files ++ r'.files
  diagnostics := r.diagnostics ++ r'.diagnostics
  ignored := r.ignored ++ r'.ignored

theorem append_assoc (r r' r'' : Report) : (r.append r').append r'' = r.append (r'.append r'') := by
  simp [append]

@[simp] theorem append_empty (r : Report) : r.append empty = r := by
  simp [append, empty]

@[simp] theorem empty_append (r : Report) : empty.append r = r := by
  simp [append, empty]

theorem report_cons (cwd : String) (i : ReportItem) (items : List ReportItem) :
    report cwd (i :: items) = (report cwd [i]).append (report cwd items) := by
  simp only [report, append, ← List.filterMap_append, List.singleton_append]

theorem report_singleton (cwd : String) (i : ReportItem) :
    report cwd [i] = ⟨i.path?.toList, (i.diagnostic? cwd).toList, i.ignored?.toList⟩ := by
  cases i <;> rfl

theorem addAll_cons_of_ok {r r' : Report} {l : List Char} (ls : List (List Char))
    (h : r.add cwd (ReportLine.ofChars l) = .ok r') : addAll cwd r (l :: ls) = addAll cwd r' ls := by
  rw [addAll, h]

theorem extendLast_append_singleton (text : List Char) (ds : List Diagnostic) (d : Diagnostic) :
    extendLast text (ds ++ [d]) =
      ds ++ [{ d with message := d.message ++ String.ofList ('\n' :: text) }] := by
  induction ds with
  | nil => rfl
  | cons e ds ih =>
      cases ds with
      | nil => rfl
      | cons e' ds => exact congrArg (e :: ·) ih

/-- The lines that go on with a diagnostic become lines of its message. -/
theorem addAll_more {more : List String} (h : ∀ l ∈ more, IsMore l) (r : Report) (d : Diagnostic)
    (ls : List (List Char)) :
    addAll cwd (r.addDiagnostic d) (more.map String.toList ++ ls) =
      addAll cwd (r.addDiagnostic { d with message := "\n".intercalate (d.message :: more) }) ls := by
  induction more generalizing d with
  | nil => rfl
  | cons l more ih =>
      have hline : ReportLine.ofChars l.toList = .more l.toList :=
        ofChars_more (h l List.mem_cons_self)
      have hadd : (r.addDiagnostic d).add cwd (ReportLine.ofChars l.toList) =
          .ok (r.addDiagnostic { d with message := d.message ++ "\n" ++ l }) := by
        have htext : String.ofList ('\n' :: l.toList) = "\n" ++ l := by
          rw [← String.toList_inj]
          simp
        rw [hline, add, addDiagnostic, extendLast_append_singleton, htext, ← String.append_assoc]
        rfl
      rw [List.map_cons, List.cons_append, addAll_cons_of_ok _ hadd,
        ih fun l' hl' => h l' (List.mem_cons_of_mem l hl')]
      rfl

section Heads

variable {file : String} {line column : Nat} {remark : Remark}

/-- The first line of a diagnostic at a place adds the diagnostic as far as that line has it. -/
theorem add_located (hflush : IsFlush file) (hquotes : ¬ QuotesPlace file.toList)
    (hread : (located file line column remark).IsReadable) (r : Report) :
    r.add cwd (ReportLine.ofChars (file ++ "(" ++ toString line ++ "," ++ toString column ++ "): " ++
        remark.heading).toList) =
      .ok (r.addDiagnostic ⟨some (Path.normalize (Path.join cwd file)), line, column, remark.code,
        remark.message, remark.category⟩) := by
  obtain ⟨hline, hcolumn, hcode⟩ := hread
  rw [ofChars_located hflush hquotes, add, positionOf, Remark.toHeading, number_toDigits,
    number_toDigits, number_toDigits, if_pos hline, if_pos hcolumn, if_pos hcode, String.ofList_toList,
    String.ofList_toList]
  rfl

theorem exists_add_located_eq_error (hflush : IsFlush file) (hquotes : ¬ QuotesPlace file.toList)
    (hread : ¬ (located file line column remark).IsReadable) (r : Report) :
    ∃ e, r.add cwd (ReportLine.ofChars (file ++ "(" ++ toString line ++ "," ++ toString column ++
      "): " ++ remark.heading).toList) = .error e := by
  rw [ofChars_located hflush hquotes, add, positionOf, Remark.toHeading, number_toDigits,
    number_toDigits, number_toDigits]
  by_cases hline : IsShort line
  · by_cases hcolumn : IsShort column
    · have hcode : ¬ IsShort remark.code := fun hcode => hread ⟨hline, hcolumn, hcode⟩
      rw [if_pos hline, if_pos hcolumn, if_neg hcode]
      exact ⟨_, rfl⟩
    · rw [if_pos hline, if_neg hcolumn]
      exact ⟨_, rfl⟩
  · rw [if_neg hline]
    exact ⟨_, rfl⟩

theorem add_general (hquotes : ¬ QuotesPlace remark.message.toList) (hcode : IsShort remark.code)
    (r : Report) :
    r.add cwd (ReportLine.ofChars remark.heading.toList) =
      .ok (r.addDiagnostic ⟨none, 0, 0, remark.code, remark.message, remark.category⟩) := by
  rw [ofChars_general hquotes, add, Remark.toHeading, number_toDigits, if_pos hcode,
    String.ofList_toList]
  rfl

theorem exists_add_general_eq_error (hquotes : ¬ QuotesPlace remark.message.toList)
    (hcode : ¬ IsShort remark.code) (r : Report) :
    ∃ e, r.add cwd (ReportLine.ofChars remark.heading.toList) = .error e := by
  rw [ofChars_general hquotes, add, Remark.toHeading, number_toDigits, if_neg hcode]
  exact ⟨_, rfl⟩

end Heads

theorem addAll_lines {i : ReportItem} (h : i.IsPlain) (hread : i.IsReadable) (r : Report)
    (ls : List (List Char)) :
    addAll cwd r (i.lines.map String.toList ++ ls) = addAll cwd (r.append (report cwd [i])) ls := by
  cases i with
  | located file line column remark =>
      obtain ⟨hflush, -, hquotes, -, hmore⟩ := h
      rw [lines, List.map_cons, List.cons_append,
        addAll_cons_of_ok _ (add_located hflush hquotes hread r),
        addAll_more fun l hl => (hmore l hl).2, report_singleton]
      simp [append, addDiagnostic, path?, diagnostic?, ignored?, Remark.text]
  | general remark =>
      obtain ⟨hquotes, -, hmore⟩ := h
      rw [lines, List.map_cons, List.cons_append, addAll_cons_of_ok _ (add_general hquotes hread r),
        addAll_more fun l hl => (hmore l hl).2, report_singleton]
      simp [append, addDiagnostic, path?, diagnostic?, ignored?, Remark.text]
  | listed path =>
      obtain ⟨habsolute, hnormal, -, hlast, hquotes⟩ := h
      have hadd : r.add cwd (ReportLine.ofChars path.toList) =
          .ok (r.append ⟨[path], [], []⟩) := by
        rw [ofChars_listed habsolute hlast hquotes, add, String.ofList_toList, hnormal]
        simp [append]
      exact addAll_cons_of_ok ls hadd
  | blank text =>
      have hadd : r.add cwd (ReportLine.ofChars text.toList) = .ok (r.append empty) := by
        rw [ofChars_blank h.2, add, append_empty]
      exact addAll_cons_of_ok ls hadd
  | noise text =>
      obtain ⟨hflush, -, habsolute, hform⟩ := h
      have hadd : r.add cwd (ReportLine.ofChars text.toList) = .ok (r.append ⟨[], [], [text]⟩) := by
        rw [ofChars_noise hflush habsolute hform, add, String.ofList_toList]
        simp [append]
      exact addAll_cons_of_ok ls hadd

theorem addAll_lines_of_not_isReadable {i : ReportItem} (h : i.IsPlain) (hread : ¬ i.IsReadable)
    (r : Report) (ls : List (List Char)) :
    (addAll cwd r (i.lines.map String.toList ++ ls)).2 ≠ none := by
  cases i with
  | located file line column remark =>
      obtain ⟨hflush, -, hquotes, -, -⟩ := h
      obtain ⟨e, hadd⟩ := exists_add_located_eq_error hflush hquotes hread r
      rw [lines, List.map_cons, List.cons_append, addAll, hadd]
      exact Option.some_ne_none e
  | general remark =>
      obtain ⟨e, hadd⟩ := exists_add_general_eq_error h.1 hread r
      rw [lines, List.map_cons, List.cons_append, addAll, hadd]
      exact Option.some_ne_none e
  | listed path => exact absurd trivial hread
  | blank text => exact absurd trivial hread
  | noise text => exact absurd trivial hread

theorem addAll_flatMap_lines {items : List ReportItem} (h : ∀ i ∈ items, i.IsPlain)
    (hread : ∀ i ∈ items, i.IsReadable) (r : Report) :
    addAll cwd r ((items.flatMap ReportItem.lines).map String.toList) =
      (r.append (report cwd items), none) := by
  induction items generalizing r with
  | nil => exact congrArg (·, none) r.append_empty.symm
  | cons i items ih =>
      rw [List.flatMap_cons, List.map_append,
        addAll_lines (h i List.mem_cons_self) (hread i List.mem_cons_self),
        ih (fun j hj => h j (List.mem_cons_of_mem i hj))
          (fun j hj => hread j (List.mem_cons_of_mem i hj)),
        append_assoc, ← report_cons]

theorem addAll_flatMap_lines_eq_none_iff {items : List ReportItem} (h : ∀ i ∈ items, i.IsPlain)
    (r : Report) :
    (addAll cwd r ((items.flatMap ReportItem.lines).map String.toList)).2 = none ↔
      ∀ i ∈ items, i.IsReadable := by
  induction items generalizing r with
  | nil => simp [addAll]
  | cons i items ih =>
      have hi := h i List.mem_cons_self
      rw [List.flatMap_cons, List.map_append, List.forall_mem_cons]
      by_cases hread : i.IsReadable
      · rw [addAll_lines hi hread, ih fun j hj => h j (List.mem_cons_of_mem i hj)]
        simp [hread]
      · simp [hread, addAll_lines_of_not_isReadable hi hread]

/-- A report is read back exactly: it is read to its end if all its numbers can be read, and then gives the
listed files and the diagnostics in order. -/
theorem read_render {items : List ReportItem} (h : ∀ i ∈ items, i.IsPlain) :
    ((read cwd (render items)).2 = none ↔ ∀ i ∈ items, i.IsReadable) ∧
      ((∀ i ∈ items, i.IsReadable) → read cwd (render items) = (report cwd items, none)) := by
  rw [read, lines_render h]
  refine ⟨addAll_flatMap_lines_eq_none_iff h empty, fun hread => ?_⟩
  rw [addAll_flatMap_lines h hread, empty_append]

/-- A report with a bracket in the name of a file and a message that quotes a diagnostic. -/
def mixedItems : List ReportItem := [
  .listed "/p/a (1).ts",
  .located "a (1).ts" 3 7 ⟨.error, 2322, "as in b.ts(1,1): error TS1: No.", ["  See there.", "\tOr not."]⟩,
  .noise "Found 1 error (a).ts",
  .blank " \t",
  .general ⟨.warning, 6053, "File 'c.ts' not found.", ["  Why?"]⟩]

theorem read_render_mixedItems :
    (∀ i ∈ mixedItems, i.IsPlain) ∧ (∀ i ∈ mixedItems, i.IsReadable) ∧
      read "/p" (render mixedItems) = (report "/p" mixedItems, none) ∧
      report "/p" mixedItems = ⟨["/p/a (1).ts"],
        [⟨some "/p/a (1).ts", 3, 7, 2322, "as in b.ts(1,1): error TS1: No.\n  See there.\n\tOr not.",
            .error⟩,
          ⟨none, 0, 0, 6053, "File 'c.ts' not found.\n  Why?", .warning⟩],
        ["Found 1 error (a).ts"]⟩ := by
  have hplain : ∀ i ∈ mixedItems, i.IsPlain := by decide +kernel
  have hreadable : ∀ i ∈ mixedItems, i.IsReadable := by decide +kernel
  exact ⟨hplain, hreadable, (read_render hplain).2 hreadable, by decide +kernel⟩

def farLine : Nat := Nat.pow 10 Text.digitLimit

theorem not_isShort_farLine : ¬ IsShort farLine := by
  have hlimit : 0 < Text.digitLimit := by decide
  have hfar := Text.lt_length_toDigits_pow hlimit
  unfold IsShort farLine
  exact Nat.not_le.2 hfar

/-- A file, and a diagnostic in a line of another one the number of which has one digit too many. -/
def farItems : List ReportItem := [.listed "/p/a.d.ts", .located "b.ts" farLine 1 ⟨.warning, 1, "x", []⟩]

/-- A number with too many digits is not read back. -/
theorem not_read_render_farItems :
    (∀ i ∈ farItems, i.IsPlain) ∧ read "/p" (render farItems) ≠ (report "/p" farItems, none) := by
  have hplain : ∀ i ∈ farItems, i.IsPlain := by
    refine List.forall_mem_cons.2 ⟨by decide +kernel, List.forall_mem_singleton.2 ?_⟩
    exact ⟨by decide, by decide, by decide +kernel, by decide⟩
  refine ⟨hplain, fun heq => ?_⟩
  rw [read, lines_render hplain] at heq
  have hreadable := (addAll_flatMap_lines_eq_none_iff hplain empty).1 (congrArg Prod.snd heq) _
    (List.mem_cons_of_mem _ List.mem_cons_self)
  exact not_isShort_farLine hreadable.1

end Report

end DeclBundle
