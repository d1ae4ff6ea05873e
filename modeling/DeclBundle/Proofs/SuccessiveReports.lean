import DeclBundle.Proofs.ReportItem
import Mathlib.Logic.Relation

/-!
# Reports one after another

What a report says depends on its written lines alone, those that are not blank (`read_eq_addAll`), and
these follow one another when texts do (`writtenLines_append_cons`). So neither the line ends nor blank
lines matter. Read behind another one, a report adds what it says when it is read alone, but for the
indented lines in front of its first diagnostic: read alone they go on with nothing, and behind another
report they go on with its last diagnostic, whatever else stands between (`addAll_eq`). This is all that
keeps two reports from being read apart (`read_successive`).
-/

namespace DeclBundle

namespace Text

variable {s t : List Char} {c : Char}

def isBlankLine (l : List Char) : Bool := l.all isBlank

/-- The lines of a text on which something is written. -/
def writtenLines (s : List Char) : List (List Char) := (lines s).filter fun l => !isBlankLine l

def EndsLine (s : String) : Prop := ∀ c ∈ s.toList.getLast?, isLineEnd c = true

instance : DecidablePred EndsLine := fun _ => Option.decidableForallMem _

/-- A text is another one with blank lines put in where one of its lines begins. -/
inductive Spaces : String → String → Prop
  | put (before blanks after : String) (hbefore : EndsLine before)
      (hblanks : blanks.toList.all isBlank = true) (hends : EndsLine blanks) :
      Spaces (before ++ after) (before ++ blanks ++ after)

/-- A text with a carriage return in front of every line feed. -/
def withReturns (s : String) : String :=
  String.ofList (s.toList.flatMap fun c => if c = '\n' then ['\r', '\n'] else [c])

/-- Whether the lines of a text and its stretches between line ends begin with the same one, and differ behind
it at most in blank ones. -/
def LinesAreStretches (s : List Char) : Prop :=
  s = [] ∨ ∃ l ls ls', lines s = l :: ls ∧ s.splitOnP isLineEnd = l :: ls' ∧
    (ls.filter fun l => !isBlankLine l) = ls'.filter fun l => !isBlankLine l

theorem LinesAreStretches.writtenLines_eq (h : LinesAreStretches s) :
    writtenLines s = (s.splitOnP isLineEnd).filter fun l => !isBlankLine l := by
  obtain rfl | ⟨l, ls, ls', hlines, hsplit, hrest⟩ := h
  · rfl
  · rw [writtenLines, hlines, hsplit, List.filter_cons, List.filter_cons, hrest]

theorem linesAreStretches (s : List Char) : LinesAreStretches s := by
  induction s using lines.induct with
  | case1 => exact .inl rfl
  | case2 cs ih =>
      refine .inr ⟨[], lines cs, [] :: cs.splitOnP isLineEnd, by rw [lines], ?_, ?_⟩
      · simp [List.splitOnP_cons_eq_if_modifyHead, isLineEnd]
      · -- The stretch between the two characters that end the line is empty.
        exact ih.writtenLines_eq
  | case3 c cs hc hend ih =>
      refine .inr ⟨[], lines cs, cs.splitOnP isLineEnd, ?_, ?_, ih.writtenLines_eq⟩
      · rw [lines, if_pos hend]
        exact hc
      · rw [List.splitOnP_cons_eq_if_modifyHead, if_pos hend]
  | case4 c cs hc hend ih =>
      have hend : isLineEnd c = false := Bool.eq_false_iff.2 hend
      rw [LinesAreStretches, lines_cons_of_not_lineEnd hend, List.splitOnP_cons_eq_if_modifyHead,
        if_neg (by simp [hend])]
      obtain rfl | ⟨l, ls, ls', hlines, hsplit, hrest⟩ := ih
      · exact .inr ⟨[c], [], [], by simp [prependTo], by simp, rfl⟩
      · exact .inr ⟨c :: l, ls, ls', by rw [hlines, prependTo],
          by rw [hsplit, List.modifyHead_cons], hrest⟩

/-- What is written on the lines is what is written between line ends. -/
theorem writtenLines_eq (s : List Char) :
    writtenLines s = (s.splitOnP isLineEnd).filter fun l => !isBlankLine l :=
  (linesAreStretches s).writtenLines_eq

@[simp] theorem writtenLines_nil : writtenLines [] = [] := rfl

theorem writtenLines_append_cons (hc : isLineEnd c = true) (s t : List Char) :
    writtenLines (s ++ c :: t) = writtenLines s ++ writtenLines t := by
  rw [writtenLines_eq, List.splitOnP_append_cons s t hc, List.filter_append, writtenLines_eq,
    writtenLines_eq]

theorem writtenLines_append {s : String} (hs : EndsLine s) (t : List Char) :
    writtenLines (s.toList ++ t) = writtenLines s.toList ++ writtenLines t := by
  rcases s.toList.eq_nil_or_concat' with hnil | ⟨front, c, hfront⟩
  · rw [hnil, List.nil_append, writtenLines_nil, List.nil_append]
  · have hc : isLineEnd c = true := hs c (by simp [hfront])
    rw [hfront, List.append_assoc, List.singleton_append, writtenLines_append_cons hc,
      writtenLines_append_cons hc, writtenLines_nil, List.append_nil]

theorem mem_of_mem_splitOnP {p : Char → Bool} {l : List Char} (hl : l ∈ s.splitOnP p) (hc : c ∈ l) :
    c ∈ s := by
  induction s generalizing l with
  | nil =>
      obtain rfl := List.mem_singleton.1 hl
      exact hc
  | cons d s ih =>
      rw [List.splitOnP_cons_eq_if_modifyHead] at hl
      split at hl
      · obtain rfl | hl := List.mem_cons.1 hl
        · cases hc
        · exact List.mem_cons_of_mem d (ih hl hc)
      · obtain ⟨front, ls, hsplit⟩ := List.exists_cons_of_ne_nil (List.splitOnP_ne_nil p s)
        rw [hsplit, List.modifyHead_cons] at hl
        obtain rfl | hl := List.mem_cons.1 hl
        · obtain rfl | hc := List.mem_cons.1 hc
          · exact List.mem_cons_self
          · exact List.mem_cons_of_mem d (ih (by simp [hsplit]) hc)
        · exact List.mem_cons_of_mem d (ih (by simp [hsplit, hl]) hc)

theorem writtenLines_of_blank (h : ∀ c ∈ s, isBlank c = true) : writtenLines s = [] := by
  rw [writtenLines_eq, List.filter_eq_nil_iff]
  intro l hl
  have hblank : isBlankLine l = true := List.all_eq_true.2 fun c hc => h c (mem_of_mem_splitOnP hl hc)
  simp [hblank]

theorem Spaces.writtenLines_eq {s t : String} (h : Spaces s t) :
    writtenLines t.toList = writtenLines s.toList := by
  obtain ⟨before, blanks, after, hbefore, hblanks, hends⟩ := h
  rw [String.toList_append, String.toList_append, String.toList_append, List.append_assoc,
    writtenLines_append hbefore, writtenLines_append hends, writtenLines_of_blank (List.all_eq_true.1 hblanks),
    List.nil_append, writtenLines_append hbefore]

theorem writtenLines_withReturns (s : String) :
    writtenLines (withReturns s).toList = writtenLines s.toList := by
  have hreturn : isLineEnd '\r' = true := by decide
  have hfeed : isLineEnd '\n' = true := by decide
  -- The induction is on what is left of the text, behind any part of a line.
  have hbehind (front s : List Char) :
      writtenLines (front ++ s.flatMap fun c => if c = '\n' then ['\r', '\n'] else [c]) =
        writtenLines (front ++ s) := by
    induction s generalizing front with
    | nil => rfl
    | cons c s ih =>
        rw [List.flatMap_cons]
        split
        case isTrue hc =>
          subst hc
          have hrest := ih []
          rw [List.nil_append, List.nil_append] at hrest
          have hempty := writtenLines_append_cons hfeed [] (s.flatMap fun c =>
            if c = '\n' then ['\r', '\n'] else [c])
          rw [List.nil_append] at hempty
          rw [List.cons_append, List.cons_append, List.nil_append, writtenLines_append_cons hreturn,
            hempty, writtenLines_append_cons hfeed, hrest, writtenLines_nil, List.nil_append]
        case isFalse =>
          rw [← List.append_assoc, ih (front ++ [c]), List.append_assoc, List.singleton_append]
  rw [withReturns, String.toList_ofList, ← List.nil_append (s.toList.flatMap _), hbehind [] s.toList,
    List.nil_append]

end Text

/-- Whether a line is indented: it begins with a blank character and holds one that is not. -/
def IsIndented (l : List Char) : Prop :=
  (∃ c ∈ l.head?, Text.isBlank c = true) ∧ ∃ c ∈ l, Text.isBlank c = false

instance : DecidablePred IsIndented := fun _ =>
  @instDecidableAnd _ _ (Option.decidableExistsMem _) (List.decidableBEx _ _)

/-- Whether a diagnostic begins with a line: the line is not indented and has the form of one. -/
def BeginsDiagnostic (l : List Char) : Prop :=
  (∃ c ∈ l.head?, Text.isBlank c = false) ∧ IsDiagnostic l

instance : DecidablePred BeginsDiagnostic := fun _ =>
  @instDecidableAnd _ _ (Option.decidableExistsMem _) inferInstance

/-- Whether a text goes on before its first diagnostic: an indented line stands there. -/
def GoesOn (s : String) : Prop :=
  ∃ before l after, Text.lines s.toList = before ++ l :: after ∧ IsIndented l ∧
    ∀ l' ∈ before, ¬ BeginsDiagnostic l'

namespace ReportLine

variable {l : List Char}

def isHeading : ReportLine → Bool
  | located _ _ _ => true
  | general _ => true
  | _ => false

def more? : ReportLine → Option (List Char)
  | more text => some text
  | _ => none

theorem more?_of_isHeading {line : ReportLine} (h : line.isHeading = true) : line.more? = none := by
  cases line <;> first | rfl | cases h

theorem ofChars_of_blank (h : Text.isBlankLine l = true) : ofChars l = .blank := by
  cases l with
  | nil => rfl
  | cons c cs =>
      have htrim : Text.trim (c :: cs) = [] := Text.trim_eq_nil_iff.2 (List.all_eq_true.1 h)
      rw [ofChars, if_pos (by simp [htrim])]

theorem ofChars_of_indented (h : IsIndented l) : ofChars l = .more (Text.trimRight l) := by
  obtain ⟨⟨c, hhead, hc⟩, d, hd, hwritten⟩ := h
  cases l with
  | nil => cases hhead
  | cons e cs =>
      obtain rfl : e = c := Option.some.inj hhead
      have htrim : ¬ Text.trim (e :: cs) = [] := fun hnil => by
        rw [Text.trim_eq_nil_iff.1 hnil d hd] at hwritten
        cases hwritten
      rw [ofChars, if_neg (by simpa using htrim), if_pos hc]

theorem blank_or_indented_or_flush (l : List Char) :
    Text.isBlankLine l = true ∧ ¬ IsIndented l ∧ ¬ BeginsDiagnostic l ∨
      IsIndented l ∧ ¬ BeginsDiagnostic l ∨
      ¬ IsIndented l ∧ ∃ c ∈ l.head?, Text.isBlank c = false := by
  cases l with
  | nil =>
      refine .inl ⟨rfl, ?_, ?_⟩
      · rintro ⟨⟨c, hc, -⟩, -⟩
        cases hc
      · rintro ⟨⟨c, hc, -⟩, -⟩
        cases hc
  | cons c cs =>
      cases hc : Text.isBlank c with
      | false =>
          refine .inr (.inr ⟨?_, c, rfl, hc⟩)
          rintro ⟨⟨d, hd, hblank⟩, -⟩
          obtain rfl : c = d := Option.some.inj hd
          rw [hc] at hblank
          cases hblank
      | true =>
          have hnot : ¬ BeginsDiagnostic (c :: cs) := by
            rintro ⟨⟨d, hd, hflush⟩, -⟩
            obtain rfl : c = d := Option.some.inj hd
            rw [hc] at hflush
            cases hflush
          by_cases hblank : Text.isBlankLine (c :: cs) = true
          · refine .inl ⟨hblank, ?_, hnot⟩
            rintro ⟨-, d, hd, hwritten⟩
            rw [List.all_eq_true.1 hblank d hd] at hwritten
            cases hwritten
          · rw [Text.isBlankLine, List.all_eq_true] at hblank
            push Not at hblank
            obtain ⟨d, hd, hwritten⟩ := hblank
            exact .inr (.inl ⟨⟨⟨c, rfl, hc⟩, d, hd, by simpa using hwritten⟩, hnot⟩)

theorem isSome_more?_iff : (ofChars l).more?.isSome = true ↔ IsIndented l := by
  rcases blank_or_indented_or_flush l with ⟨hblank, hnot, -⟩ | ⟨hindented, -⟩ | ⟨hnot, hflush⟩
  · rw [ofChars_of_blank hblank]
    exact iff_of_false Bool.false_ne_true hnot
  · rw [ofChars_of_indented hindented]
    exact iff_of_true rfl hindented
  · rw [ReportItem.ofChars_of_flush hflush]
    refine iff_of_false ?_ hnot
    split
    · exact Bool.false_ne_true
    · exact Bool.false_ne_true
    · split <;> exact Bool.false_ne_true

theorem isHeading_iff : (ofChars l).isHeading = true ↔ BeginsDiagnostic l := by
  rcases blank_or_indented_or_flush l with ⟨hblank, -, hnot⟩ | ⟨hindented, hnot⟩ | ⟨-, hflush⟩
  · rw [ofChars_of_blank hblank]
    exact iff_of_false Bool.false_ne_true hnot
  · rw [ofChars_of_indented hindented]
    exact iff_of_false Bool.false_ne_true hnot
  · rw [BeginsDiagnostic, isDiagnostic_iff, ReportItem.ofChars_of_flush hflush]
    cases located? l with
    | some r => exact iff_of_true rfl ⟨hflush, .inl rfl⟩
    | none =>
        cases Heading.ofChars? l with
        | some heading => exact iff_of_true rfl ⟨hflush, .inr rfl⟩
        | none =>
            refine iff_of_false ?_ (by simp)
            dsimp only
            split <;> exact Bool.false_ne_true

end ReportLine

namespace Report

variable {cwd : String}

/-- The texts of the indented lines in front of the first diagnostic. -/
def leading : List (List Char) → List (List Char)
  | [] => []
  | l :: ls =>
    if (ReportLine.ofChars l).isHeading then []
    else (ReportLine.ofChars l).more?.toList ++ leading ls

def extendAll (texts : List (List Char)) (ds : List Diagnostic) : List Diagnostic :=
  texts.foldl (fun ds text => extendLast text ds) ds

/-- A report the last diagnostic of which goes on with some lines. -/
def extended (r : Report) (texts : List (List Char)) : Report :=
  { r with diagnostics := extendAll texts r.diagnostics }

@[simp] theorem extendAll_nil (texts : List (List Char)) : extendAll texts [] = [] := by
  induction texts with
  | nil => rfl
  | cons text texts ih => exact ih

theorem extendAll_cons (text : List Char) (texts : List (List Char)) (ds : List Diagnostic) :
    extendAll (text :: texts) ds = extendAll texts (extendLast text ds) := rfl

theorem extendAll_append_singleton (texts : List (List Char)) (ds : List Diagnostic) (d : Diagnostic) :
    extendAll texts (ds ++ [d]) = ds ++ extendAll texts [d] := by
  induction texts generalizing d with
  | nil => rfl
  | cons text texts ih =>
      rw [extendAll_cons, extendLast_append_singleton, ih, extendAll_cons]
      rfl

/-- What a line adds to a report: it goes on with the last diagnostic; or it begins one, unless a number of
it is too long; or it adds no diagnostic. -/
theorem add_cases (cwd : String) (line : ReportLine) :
    (∃ text, line = .more text) ∨
      (line.isHeading = true ∧ ((∃ e, ∀ r, add cwd r line = .error e) ∨
        ∃ d, ∀ r, add cwd r line = .ok (r.addDiagnostic d))) ∨
      (line.more? = none ∧ line.isHeading = false ∧
        ∃ one : Report, one.diagnostics = [] ∧ ∀ r, add cwd r line = .ok (r.append one)) := by
  cases line with
  | blank => exact .inr (.inr ⟨rfl, rfl, empty, rfl, fun r => by rw [append_empty]; rfl⟩)
  | more text => exact .inl ⟨text, rfl⟩
  | located file position heading =>
      refine .inr (.inl ⟨rfl, ?_⟩)
      simp only [add]
      cases number position.line with
      | error e => exact .inl ⟨e, fun r => rfl⟩
      | ok line =>
          cases number position.column with
          | error e => exact .inl ⟨e, fun r => rfl⟩
          | ok column =>
              cases number heading.code with
              | error e => exact .inl ⟨e, fun r => rfl⟩
              | ok code => exact .inr ⟨_, fun r => rfl⟩
  | general heading =>
      refine .inr (.inl ⟨rfl, ?_⟩)
      simp only [add]
      cases number heading.code with
      | error e => exact .inl ⟨e, fun r => rfl⟩
      | ok code => exact .inr ⟨_, fun r => rfl⟩
  | file path =>
      exact .inr (.inr ⟨rfl, rfl, ⟨[Path.normalize (String.ofList path)], [], []⟩, rfl,
        fun r => by simp [add, append]⟩)
  | noise text =>
      exact .inr (.inr ⟨rfl, rfl, ⟨[], [], [String.ofList text]⟩, rfl,
        fun r => by simp [add, append]⟩)

theorem leading_cons (l : List Char) (ls : List (List Char)) :
    leading (l :: ls) = if (ReportLine.ofChars l).isHeading then []
      else (ReportLine.ofChars l).more?.toList ++ leading ls := rfl

theorem addDiagnostic_extended (r : Report) (d : Diagnostic) (texts : List (List Char)) :
    (r.addDiagnostic d).extended texts = r.append ((empty.addDiagnostic d).extended texts) := by
  simp [extended, addDiagnostic, append, empty, extendAll_append_singleton]

theorem append_extended {one : Report} (h : one.diagnostics = []) (r : Report)
    (texts : List (List Char)) : (r.append one).extended texts = (r.extended texts).append one := by
  simp [extended, append, h]

theorem extended_of_no_diagnostics {r : Report} (h : r.diagnostics = []) (texts : List (List Char)) :
    r.extended texts = r := by
  rw [extended, h, extendAll_nil, ← h]

/-- Behind another report a text adds what it says, and its indented lines in front of the first
diagnostic go on with the last one of that report. -/
theorem addAll_eq (r : Report) (ls : List (List Char)) :
    addAll cwd r ls =
      ((r.extended (leading ls)).append (addAll cwd empty ls).1, (addAll cwd empty ls).2) := by
  induction ls generalizing r with
  | nil => rw [addAll, addAll, append_empty]; rfl
  | cons l ls ih =>
      rw [leading_cons]
      rcases add_cases cwd (ReportLine.ofChars l) with ⟨text, hline⟩ |
        ⟨hheading, ⟨e, hadd⟩ | ⟨d, hadd⟩⟩ | ⟨hmore, hheading, one, hone, hadd⟩
      · have hadd (r : Report) : add cwd r (ReportLine.ofChars l) = .ok (r.extended [text]) := by
          rw [hline]
          rfl
        rw [addAll_cons_of_ok ls (hadd r), addAll_cons_of_ok ls (hadd empty), ih (r.extended [text]), hline]
        rfl
      · have herror (r : Report) : addAll cwd r (l :: ls) = (r, some e) := by rw [addAll, hadd r]
        rw [herror, herror, if_pos hheading, append_empty]
        rfl
      · rw [addAll_cons_of_ok ls (hadd r), addAll_cons_of_ok ls (hadd empty), ih (r.addDiagnostic d),
          ih (empty.addDiagnostic d), if_pos hheading, addDiagnostic_extended, append_assoc]
        rfl
      · rw [addAll_cons_of_ok ls (hadd r), addAll_cons_of_ok ls (hadd empty), ih (r.append one),
          ih (empty.append one), hmore, hheading, append_extended hone, empty_append,
          extended_of_no_diagnostics hone, append_assoc]
        rfl

theorem addAll_filter (r : Report) (ls : List (List Char)) :
    addAll cwd r (ls.filter fun l => !Text.isBlankLine l) = addAll cwd r ls := by
  induction ls generalizing r with
  | nil => rfl
  | cons l ls ih =>
      cases hblank : Text.isBlankLine l with
      | true =>
          rw [List.filter_cons_of_neg (by simp [hblank]), ih, addAll, ReportLine.ofChars_of_blank hblank]
          rfl
      | false =>
          rw [List.filter_cons_of_pos (by simp [hblank]), addAll, addAll]
          split
          · exact ih _
          · rfl

theorem read_eq_addAll (cwd text : String) :
    read cwd text = addAll cwd empty (Text.writtenLines text.toList) := by
  rw [read, Text.writtenLines, addAll_filter]

theorem read_congr {s t : String} (h : Text.writtenLines s.toList = Text.writtenLines t.toList)
    (cwd : String) : read cwd s = read cwd t := by
  rw [read_eq_addAll, read_eq_addAll, h]

/-- Reading goes on behind a text that was read to its end, and does not where a number stopped it. -/
theorem addAll_append (r : Report) (ls ls' : List (List Char)) :
    addAll cwd r (ls ++ ls') =
      match (addAll cwd r ls).2 with
      | none => addAll cwd (addAll cwd r ls).1 ls'
      | some e => ((addAll cwd r ls).1, some e) := by
  induction ls generalizing r with
  | nil => rfl
  | cons l ls ih =>
      rw [List.cons_append, addAll, addAll]
      cases add cwd r (ReportLine.ofChars l) with
      | ok r' => exact ih r'
      | error e => rfl

theorem leading_filter (ls : List (List Char)) :
    leading (ls.filter fun l => !Text.isBlankLine l) = leading ls := by
  induction ls with
  | nil => rfl
  | cons l ls ih =>
      cases hblank : Text.isBlankLine l with
      | true =>
          rw [List.filter_cons_of_neg (by simp [hblank]), ih, leading_cons,
            ReportLine.ofChars_of_blank hblank]
          rfl
      | false => rw [List.filter_cons_of_pos (by simp [hblank]), leading_cons, leading_cons, ih]

/-- There are no such lines exactly if the text does not go on before its first diagnostic. -/
theorem leading_eq_nil_iff (ls : List (List Char)) :
    leading ls = [] ↔ ¬ ∃ before l after, ls = before ++ l :: after ∧ IsIndented l ∧
      ∀ l' ∈ before, ¬ BeginsDiagnostic l' := by
  induction ls with
  | nil => simp [leading]
  | cons l ls ih =>
      rw [leading_cons]
      by_cases hheading : (ReportLine.ofChars l).isHeading = true
      · rw [if_pos hheading]
        refine iff_of_true rfl ?_
        rintro ⟨before, k, after, hsplit, hindented, hbefore⟩
        have hbegins := ReportLine.isHeading_iff.1 hheading
        -- The first line begins a diagnostic, so it is neither the indented one nor in front of it.
        obtain ⟨rfl, hl⟩ | ⟨before', rfl, -⟩ := List.cons_eq_append_iff.1 hsplit
        · obtain rfl : k = l := (List.cons.inj hl).1
          have hmore := ReportLine.isSome_more?_iff.2 hindented
          rw [ReportLine.more?_of_isHeading hheading] at hmore
          cases hmore
        · exact hbefore l List.mem_cons_self hbegins
      · rw [if_neg hheading, List.append_eq_nil_iff, Option.toList_eq_nil_iff, ih]
        have hnot : ¬ BeginsDiagnostic l := fun h => hheading (ReportLine.isHeading_iff.2 h)
        constructor
        · rintro ⟨hmore, hrest⟩ ⟨before, k, after, hsplit, hindented, hbefore⟩
          obtain ⟨rfl, hl⟩ | ⟨before', rfl, hl⟩ := List.cons_eq_append_iff.1 hsplit
          · obtain rfl : k = l := (List.cons.inj hl).1
            have hsome := ReportLine.isSome_more?_iff.2 hindented
            rw [hmore] at hsome
            cases hsome
          · exact hrest ⟨before', k, after, hl, hindented,
              fun l' hl' => hbefore l' (List.mem_cons_of_mem l hl')⟩
        · intro h
          refine ⟨?_, ?_⟩
          · by_contra hmore
            have hindented := ReportLine.isSome_more?_iff.1 (Option.isSome_iff_ne_none.2 hmore)
            exact h ⟨[], l, ls, rfl, hindented, by simp⟩
          · rintro ⟨before, k, after, rfl, hindented, hbefore⟩
            exact h ⟨l :: before, k, after, rfl, hindented, List.forall_mem_cons.2 ⟨hnot, hbefore⟩⟩

theorem goesOn_iff (s : String) : GoesOn s ↔ leading (Text.writtenLines s.toList) ≠ [] := by
  rw [Text.writtenLines, leading_filter, Ne, leading_eq_nil_iff, not_not, GoesOn]

theorem extendAll_singleton (texts : List (List Char)) (d : Diagnostic) :
    extendAll texts [d] =
      [{ d with message := d.message ++ String.ofList (texts.flatMap fun text => '\n' :: text) }] := by
  induction texts generalizing d with
  | nil => simp [extendAll]
  | cons text texts ih =>
      rw [extendAll_cons, extendLast, ih, List.flatMap_cons, String.ofList_append, String.append_assoc]

theorem extendAll_eq_self_iff (texts : List (List Char)) (ds : List Diagnostic) :
    extendAll texts ds = ds ↔ ds = [] ∨ texts = [] := by
  obtain rfl | ⟨front, d, rfl⟩ := ds.eq_nil_or_concat'
  · simp
  cases texts with
  | nil => exact iff_of_true rfl (.inr rfl)
  | cons text texts =>
      refine iff_of_false (fun heq => ?_) (by simp)
      rw [extendAll_append_singleton, extendAll_singleton] at heq
      have hmessage := congrArg (fun d => d.message.toList)
        (List.singleton_inj.1 (List.append_cancel_left heq))
      simp at hmessage

/-- A text behind another one is read as when each is read alone, unless it goes on before its first
diagnostic and there is a diagnostic to go on with; a number that cannot be read ends the reading wherever
it stands. Line ends and blank lines do not matter. -/
theorem read_successive (cwd a b : String) :
    ((read cwd a).2 ≠ none → read cwd (a ++ "\n" ++ b) = read cwd a) ∧
      ((read cwd a).2 = none →
        (read cwd (a ++ "\n" ++ b)).2 = (read cwd b).2 ∧
        (read cwd (a ++ "\n" ++ b)).1.ignored = (read cwd a).1.ignored ++ (read cwd b).1.ignored ∧
        ((read cwd (a ++ "\n" ++ b)).1.files = (read cwd a).1.files ++ (read cwd b).1.files ∧
            (read cwd (a ++ "\n" ++ b)).1.diagnostics =
              (read cwd a).1.diagnostics ++ (read cwd b).1.diagnostics ↔
          (read cwd a).1.diagnostics = [] ∨ ¬ GoesOn b)) ∧
      read cwd (Text.withReturns a) = read cwd a ∧
      ∀ t, Relation.ReflTransGen Text.Spaces a t → read cwd t = read cwd a := by
  have hfeed : Text.isLineEnd '\n' = true := by decide
  have hlines : Text.writtenLines (a ++ "\n" ++ b).toList =
      Text.writtenLines a.toList ++ Text.writtenLines b.toList := by
    rw [← Text.writtenLines_append_cons hfeed]
    simp
  have hjoined := @addAll_append cwd empty (Text.writtenLines a.toList) (Text.writtenLines b.toList)
  rw [← hlines, ← read_eq_addAll, ← read_eq_addAll] at hjoined
  refine ⟨fun hstop => ?_, fun hend => ?_, read_congr (Text.writtenLines_withReturns a) cwd,
    fun t ht => ?_⟩
  · obtain ⟨e, he⟩ := Option.ne_none_iff_exists'.1 hstop
    rw [hjoined]
    simp only [he]
    exact Prod.ext rfl he.symm
  · rw [hend] at hjoined
    rw [hjoined, addAll_eq, ← read_eq_addAll, goesOn_iff, not_not, ← extendAll_eq_self_iff]
    -- Only the diagnostics of the first text can become others.
    refine ⟨rfl, rfl, fun h => List.append_cancel_right h.2, fun h => ⟨rfl, ?_⟩⟩
    simp only [extended, append, h]
  · induction ht with
    | refl => rfl
    | tail _ hput ih => rw [read_congr hput.writtenLines_eq cwd, ih]

def failingText : String := "error TS1: x"

/-- A text that lists a file and goes on behind it, with blank lines between. -/
def goingOnText : String := "/f.ts\n \n  more\na.ts(1,2): error TS3: y"

theorem read_successive_failingText :
    (read "/p" goingOnText).2 = none ∧
      (read "/p" (goingOnText ++ "\n" ++ failingText)).1.files = (read "/p" goingOnText).1.files ++
        (read "/p" failingText).1.files ∧
      (read "/p" (goingOnText ++ "\n" ++ failingText)).1.diagnostics =
        (read "/p" goingOnText).1.diagnostics ++ (read "/p" failingText).1.diagnostics ∧
      read "/p" (Text.withReturns goingOnText) = read "/p" goingOnText ∧
      Text.Spaces "/f.ts\n  more\na.ts(1,2): error TS3: y" goingOnText ∧
      read "/p" goingOnText = read "/p" "/f.ts\n  more\na.ts(1,2): error TS3: y" := by
  have hend : (read "/p" goingOnText).2 = none := by decide +kernel
  have hflush : ¬ GoesOn failingText := by
    rw [goesOn_iff]
    decide +kernel
  have hput : Text.Spaces "/f.ts\n  more\na.ts(1,2): error TS3: y" goingOnText :=
    .put "/f.ts\n" " \n" "  more\na.ts(1,2): error TS3: y" (by decide) (by decide) (by decide)
  have hgoing := read_successive "/p" goingOnText failingText
  have hspaced := read_successive "/p" "/f.ts\n  more\na.ts(1,2): error TS3: y" failingText
  obtain ⟨hfiles, hdiagnostics⟩ := (hgoing.2.1 hend).2.2.2 (.inr hflush)
  exact ⟨hend, hfiles, hdiagnostics, hgoing.2.2.1, hput, hspaced.2.2.2 _ (.single hput)⟩

/-- Behind a diagnostic, an indented line goes on with it even below a listed file. -/
theorem not_read_successive_listed :
    ((Text.writtenLines "/f.ts\n  more".toList).head?.bind List.head?).map Text.isBlank = some false ∧
      (read "/p" failingText).2 = none ∧ (read "/p" "/f.ts\n  more").2 = none ∧
      (read "/p" (failingText ++ "\n" ++ "/f.ts\n  more")).2 = none ∧
      (read "/p" (failingText ++ "\n" ++ "/f.ts\n  more")).1.diagnostics ≠
        (read "/p" failingText).1.diagnostics ++ (read "/p" "/f.ts\n  more").1.diagnostics := by
  decide +kernel

end Report

end DeclBundle
