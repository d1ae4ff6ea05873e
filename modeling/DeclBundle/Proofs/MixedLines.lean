import DeclBundle.Proofs.Indentation

/-!
# Lines that end in two ways

`Text.linesFrom` cuts a text into its lines, each with the way in which it ends and in which the line
before it ends, so that a text may have both kinds of line ends. `nest` knows only one of them: the lines
that it writes are the lines of the text with the unit of indentation put in where `Line.IsIndented` says
so (`nestFrom_eq_flatMap`). That is right for all lines of a text which ends its lines in that way, and
for a line of any other exactly if it is `Line.Suited` (`emission_nests_iff`).
-/

namespace DeclBundle

namespace Text

inductive Break where
  | none
  | feed
  | returnFeed
deriving DecidableEq, Repr

def Break.chars : Break → List Char
  | none => []
  | feed => ['\n']
  | returnFeed => ['\r', '\n']

structure Line where
  before : Break
  content : List Char
  ending : Break
deriving DecidableEq, Repr

def Line.text (q : Line) : List Char := q.content ++ q.ending.chars

def extendFirst (u : List Char) : List Line → List Line
  | [] => []
  | q :: qs => { q with content := u ++ q.content } :: qs

/-- The lines of a text behind a line that ends in some way. -/
def linesFrom (before : Break) : List Char → List Line
  | [] => [⟨before, [], .none⟩]
  | '\n' :: cs => ⟨before, [], .feed⟩ :: linesFrom .feed cs
  | '\r' :: '\n' :: cs => ⟨before, [], .returnFeed⟩ :: linesFrom .returnFeed cs
  | c :: cs => extendFirst [c] (linesFrom before cs)

variable {before b : Break} {eol indent u s p : List Char} {c : Char} {cs : List Char} {ls : List Line}

theorem linesFrom_append (hb : b ≠ .none) (before : Break) (s : List Char) :
    linesFrom before (b.chars ++ s) = ⟨before, [], b⟩ :: linesFrom b s := by
  cases b with
  | none => exact absurd rfl hb
  | feed => rw [Break.chars, List.singleton_append, linesFrom]
  | returnFeed => rw [Break.chars, List.cons_append, List.singleton_append, linesFrom]

def EndsAt (s : List Char) : Prop := ∃ b : Break, b ≠ .none ∧ b.chars <+: s

theorem linesFrom_cons (before : Break) (h : ¬ EndsAt (c :: cs)) :
    linesFrom before (c :: cs) = extendFirst [c] (linesFrom before cs) := by
  rw [linesFrom]
  · rintro rfl
    exact h ⟨.feed, nofun, by simp [Break.chars]⟩
  · rintro cs rfl rfl
    exact h ⟨.returnFeed, nofun, by simp [Break.chars]⟩

/-- What holds of the empty text and stays true before the end of a line, and before any other character,
holds of all texts. -/
theorem breakInduction {motive : List Char → Prop} (nil : motive [])
    (lineBreak : ∀ (b : Break) (rest : List Char), b ≠ .none → motive rest → motive (b.chars ++ rest))
    (cons : ∀ c cs, ¬ EndsAt (c :: cs) → motive cs → motive (c :: cs)) (s : List Char) : motive s := by
  induction h : s.length using Nat.strongRecOn generalizing s with
  | _ n ih =>
      subst h
      by_cases hs : EndsAt s
      · obtain ⟨b, hb, rest, rfl⟩ := hs
        refine lineBreak b rest hb (ih _ ?_ rest rfl)
        cases b with
        | none => exact absurd rfl hb
        | feed => simp [Break.chars]
        | returnFeed =>
            simp only [Break.chars, List.cons_append, List.nil_append, List.length_cons]
            omega
      · cases s with
        | nil => exact nil
        | cons c cs => exact cons c cs hs (ih _ (Nat.lt_succ_self _) cs rfl)

theorem exists_linesFrom_eq_cons (before : Break) (s : List Char) :
    ∃ p b ls, linesFrom before s = ⟨before, p, b⟩ :: ls := by
  induction s using breakInduction with
  | nil => exact ⟨[], .none, [], rfl⟩
  | lineBreak b rest hb => exact ⟨[], b, _, linesFrom_append hb before rest⟩
  | cons c cs h ih =>
      obtain ⟨p, b, ls, hlines⟩ := ih
      exact ⟨c :: p, b, ls, by rw [linesFrom_cons before h, hlines]; rfl⟩

theorem flatMap_text_linesFrom (before : Break) (s : List Char) :
    (linesFrom before s).flatMap Line.text = s := by
  induction s using breakInduction generalizing before with
  | nil => rfl
  | lineBreak b rest hb ih => rw [linesFrom_append hb, List.flatMap_cons, ih]; rfl
  | cons c cs h ih =>
      obtain ⟨p, b, ls, hlines⟩ := exists_linesFrom_eq_cons before cs
      have hrest := ih before
      rw [hlines, List.flatMap_cons] at hrest
      rw [linesFrom_cons before h, hlines, extendFirst, List.flatMap_cons, ← hrest]
      rfl

theorem exists_ending_eq_before (h : linesFrom before s = ⟨before, p, b⟩ :: ls) {q : Line} (hq : q ∈ ls) :
    q.before ≠ .none ∧ ∃ q' ∈ linesFrom before s, q'.ending = q.before := by
  induction s using breakInduction generalizing before p b ls with
  | nil =>
      obtain ⟨-, rfl⟩ := List.cons.inj h
      cases hq
  | lineBreak b' rest hb ih =>
      rw [linesFrom_append hb] at h ⊢
      obtain ⟨hfirst, rfl⟩ := List.cons.inj h
      obtain ⟨p', b'', ls', hlines⟩ := exists_linesFrom_eq_cons b' rest
      rw [hlines, List.mem_cons] at hq
      obtain rfl | hq := hq
      · exact ⟨hb, _, List.mem_cons_self, rfl⟩
      · obtain ⟨hne, q', hq', hending⟩ := ih hlines hq
        exact ⟨hne, q', List.mem_cons_of_mem _ hq', hending⟩
  | cons c cs hc ih =>
      obtain ⟨p', b', ls', hlines⟩ := exists_linesFrom_eq_cons before cs
      rw [linesFrom_cons before hc, hlines] at h ⊢
      obtain ⟨-, rfl⟩ := List.cons.inj h
      obtain ⟨hne, q', hq', hending⟩ := ih hlines hq
      refine ⟨hne, ?_⟩
      rw [hlines, List.mem_cons] at hq'
      obtain rfl | hq' := hq'
      · exact ⟨_, List.mem_cons_self, hending⟩
      · exact ⟨q', List.mem_cons_of_mem _ hq', hending⟩

theorem linesFrom_append_of_plain (hu : ∀ c ∈ u, c ≠ '\n' ∧ c ≠ '\r') (before : Break) (s : List Char) :
    linesFrom before (u ++ s) = extendFirst u (linesFrom before s) := by
  obtain ⟨p, b, ls, hlines⟩ := exists_linesFrom_eq_cons before s
  rw [hlines]
  induction u with
  | nil => exact hlines
  | cons c u ih =>
      obtain ⟨⟨hfeed, hreturn⟩, hu⟩ := List.forall_mem_cons.1 hu
      have hc : ¬ EndsAt (c :: (u ++ s)) := by
        rintro ⟨b, hb, hstarts⟩
        cases b with
        | none => exact hb rfl
        | feed => exact hfeed (List.cons_prefix_cons.1 hstarts).1.symm
        | returnFeed => exact hreturn (List.cons_prefix_cons.1 hstarts).1.symm
      rw [List.cons_append, linesFrom_cons before hc, ih hu]
      rfl

namespace Line

/-- Whether the unit of indentation is put in before a line: the line before it has to end in the way
that is asked for, and it must not be empty and end in that way or with the text. -/
def IsIndented (eol : List Char) (q : Line) : Prop :=
  eol <:+ q.before.chars ∧ ¬ (q.content = [] ∧ (q.ending = .none ∨ q.ending.chars = eol))

instance (eol : List Char) (q : Line) : Decidable (q.IsIndented eol) :=
  inferInstanceAs (Decidable (_ ∧ _))

def nested (eol indent : List Char) (q : Line) : Line :=
  if q.IsIndented eol then { q with content := indent ++ q.content } else q

/-- Whether a line that is written for another is right: it begins with the unit if there is something in
the other line, and is empty if there is nothing. -/
structure Nests (indent : List Char) (q written : Line) : Prop where
  full : q.content ≠ [] → indent <+: written.content
  empty : q.content = [] → written.content = []

/-- Whether a line can be nested by looking for line ends of one kind: there is such a line end before it
unless it begins with the unit anyway or is empty; and if it is empty, there is none before it or one at
its end as well, unless it ends with the text or the unit is empty. -/
structure Suited (eol indent : List Char) (q : Line) : Prop where
  full : q.content ≠ [] → eol <:+ q.before.chars ∨ indent <+: q.content
  empty : q.content = [] → eol <:+ q.before.chars →
    q.ending = .none ∨ q.ending.chars = eol ∨ indent = []

variable {q : Line}

/-- The unit is put in front of what stands in a line if there is a line end before it. -/
theorem prefix_nested_iff (h : q.content ≠ []) :
    indent <+: (q.nested eol indent).content ↔ eol <:+ q.before.chars ∨ indent <+: q.content := by
  have hindented : q.IsIndented eol ↔ eol <:+ q.before.chars := and_iff_left fun hskip => h hskip.1
  unfold nested
  split
  · next hyes => exact iff_of_true (List.prefix_append _ _) (.inl (hindented.1 hyes))
  · next hno => exact (or_iff_right fun hbefore => hno (hindented.2 hbefore)).symm

theorem nested_eq_nil_iff (h : q.content = []) : (q.nested eol indent).content = [] ↔
    (eol <:+ q.before.chars → q.ending = .none ∨ q.ending.chars = eol ∨ indent = []) := by
  have hindented : q.IsIndented eol ↔
      eol <:+ q.before.chars ∧ ¬ (q.ending = .none ∨ q.ending.chars = eol) := by
    simp [IsIndented, h]
  unfold nested
  split
  · next hyes =>
      obtain ⟨hbefore, hending⟩ := hindented.1 hyes
      rw [not_or] at hending
      simp [h, hbefore, hending]
  · next hno =>
      refine iff_of_true h fun hbefore => ?_
      rw [← or_assoc]
      exact .inl (not_not.1 fun hending => hno (hindented.2 ⟨hbefore, hending⟩))

theorem nests_nested_iff (eol indent : List Char) (q : Line) :
    Nests indent q (q.nested eol indent) ↔ q.Suited eol indent :=
  ⟨fun h => ⟨fun hfull => (prefix_nested_iff hfull).1 (h.full hfull), fun hempty =>
      (nested_eq_nil_iff hempty).1 (h.empty hempty)⟩,
    fun h => ⟨fun hfull => (prefix_nested_iff hfull).2 (h.full hfull), fun hempty =>
      (nested_eq_nil_iff hempty).2 (h.empty hempty)⟩⟩

end Line

section LineEnd

variable (heol : eol = ['\n'] ∨ eol = ['\r', '\n'])
include heol

theorem not_prefix_of_not_endsAt (h : ¬ EndsAt s) : ¬ eol <+: s := by
  rcases heol with rfl | rfl
  · exact fun hs => h ⟨.feed, nofun, hs⟩
  · exact fun hs => h ⟨.returnFeed, nofun, hs⟩

theorem prefix_chars_append_iff (hb : b ≠ .none) (s : List Char) :
    eol <+: b.chars ++ s ↔ b.chars = eol := by
  rcases heol with rfl | rfl
  · cases b <;> simp_all [Break.chars]
  · cases b <;> simp_all [Break.chars]

/-- The first line is empty and ends in the way that is asked for, or with the text, exactly if the text is
empty or begins with that line end. -/
theorem first_skipped_iff (h : linesFrom before s = ⟨before, p, b⟩ :: ls) :
    p = [] ∧ (b = .none ∨ b.chars = eol) ↔ s = [] ∨ eol <+: s := by
  induction s using breakInduction with
  | nil =>
      obtain ⟨hfirst, -⟩ := List.cons.inj h
      obtain ⟨-, rfl, rfl⟩ := Line.mk.inj hfirst
      simp
  | lineBreak b' rest hb =>
      rw [linesFrom_append hb] at h
      obtain ⟨hfirst, -⟩ := List.cons.inj h
      obtain ⟨-, rfl, rfl⟩ := Line.mk.inj hfirst
      have hne : b'.chars ++ rest ≠ [] := by cases b' <;> simp_all [Break.chars]
      rw [prefix_chars_append_iff heol hb]
      simp [hb, hne]
  | cons c cs hc =>
      obtain ⟨p', b', ls', hlines⟩ := exists_linesFrom_eq_cons before cs
      rw [linesFrom_cons before hc, hlines] at h
      obtain ⟨hfirst, -⟩ := List.cons.inj h
      obtain ⟨-, rfl, -⟩ := Line.mk.inj hfirst
      simp [not_prefix_of_not_endsAt heol hc]

end LineEnd

end Text

namespace Emission

open Text

section LineEnd

variable {before b : Break} {eol indent s p : List Char} {ls : List Line}
  (heol : eol = ['\n'] ∨ eol = ['\r', '\n'])
include heol

/-- Behind the end of a line the unit is put in if that is a line end which is looked for, and neither
the end of the text nor another such line end follows. -/
theorem nestFrom_break (hb : b ≠ .none) (indent rest : List Char) :
    nestFrom eol indent 0 (b.chars ++ rest) = b.chars ++
      ((if eol <:+ b.chars ∧ ¬ (rest = [] ∨ eol <+: rest) then indent else []) ++
        nestFrom eol indent 0 rest) := by
  have hfeed : nestFrom ['\n'] indent 0 ('\n' :: rest) = '\n' ::
      ((if rest = [] ∨ ['\n'] <+: rest then [] else indent) ++ nestFrom ['\n'] indent 0 rest) :=
    nestFrom_append (.inl rfl) indent rest
  rcases heol with rfl | rfl
  · cases b with
    | none => exact absurd rfl hb
    | feed =>
        simp only [Break.chars, List.singleton_append, List.suffix_refl, true_and, ite_not]
        exact hfeed
    | returnFeed =>
        have hreturn : ¬ ['\n'] <+: '\r' :: '\n' :: rest := by simp
        have hsuffix : ['\n'] <:+ ['\r', '\n'] := ⟨['\r'], rfl⟩
        simp only [Break.chars, List.cons_append, List.nil_append, hsuffix, true_and, ite_not]
        rw [nestFrom_cons indent hreturn, hfeed]
  · cases b with
    | none => exact absurd rfl hb
    | feed =>
        have hfeed' : ¬ ['\r', '\n'] <+: '\n' :: rest := by simp
        have hsuffix : ¬ ['\r', '\n'] <:+ ['\n'] := by decide
        simp only [Break.chars, List.singleton_append, hsuffix, false_and, if_false, List.nil_append]
        exact nestFrom_cons indent hfeed'
    | returnFeed =>
        simp only [Break.chars, List.suffix_refl, true_and, ite_not]
        exact nestFrom_append (.inr rfl) indent rest

/-- In front of the first line of what follows the end of a line the unit is put in as it is there. -/
theorem nested_first (h : linesFrom before s = ⟨before, p, b⟩ :: ls) (indent : List Char) :
    Line.nested eol indent ⟨before, p, b⟩ =
      ⟨before, (if eol <:+ before.chars ∧ ¬ (s = [] ∨ eol <+: s) then indent else []) ++ p, b⟩ := by
  simp only [Line.nested, Line.IsIndented, first_skipped_iff heol h]
  split
  · rfl
  · rfl

theorem nestFrom_eq_flatMap (h : linesFrom before s = ⟨before, p, b⟩ :: ls) (indent : List Char) :
    nestFrom eol indent 0 s =
      p ++ b.chars ++ ls.flatMap fun q => (q.nested eol indent).text := by
  induction s using breakInduction generalizing before p b ls with
  | nil =>
      obtain ⟨hfirst, rfl⟩ := List.cons.inj h
      obtain ⟨-, rfl, rfl⟩ := Line.mk.inj hfirst
      rfl
  | lineBreak b' rest hb ih =>
      rw [linesFrom_append hb] at h
      obtain ⟨hfirst, rfl⟩ := List.cons.inj h
      obtain ⟨-, rfl, rfl⟩ := Line.mk.inj hfirst
      obtain ⟨p', b'', ls', hlines⟩ := exists_linesFrom_eq_cons b' rest
      rw [nestFrom_break heol hb, ih hlines, hlines, List.flatMap_cons, nested_first heol hlines]
      simp only [Line.text, List.nil_append, List.append_assoc]
  | cons c cs hc ih =>
      obtain ⟨p', b', ls', hlines⟩ := exists_linesFrom_eq_cons before cs
      rw [linesFrom_cons before hc, hlines] at h
      obtain ⟨hfirst, rfl⟩ := List.cons.inj h
      obtain ⟨-, rfl, rfl⟩ := Line.mk.inj hfirst
      rw [nestFrom_cons indent (not_prefix_of_not_endsAt heol hc), ih hlines]
      rfl

omit heol in
theorem head?_nestFrom (eol indent s : List Char) (k : Nat) :
    (nestFrom eol indent k s).head? = s.head? := by
  cases s with
  | nil => simp [nestFrom]
  | cons c cs => simp [nestFrom]

omit heol in
theorem not_endsAt_nestFrom {c : Char} {cs : List Char} (h : ¬ EndsAt (c :: cs)) :
    ¬ EndsAt (c :: nestFrom eol indent 0 cs) := by
  rintro ⟨b, hb, hstarts⟩
  refine h ⟨b, hb, ?_⟩
  cases b with
  | none => exact absurd rfl hb
  | feed => simpa [Break.chars] using hstarts
  | returnFeed =>
      obtain ⟨rfl, hfeed⟩ := List.cons_prefix_cons.1 hstarts
      have hhead := head?_nestFrom eol indent cs 0
      cases cs with
      | nil => simp [nestFrom] at hfeed
      | cons d ds =>
          obtain ⟨rfl, -⟩ := List.cons_prefix_cons.1 hfeed
          simp [Break.chars]

/-- If there is no line end in the unit, the lines that are written are those of what is written. -/
theorem linesFrom_nestFrom (hindent : ∀ c ∈ indent, c ≠ '\n' ∧ c ≠ '\r')
    (h : linesFrom before s = ⟨before, p, b⟩ :: ls) :
    linesFrom before (nestFrom eol indent 0 s) = ⟨before, p, b⟩ :: ls.map (Line.nested eol indent) := by
  induction s using breakInduction generalizing before p b ls with
  | nil =>
      obtain ⟨hfirst, rfl⟩ := List.cons.inj h
      exact congrArg (· :: []) hfirst
  | lineBreak b' rest hb ih =>
      rw [linesFrom_append hb] at h
      obtain ⟨hfirst, rfl⟩ := List.cons.inj h
      obtain ⟨p', b'', ls', hlines⟩ := exists_linesFrom_eq_cons b' rest
      rw [nestFrom_break heol hb, linesFrom_append hb, hfirst, hlines, List.map_cons,
        nested_first heol hlines]
      have hunit : ∀ c ∈ (if eol <:+ b'.chars ∧ ¬ (rest = [] ∨ eol <+: rest) then indent else []),
          c ≠ '\n' ∧ c ≠ '\r' := by
        split
        · exact hindent
        · exact nofun
      rw [linesFrom_append_of_plain hunit, ih hlines]
      rfl
  | cons c cs hc ih =>
      obtain ⟨p', b', ls', hlines⟩ := exists_linesFrom_eq_cons before cs
      rw [linesFrom_cons before hc, hlines] at h
      obtain ⟨hfirst, rfl⟩ := List.cons.inj h
      rw [nestFrom_cons indent (not_prefix_of_not_endsAt heol hc),
        linesFrom_cons before (not_endsAt_nestFrom hc), ih hlines]
      exact congrArg (· :: _) hfirst

end LineEnd

/-- In a text that ends its lines in the way that is looked for, every line behind the first can be nested. -/
theorem suited_of_uniform {eol : List Char} (indent : List Char) {s : List Char} {first q : Line}
    {rest : List Line} (hlines : linesFrom .none s = first :: rest)
    (h : ∀ q ∈ first :: rest, q.ending = .none ∨ q.ending.chars = eol) (hq : q ∈ rest) :
    q.Suited eol indent := by
  obtain ⟨p, b, ls, hcons⟩ := exists_linesFrom_eq_cons .none s
  obtain ⟨rfl, rfl⟩ := List.cons.inj (hlines.symm.trans hcons)
  obtain ⟨hne, q', hq', hending⟩ := exists_ending_eq_before hlines hq
  have hbefore : q.before.chars = eol := by
    rw [← hending] at hne ⊢
    exact (h q' (hlines ▸ hq')).resolve_left hne
  exact ⟨fun _ => .inl (hbefore ▸ List.suffix_refl _), fun _ _ =>
    (h q (List.mem_cons_of_mem _ hq)).imp_right .inl⟩

/-- The block of a module holds the lines of its body, the first one behind the unit of indentation and each
other one as `Line.nested` writes it. Such a line is right exactly if it is suited to the line end that is
asked for, and all are if the body ends its lines in no other way. -/
theorem emission_nests_iff {l : Layout} {f : ParsedFile} (heol : Settings.IsEol l.eol)
    (hmodule : f.isModule = true) :
    ∃ first rest, linesFrom .none (body (l.idOf f.path) f).toList = first :: rest ∧
      (first :: rest).flatMap Line.text = (body (l.idOf f.path) f).toList ∧
      (l.emission f).toList =
        (l.eol ++ "declare module '" ++ l.idOf f.path ++ "' \x7b" ++ l.eol ++ l.indent).toList ++
          (first.text ++ rest.flatMap fun q => (q.nested l.eol.toList l.indent.toList).text) ++
          (l.eol ++ "\x7d" ++ l.eol).toList ∧
      ((∀ c ∈ l.indent.toList, c ≠ '\n' ∧ c ≠ '\r') →
        linesFrom .none (nest l.eol l.indent (body (l.idOf f.path) f)).toList =
          first :: rest.map (Line.nested l.eol.toList l.indent.toList)) ∧
      (∀ q ∈ rest, Line.Nests l.indent.toList q (q.nested l.eol.toList l.indent.toList) ↔
        q.Suited l.eol.toList l.indent.toList) ∧
      ((∀ q ∈ first :: rest, q.ending = .none ∨ q.ending.chars = l.eol.toList) →
        ∀ q ∈ rest, Line.Nests l.indent.toList q (q.nested l.eol.toList l.indent.toList)) := by
  have heol' := toList_eol heol
  obtain ⟨p, b, rest, hlines⟩ :=
    exists_linesFrom_eq_cons .none (body (l.idOf f.path) f).toList
  refine ⟨⟨.none, p, b⟩, rest, hlines, ?_, ?_, fun hindent => ?_,
    fun q _ => Line.nests_nested_iff _ _ q, fun huniform q hq => ?_⟩
  · rw [← hlines, flatMap_text_linesFrom]
  · have hnest := nestFrom_eq_flatMap heol' hlines l.indent.toList
    simp only [Layout.emission, hmodule, if_true, block, String.toList_append, nest,
      String.toList_ofList, hnest, Line.text, List.append_assoc]
  · rw [nest, String.toList_ofList]
    exact linesFrom_nestFrom heol' hindent hlines
  · exact (Line.nests_nested_iff _ _ q).2 (suited_of_uniform _ hlines huniform hq)

/-- A module of two statements with something between them. -/
def twoExports (gap : String) : ParsedFile where
  path := "/p/f.d.ts"
  text := "export \x7b\x7d;" ++ gap ++ "export \x7b\x7d;"
  root :=
    ⟨⟨.sourceFile, "program", false, none⟩, 0, 20 + gap.length, [
      ⟨⟨.exportDeclaration, "export_statement", false, none⟩, 0, 10, []⟩,
      ⟨⟨.exportDeclaration, "export_statement", false, none⟩, 10 + gap.length, 20 + gap.length, []⟩]⟩
  hasErrors := false

/-- Where lines are to end with a line feed, the unit is put into a line that is empty and ends with a
carriage return and a line feed; where they are to end with these two, it is not put in behind a lone
line feed. -/
theorem exists_line_not_nests :
    Layout.emission ⟨"/", "/p", "pkg", "\n", "\t"⟩ (twoExports "\r\n\r\n") =
        "\ndeclare module 'pkg/f' \x7b\n\texport \x7b\x7d;\r\n\t\r\n\texport \x7b\x7d;\n\x7d\n" ∧
      ¬ Line.Nests ['\t'] ⟨.returnFeed, [], .returnFeed⟩ ⟨.returnFeed, ['\t'], .returnFeed⟩ ∧
    Layout.emission ⟨"/", "/p", "pkg", "\r\n", "\t"⟩ (twoExports "\n") =
        "\r\ndeclare module 'pkg/f' \x7b\r\n\texport \x7b\x7d;\nexport \x7b\x7d;\r\n\x7d\r\n" ∧
      ¬ Line.Nests ['\t'] ⟨.feed, "export \x7b\x7d;".toList, .none⟩
        ⟨.feed, "export \x7b\x7d;".toList, .none⟩ := by
  refine ⟨by decide +kernel, fun h => ?_, by decide +kernel, fun h => ?_⟩
  · exact List.cons_ne_nil _ _ (h.empty rfl)
  · exact absurd (h.full (by decide)) (by decide)

theorem emission_nests_iff_twoExports :
    Settings.IsEol "\n" ∧ (twoExports "\r\n\r\n").isModule = true ∧
      ∃ first rest, linesFrom .none (body "pkg/f" (twoExports "\r\n\r\n")).toList = first :: rest ∧
        rest = [⟨.returnFeed, [], .returnFeed⟩, ⟨.returnFeed, "export \x7b\x7d;".toList, .none⟩] ∧
        ¬ Line.Nests ['\t'] ⟨.returnFeed, [], .returnFeed⟩
          (Line.nested ['\n'] ['\t'] ⟨.returnFeed, [], .returnFeed⟩) ∧
        Line.Nests ['\t'] ⟨.returnFeed, "export \x7b\x7d;".toList, .none⟩
          (Line.nested ['\n'] ['\t'] ⟨.returnFeed, "export \x7b\x7d;".toList, .none⟩) := by
  have hid : Layout.idOf ⟨"/", "/p", "pkg", "\n", "\t"⟩ "/p/f.d.ts" = "pkg/f" := by decide +kernel
  have hmodule : (twoExports "\r\n\r\n").isModule = true := by decide +kernel
  obtain ⟨first, rest, hlines, -, -, -, hnests, -⟩ :=
    emission_nests_iff (l := ⟨"/", "/p", "pkg", "\n", "\t"⟩) (.inl rfl) hmodule
  have hpath : (twoExports "\r\n\r\n").path = "/p/f.d.ts" := rfl
  rw [hpath, hid] at hlines
  have hbody : linesFrom .none (body "pkg/f" (twoExports "\r\n\r\n")).toList =
      [⟨.none, "export \x7b\x7d;".toList, .returnFeed⟩, ⟨.returnFeed, [], .returnFeed⟩,
        ⟨.returnFeed, "export \x7b\x7d;".toList, .none⟩] := by decide +kernel
  obtain ⟨rfl, rfl⟩ := List.cons.inj (hlines.symm.trans hbody)
  refine ⟨.inl rfl, hmodule, _, _, hlines, rfl, fun h => ?_, ?_⟩
  · have hsuited := (hnests _ (by simp)).1 h
    exact absurd (hsuited.empty rfl (by decide)) (by decide)
  · exact (hnests _ (by simp)).2 ⟨fun _ => .inl (by decide), fun h => absurd h (by decide)⟩

end Emission

end DeclBundle
