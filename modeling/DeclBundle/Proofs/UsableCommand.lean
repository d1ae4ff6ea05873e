import DeclBundle.Proofs.SoundOptions
import Mathlib.Data.List.Induction

/-!
# Usable commands

A text that is given as a command is a row of pieces, or it breaks off: behind its pieces there is a quote
that is not closed or a backslash with nothing behind it (`isPieces_or_breaksOff`). In the first case it is
cut into the words that its pieces make up between gaps, and in the second it is refused
(`split_eq_ok_iff`, `split_eq_error_iff`). So a command is usable exactly if the text that is given for it,
if there is one, does not break off and is not made of gaps alone (`command_usable_iff`); of gaps comes a
command without words, and that a text breaks off is not said to be a problem of the configuration.
-/

namespace DeclBundle

namespace ShellWord

/-- A part of what stands between double quotes. -/
inductive QuotedPart where
  | plain (c : Char)
  | escaped (c : Char)

namespace QuotedPart

def chars : QuotedPart → List Char
  | plain c => [c]
  | escaped c => ['\\', c]

def value : QuotedPart → List Char
  | plain c => [c]
  | escaped c => if c = '"' ∨ c = '\\' then [c] else ['\\', c]

def IsProper : QuotedPart → Prop
  | plain c => c ≠ '"' ∧ c ≠ '\\'
  | escaped _ => True

end QuotedPart

inductive Piece where
  | gap (c : Char)
  | bare (c : Char)
  | escaped (c : Char)
  | single (body : List Char)
  | double (parts : List QuotedPart)

namespace Piece

def chars : Piece → List Char
  | gap c => [c]
  | bare c => [c]
  | escaped c => ['\\', c]
  | single body => '\'' :: (body ++ ['\''])
  | double parts => '"' :: (parts.flatMap QuotedPart.chars ++ ['"'])

def value : Piece → List Char
  | gap _ => []
  | bare c => [c]
  | escaped c => [c]
  | single body => body
  | double parts => parts.flatMap QuotedPart.value

def isGap : Piece → Bool
  | gap _ => true
  | _ => false

def IsProper : Piece → Prop
  | gap c => ShellWord.isGap c = true
  | bare c => ShellWord.isGap c = false ∧ c ≠ '\\' ∧ c ≠ '\'' ∧ c ≠ '"'
  | escaped _ => True
  | single body => '\'' ∉ body
  | double parts => ∀ p ∈ parts, p.IsProper

end Piece

def wordOf (ps : List Piece) : List Char := ps.flatMap Piece.value

def words (ps : List Piece) : List (List Char) :=
  ((ps.splitOnP Piece.isGap).filter fun run => !run.isEmpty).map wordOf

inductive Unfinished : Fault → List Char → Prop
  | escape : Unfinished .openEscape ['\\']
  | single (body : List Char) (h : '\'' ∉ body) : Unfinished .openQuote ('\'' :: body)
  | double (parts : List QuotedPart) (h : ∀ p ∈ parts, p.IsProper) :
      Unfinished .openQuote ('"' :: parts.flatMap QuotedPart.chars)
  | escapeInDouble (parts : List QuotedPart) (h : ∀ p ∈ parts, p.IsProper) :
      Unfinished .openEscape ('"' :: (parts.flatMap QuotedPart.chars ++ ['\\']))

section Scan

variable {word s : List Char} {f : Fault}

theorem scan_single {body : List Char} (h : '\'' ∉ body) (word s : List Char) :
    scan .single word (body ++ s) = scan .single (word ++ body) s := by
  induction body generalizing word with
  | nil => rw [List.nil_append, List.append_nil]
  | cons c body ih =>
      rw [List.mem_cons, not_or] at h
      obtain ⟨hc, hbody⟩ := h
      rw [List.cons_append, scan, if_neg (Ne.symm hc), ih hbody, List.append_assoc]
      rfl

theorem scan_double {parts : List QuotedPart} (h : ∀ p ∈ parts, p.IsProper) (word s : List Char) :
    scan .double word (parts.flatMap QuotedPart.chars ++ s) =
      scan .double (word ++ parts.flatMap QuotedPart.value) s := by
  induction parts generalizing word with
  | nil => rw [List.flatMap_nil, List.flatMap_nil, List.nil_append, List.append_nil]
  | cons p parts ih =>
      obtain ⟨hp, hparts⟩ := List.forall_mem_cons.1 h
      rw [List.flatMap_cons, List.flatMap_cons, List.append_assoc, ← List.append_assoc word, ← ih hparts]
      cases p with
      | plain c =>
          rw [QuotedPart.chars, List.singleton_append, scan, if_neg hp.1, if_neg hp.2]
          rfl
      | escaped c =>
          rw [QuotedPart.chars, List.cons_append, List.singleton_append, scan, if_neg (by decide),
            if_pos rfl, scan, QuotedPart.value]
          split <;> rfl

theorem scan_gap {p : Piece} (h : p.IsProper) (s : List Char) :
    scan .gap [] (p.chars ++ s) =
      if p.isGap then scan .gap [] s else scan .bare p.value s := by
  cases p with
  | gap c => simp [Piece.chars, Piece.isGap, scan, show isGap c = true from h]
  | bare c =>
      obtain ⟨hgap, hescape, hsingle, hdouble⟩ := h
      simp [Piece.chars, Piece.isGap, Piece.value, scan, hgap, hescape, hsingle, hdouble]
  | escaped c => simp [Piece.chars, Piece.isGap, Piece.value, scan, isGap]
  | single body =>
      simp [Piece.chars, Piece.isGap, Piece.value, scan, isGap, scan_single h]
  | double parts =>
      simp [Piece.chars, Piece.isGap, Piece.value, scan, isGap, scan_double h]

theorem scan_bare {p : Piece} (h : p.IsProper) (word s : List Char) :
    scan .bare word (p.chars ++ s) =
      if p.isGap then (scan .gap [] s).map (word :: ·) else scan .bare (word ++ p.value) s := by
  cases p with
  | gap c => simp [Piece.chars, Piece.isGap, scan, show isGap c = true from h]
  | bare c =>
      obtain ⟨hgap, hescape, hsingle, hdouble⟩ := h
      simp [Piece.chars, Piece.isGap, Piece.value, scan, hgap, hescape, hsingle, hdouble]
  | escaped c => simp [Piece.chars, Piece.isGap, Piece.value, scan, isGap]
  | single body =>
      simp [Piece.chars, Piece.isGap, Piece.value, scan, isGap, scan_single h]
  | double parts =>
      simp [Piece.chars, Piece.isGap, Piece.value, scan, isGap, scan_double h]

theorem scan_pieces {ps : List Piece} (h : ∀ p ∈ ps, p.IsProper) :
    scan .gap [] (ps.flatMap Piece.chars) = .ok (words ps) ∧
      ∀ word run runs, ps.splitOnP Piece.isGap = run :: runs →
        scan .bare word (ps.flatMap Piece.chars) =
          .ok ((word ++ wordOf run) :: (runs.filter fun run => !run.isEmpty).map wordOf) := by
  induction ps with
  | nil =>
      refine ⟨rfl, fun word run runs hsplit => ?_⟩
      obtain ⟨rfl, rfl⟩ := List.cons.inj hsplit
      simp [scan, wordOf]
  | cons p ps ih =>
      obtain ⟨hp, hps⟩ := List.forall_mem_cons.1 h
      obtain ⟨hgap, hbare⟩ := ih hps
      obtain ⟨run, runs, hsplit⟩ := List.exists_cons_of_ne_nil (List.splitOnP_ne_nil Piece.isGap ps)
      rw [words, List.splitOnP_cons_eq_if_modifyHead, List.flatMap_cons, scan_gap hp]
      cases hkind : p.isGap with
      | true =>
          refine ⟨hgap, fun word run' runs' hcons => ?_⟩
          obtain ⟨rfl, rfl⟩ := List.cons.inj hcons
          rw [scan_bare hp, hkind, if_pos rfl, hgap, wordOf, List.flatMap_nil, List.append_nil]
          rfl
      | false =>
          rw [hsplit, List.modifyHead_cons]
          refine ⟨hbare p.value run runs hsplit, fun word run' runs' hcons => ?_⟩
          obtain ⟨rfl, rfl⟩ := List.cons.inj hcons
          rw [scan_bare hp, hkind, if_neg Bool.false_ne_true, hbare _ run runs hsplit, List.append_assoc]
          rfl

theorem Unfinished.scan_eq (h : Unfinished f s) :
    scan .gap [] s = .error f ∧ ∀ word, scan .bare word s = .error f := by
  have hsingle (body : List Char) (h : '\'' ∉ body) (word : List Char) :
      scan .single word body = .error .openQuote := by
    rw [← List.append_nil body, scan_single h, scan]
  have hdouble (parts : List QuotedPart) (h : ∀ p ∈ parts, p.IsProper) (word : List Char) :
      scan .double word (parts.flatMap QuotedPart.chars) = .error .openQuote := by
    rw [← List.append_nil (parts.flatMap _), scan_double h, scan]
  cases h with
  | escape => exact ⟨rfl, fun word => rfl⟩
  | single body hbody => exact ⟨hsingle body hbody [], hsingle body hbody⟩
  | double parts hparts => exact ⟨hdouble parts hparts [], hdouble parts hparts⟩
  | escapeInDouble parts hparts =>
      have hscan (word : List Char) :
          scan .double word (parts.flatMap QuotedPart.chars ++ ['\\']) = .error .openEscape := by
        rw [scan_double hparts]
        rfl
      exact ⟨hscan [], hscan⟩

theorem Unfinished.scan_append (h : Unfinished f s) {ps : List Piece} (hps : ∀ p ∈ ps, p.IsProper) :
    scan .gap [] (ps.flatMap Piece.chars ++ s) = .error f ∧
      ∀ word, scan .bare word (ps.flatMap Piece.chars ++ s) = .error f := by
  induction ps with
  | nil => exact h.scan_eq
  | cons p ps ih =>
      obtain ⟨hp, hps⟩ := List.forall_mem_cons.1 hps
      obtain ⟨hgap, hbare⟩ := ih hps
      rw [List.flatMap_cons, List.append_assoc, scan_gap hp]
      cases hkind : p.isGap with
      | true =>
          refine ⟨hgap, fun word => ?_⟩
          rw [scan_bare hp, hkind, if_pos rfl, hgap]
          rfl
      | false =>
          refine ⟨hbare _, fun word => ?_⟩
          rw [scan_bare hp, hkind, if_neg Bool.false_ne_true, hbare]

end Scan

/-- Whether a text begins with proper parts that go on up to a double quote, to the end, or to a last
backslash. -/
def BeginsQuoted (s : List Char) : Prop :=
  ∃ parts : List QuotedPart, (∀ p ∈ parts, p.IsProper) ∧
    ((∃ rest, s = parts.flatMap QuotedPart.chars ++ '"' :: rest) ∨
      s = parts.flatMap QuotedPart.chars ∨ s = parts.flatMap QuotedPart.chars ++ ['\\'])

theorem BeginsQuoted.cons {p : QuotedPart} (hp : p.IsProper) {s : List Char} (h : BeginsQuoted s) :
    BeginsQuoted (p.chars ++ s) := by
  obtain ⟨parts, hparts, h⟩ := h
  refine ⟨p :: parts, List.forall_mem_cons.2 ⟨hp, hparts⟩, ?_⟩
  simpa [List.flatMap_cons, List.append_assoc] using h

theorem beginsQuoted (s : List Char) : BeginsQuoted s := by
  induction s using List.twoStepInduction with
  | nil => exact ⟨[], by simp, .inr (.inl rfl)⟩
  | singleton c =>
      by_cases hquote : c = '"'
      · exact ⟨[], by simp, .inl ⟨[], by rw [hquote]; rfl⟩⟩
      by_cases hescape : c = '\\'
      · exact ⟨[], by simp, .inr (.inr (by rw [hescape]; rfl))⟩
      exact ⟨[.plain c], List.forall_mem_singleton.2 ⟨hquote, hescape⟩, .inr (.inl rfl)⟩
  | cons_cons c d cs ih ih' =>
      by_cases hquote : c = '"'
      · exact ⟨[], by simp, .inl ⟨d :: cs, by rw [hquote]; rfl⟩⟩
      by_cases hescape : c = '\\'
      · rw [hescape]
        exact ih.cons (p := .escaped d) trivial
      exact (ih' d).cons (p := .plain c) ⟨hquote, hescape⟩

/-- Whether a text is a row of proper pieces. -/
def IsPieces (s : List Char) : Prop :=
  ∃ ps : List Piece, (∀ p ∈ ps, p.IsProper) ∧ s = ps.flatMap Piece.chars

/-- Whether a text is a row of proper pieces with something behind it that does not end. -/
def BreaksOff (f : Fault) (s : List Char) : Prop :=
  ∃ front tail, IsPieces front ∧ Unfinished f tail ∧ s = front ++ tail

theorem IsPieces.cons {p : Piece} (hp : p.IsProper) {s : List Char} (h : IsPieces s) :
    IsPieces (p.chars ++ s) := by
  obtain ⟨ps, hps, rfl⟩ := h
  exact ⟨p :: ps, List.forall_mem_cons.2 ⟨hp, hps⟩, rfl⟩

theorem BreaksOff.cons {p : Piece} (hp : p.IsProper) {f : Fault} {s : List Char} (h : BreaksOff f s) :
    BreaksOff f (p.chars ++ s) := by
  obtain ⟨front, tail, hfront, htail, rfl⟩ := h
  exact ⟨p.chars ++ front, tail, hfront.cons hp, htail, (List.append_assoc ..).symm⟩

theorem Unfinished.breaksOff {f : Fault} {s : List Char} (h : Unfinished f s) : BreaksOff f s :=
  ⟨[], s, ⟨[], by simp, rfl⟩, h, rfl⟩

theorem isPieces_or_breaksOff (s : List Char) : IsPieces s ∨ ∃ f, BreaksOff f s := by
  induction hn : s.length using Nat.strongRecOn generalizing s with
  | ind n ih =>
      -- The first piece is put in front of what comes of the rest.
      have hcons (p : Piece) (hp : p.IsProper) (rest : List Char) (hs : s = p.chars ++ rest)
          (hlt : rest.length < s.length) : IsPieces s ∨ ∃ f, BreaksOff f s := by
        rw [hs]
        exact (ih _ (hn ▸ hlt) rest rfl).imp (·.cons hp) fun ⟨f, h⟩ => ⟨f, h.cons hp⟩
      cases s with
      | nil => exact .inl ⟨[], by simp, rfl⟩
      | cons c cs =>
          by_cases hgap : isGap c = true
          · exact hcons (.gap c) hgap cs rfl (by simp)
          by_cases hescape : c = '\\'
          · subst hescape
            cases cs with
            | nil => exact .inr ⟨_, Unfinished.escape.breaksOff⟩
            | cons d cs =>
                exact hcons (.escaped d) trivial cs rfl (by simp only [List.length_cons]; omega)
          by_cases hsingle : c = '\''
          · subst hsingle
            by_cases hmem : '\'' ∈ cs
            · obtain ⟨body, rest, rfl, hbody⟩ := List.eq_append_cons_of_mem hmem
              exact hcons (.single body) hbody rest (by simp [Piece.chars]) (by simp; omega)
            · exact .inr ⟨_, (Unfinished.single cs hmem).breaksOff⟩
          by_cases hdouble : c = '"'
          · subst hdouble
            obtain ⟨parts, hparts, ⟨rest, rfl⟩ | rfl | rfl⟩ := beginsQuoted cs
            · exact hcons (.double parts) hparts rest (by simp [Piece.chars]) (by simp; omega)
            · exact .inr ⟨_, (Unfinished.double parts hparts).breaksOff⟩
            · exact .inr ⟨_, (Unfinished.escapeInDouble parts hparts).breaksOff⟩
          · exact hcons (.bare c) ⟨Bool.eq_false_iff.2 hgap, hescape, hsingle, hdouble⟩ cs rfl (by simp)

theorem split_eq_error_iff {s : String} {f : Fault} : split s = .error f ↔ BreaksOff f s.toList := by
  have herror {f : Fault} (h : BreaksOff f s.toList) : split s = .error f := by
    obtain ⟨_, tail, ⟨ps, hps, rfl⟩, htail, hs⟩ := h
    rw [split, hs, (htail.scan_append hps).1]
    rfl
  refine ⟨fun h => ?_, herror⟩
  rcases isPieces_or_breaksOff s.toList with ⟨ps, hps, hs⟩ | ⟨f', hbreaks⟩
  · rw [split, hs, (scan_pieces hps).1] at h
    cases h
  · obtain rfl : f' = f := Except.error.inj ((herror hbreaks).symm.trans h)
    exact hbreaks

theorem split_eq_ok_iff {s : String} {ws : List String} :
    split s = .ok ws ↔
      ∃ ps : List Piece, (∀ p ∈ ps, p.IsProper) ∧ s.toList = ps.flatMap Piece.chars ∧
        ws = (words ps).map String.ofList := by
  have hok {ps : List Piece} (hps : ∀ p ∈ ps, p.IsProper) (hs : s.toList = ps.flatMap Piece.chars) :
      split s = .ok ((words ps).map String.ofList) := by
    rw [split, hs, (scan_pieces hps).1]
    rfl
  constructor
  · intro h
    rcases isPieces_or_breaksOff s.toList with ⟨ps, hps, hs⟩ | ⟨f, hbreaks⟩
    · exact ⟨ps, hps, hs, Except.ok.inj (h.symm.trans (hok hps hs))⟩
    · cases h.symm.trans (split_eq_error_iff.2 hbreaks)
  · rintro ⟨ps, hps, hs, rfl⟩
    exact hok hps hs

theorem isPieces_iff {s : String} : IsPieces s.toList ↔ ∃ ws, split s = .ok ws := by
  constructor
  · rintro ⟨ps, hps, hs⟩
    exact ⟨_, split_eq_ok_iff.2 ⟨ps, hps, hs, rfl⟩⟩
  · rintro ⟨ws, h⟩
    obtain ⟨ps, hps, hs, -⟩ := split_eq_ok_iff.1 h
    exact ⟨ps, hps, hs⟩

theorem words_eq_nil_iff {ps : List Piece} : words ps = [] ↔ ∀ p ∈ ps, p.isGap = true := by
  induction ps with
  | nil => simp [words]
  | cons p ps ih =>
      rw [words, List.splitOnP_cons_eq_if_modifyHead, List.forall_mem_cons]
      cases hkind : p.isGap with
      | true => exact ih.trans (by simp)
      | false =>
          obtain ⟨run, runs, hsplit⟩ := List.exists_cons_of_ne_nil (List.splitOnP_ne_nil Piece.isGap ps)
          simp [hsplit]

theorem split_eq_nil_iff {s : String} : split s = .ok [] ↔ ∀ c ∈ s.toList, isGap c = true := by
  rw [split_eq_ok_iff]
  constructor
  · rintro ⟨ps, hps, hs, hwords⟩ c hc
    have hgaps := words_eq_nil_iff.1 (List.map_eq_nil_iff.1 hwords.symm)
    rw [hs, List.mem_flatMap] at hc
    obtain ⟨p, hp, hc⟩ := hc
    cases p with
    | gap d =>
        obtain rfl := List.mem_singleton.1 hc
        exact hps _ hp
    | _ => cases hgaps _ hp
  · intro h
    refine ⟨s.toList.map .gap, ?_, ?_, ?_⟩
    · simpa [Piece.IsProper] using h
    · simp [List.flatMap_map, Piece.chars]
    · rw [words_eq_nil_iff.2 (by simp [Piece.isGap]), List.map_nil]

end ShellWord

namespace Compiler

/-- The text that is given for a command: the one that was set, or else the one in the environment; an
empty one does not count. -/
def given? (site : Site) (executable : Option String) : Option String :=
  (executable.filter (· ≠ "")).or ((site.valueOf? commandVariable).filter (· ≠ ""))

/-- Whether the words of a command can be used, or it is said what has to be configured. -/
def IsUsable : Except Failure (List String) → Prop
  | .ok words => words ≠ []
  | .error e => ∃ p, e = .configuration p

variable {site : Site} {fs : FileSystem} {baseDir : String} {executable : Option String}

theorem isTruthy_text? (t : Option String) :
    (t.elim Value.null .text).isTruthy = (t.filter (· ≠ "")).isSome := by
  cases t with
  | none => rfl
  | some s =>
      by_cases hs : s = ""
      · subst hs
        rfl
      · rw [Option.elim_some, Value.isTruthy_text.2 hs, Option.filter_some, if_pos (by simpa using hs)]
        rfl

/-- What is configured is the text that is given, and void if none is. -/
theorem configured_eq (site : Site) (executable : Option String) :
    (∃ s, given? site executable = some s ∧
        configured site (executable.elim .null .text) = .text s ∧ (Value.text s).isTruthy = true) ∨
      given? site executable = none ∧
        (configured site (executable.elim .null .text)).isTruthy = false := by
  -- A text that is set is given exactly if it is not empty.
  have hset (t : Option String) :
      (∃ s, t.filter (· ≠ "") = some s ∧ t.elim .null .text = Value.text s ∧
          (Value.text s).isTruthy = true) ∨
        t.filter (· ≠ "") = none ∧ (t.elim Value.null .text).isTruthy = false := by
    rw [isTruthy_text?]
    cases hfilter : t.filter (· ≠ "") with
    | none => exact .inr ⟨rfl, rfl⟩
    | some s =>
        obtain ⟨rfl, hs⟩ := Option.filter_eq_some_iff.1 hfilter
        exact .inl ⟨s, rfl, rfl, Value.isTruthy_text.2 (of_decide_eq_true hs)⟩
  rw [given?, configured]
  rcases hset executable with ⟨s, hgiven, htext, htruthy⟩ | ⟨hgiven, hfalse⟩
  · rw [htext, if_pos htruthy, hgiven]
    exact .inl ⟨s, rfl, rfl, htruthy⟩
  · rw [hfalse, if_neg Bool.false_ne_true, hgiven, Option.none_or]
    exact hset _

theorem command_of_given {s : String} (h : given? site executable = some s) :
    command site fs baseDir (executable.elim .null .text) =
      (ShellWord.split s).mapError fun f => .badValue (.command f) := by
  rcases configured_eq site executable with ⟨s', hgiven, hconfigured, htruthy⟩ | ⟨hgiven, -⟩
  · obtain rfl : s' = s := Option.some.inj (hgiven.symm.trans h)
    rw [command]
    simp only [hconfigured]
    rw [if_pos htruthy]
  · cases hgiven.symm.trans h

/-- Without such a text there is a program, or it is said that there is none. -/
theorem command_of_not_given (h : given? site executable = none) :
    (∃ p, command site fs baseDir (executable.elim .null .text) = .ok [p]) ∨
      command site fs baseDir (executable.elim .null .text) = .error (.configuration .noCompiler) := by
  rcases configured_eq site executable with ⟨s, hgiven, -⟩ | ⟨-, hfalse⟩
  · cases hgiven.symm.trans h
  · rw [command, if_neg (by simp [hfalse])]
    split
    · exact .inl ⟨_, rfl⟩
    · split
      · exact .inr rfl
      · exact .inl ⟨_, rfl⟩
    · exact .inr rfl

/-- A command is usable, or it is said what has to be configured, exactly if the text that is given for
it, if there is one, spells a word and does not break off. Of a text without words comes a command without
words, and a text that breaks off fails with the fault of its tail; nothing else goes wrong. -/
theorem command_usable_iff (site : Site) (fs : FileSystem) (baseDir : String)
    (executable : Option String) :
    (IsUsable (command site fs baseDir (executable.elim .null .text)) ↔
      ∀ s ∈ given? site executable,
        ShellWord.IsPieces s.toList ∧ ∃ c ∈ s.toList, ShellWord.isGap c = false) ∧
    (command site fs baseDir (executable.elim .null .text) = .ok [] ↔
      ∃ s ∈ given? site executable, ∀ c ∈ s.toList, ShellWord.isGap c = true) ∧
    (∀ f, command site fs baseDir (executable.elim .null .text) = .error (.badValue (.command f)) ↔
      ∃ s ∈ given? site executable, ShellWord.BreaksOff f s.toList) ∧
    ∀ e, command site fs baseDir (executable.elim .null .text) = .error e →
      e = .configuration .noCompiler ∨ ∃ f, e = .badValue (.command f) := by
  cases hgiven : given? site executable with
  | none =>
      rcases @command_of_not_given site fs baseDir executable hgiven with ⟨p, hcommand⟩ | hcommand
      · rw [hcommand]
        simp [IsUsable]
      · rw [hcommand]
        simp [IsUsable]
  | some s =>
      rw [command_of_given hgiven]
      simp only [Option.mem_some, forall_eq', exists_eq_left']
      rw [ShellWord.isPieces_iff, ← ShellWord.split_eq_nil_iff]
      simp only [← ShellWord.split_eq_error_iff]
      have hnil := ShellWord.split_eq_nil_iff (s := s)
      cases hsplit : ShellWord.split s with
      | ok ws =>
          have hword : (∃ c ∈ s.toList, ShellWord.isGap c = false) ↔ ws ≠ [] := by
            rw [hsplit, Except.ok.injEq] at hnil
            rw [Ne, hnil]
            push Not
            simp
          rw [hword]
          simp [Except.mapError, IsUsable]
      | error f =>
          simp [Except.mapError, IsUsable]

/-- A site where the variable for the command is blank. -/
def blankVariableSite : Site where
  cwd := "/p"
  temporary := "/tmp"
  tokens := ⟨"x", "y"⟩
  environment := [(commandVariable, " \t")]
  installed := some "/bin/tsc"
  answer _ := .refused 2 "No such file or directory"
  tree _ := ⟨⟨⟨"program", true, none⟩, 0, 0, []⟩, false⟩
  yaml := Yaml.simpleReader

/-- A blank text leaves nothing to start, and a quote that is not closed is not said to be a problem of the
configuration. -/
theorem not_isUsable_blankVariableSite :
    command blankVariableSite FileSystem.empty "/p" .null = .ok [] ∧
      command blankVariableSite FileSystem.empty "/p" (.text "'") =
        .error (.badValue (.command .openQuote)) ∧
      ¬ IsUsable (command blankVariableSite FileSystem.empty "/p" .null) ∧
      ¬ IsUsable (command blankVariableSite FileSystem.empty "/p" (.text "'")) := by
  have hblank : command blankVariableSite FileSystem.empty "/p" .null = .ok [] := by
    have hgiven : given? blankVariableSite none = some " \t" := by decide
    exact command_of_given hgiven
  have hquote : command blankVariableSite FileSystem.empty "/p" (.text "'") =
      .error (.badValue (.command .openQuote)) := by
    have hgiven : given? blankVariableSite (some "'") = some "'" := by decide
    exact command_of_given hgiven
  rw [hblank, hquote]
  simp [IsUsable]

end Compiler

end DeclBundle
