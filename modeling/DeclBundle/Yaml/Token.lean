import DeclBundle.Yaml.Fault

/-!
# Tokens

`Token.scan` cuts a text into tokens. The marks `-`, `?` and `:` count where white space follows, brackets
and commas inside brackets; everything else is a scalar, quoted or plain. Blocks have no marks of their
own: a block begins where an item or a key stands further right than the block around it, and ends where a
line begins further left. A scalar turns out to be a key only when a colon follows it on its line, so the
scan remembers where such a candidate stands and puts the mark of a key in front of it later.
-/

namespace DeclBundle.Yaml

inductive Token where
  | documentStart
  | documentEnd
  | listStart
  | mapStart
  | blockEnd
  | entry
  | key
  | value
  | openList
  | closeList
  | openMap
  | closeMap
  | comma
  | reference
  | scalar (text : String) (plain : Bool)
deriving DecidableEq, Repr

/-- A token that may turn out to be a key. -/
structure Candidate where
  depth : Nat
  position : Nat
  required : Bool
  line : Nat
  index : Nat
  column : Nat
deriving Repr

structure Scan where
  rest : List Char
  index : Nat
  line : Nat
  column : Nat
  depth : Nat
  /-- The columns of the open blocks, the innermost first. -/
  blocks : List Nat
  keyAllowed : Bool
  candidates : List Candidate
  tokens : Array Token

def isBreak (c : Char) : Bool :=
  c == '\n' || c == '\r' || c == '\x85' || c == '\u2028' || c == '\u2029'

def isSpace (c : Char) : Bool := c == ' ' || c == '\t'

def gapAhead (s : List Char) : Bool :=
  match s with
  | [] => true
  | c :: _ => isSpace c || isBreak c

def documentMark (s : List Char) : Bool :=
  match s with
  | '-' :: '-' :: '-' :: rest => gapAhead rest
  | '.' :: '.' :: '.' :: rest => gapAhead rest
  | _ => false

namespace Scan

def step (s : Scan) : Scan :=
  match s.rest with
  | [] => s
  | c :: cs =>
    let s := { s with rest := cs, index := s.index + 1 }
    if isBreak c && !(c == '\r' && cs.head? == some '\n') then
      { s with line := s.line + 1, column := 0 }
    else if c == '\uFEFF' then s
    else { s with column := s.column + 1 }

def advance : Nat → Scan → Scan
  | 0, s => s
  | n + 1, s => advance n s.step

def takeBreak (s : Scan) : List Char × Scan :=
  match s.rest with
  | '\r' :: '\n' :: _ => (['\n'], s.advance 2)
  | c :: _ =>
    if c == '\u2028' || c == '\u2029' then ([c], s.step)
    else if isBreak c then (['\n'], s.step)
    else ([], s)
  | [] => ([], s)

/-- The column of the innermost block is further left than a column. -/
def isInside (s : Scan) (column : Nat) : Bool :=
  match s.blocks with
  | [] => true
  | b :: _ => b < column

def skipGap : Nat → Scan → Scan
  | 0, s => s
  | fuel + 1, s =>
    let s := s.advance (s.rest.takeWhile (· == ' ')).length
    let s :=
      match s.rest with
      | '#' :: _ => s.advance (s.rest.takeWhile fun c => !isBreak c).length
      | _ => s
    match s.rest with
    | c :: _ =>
      if isBreak c then
        let s := s.takeBreak.2
        skipGap fuel (if s.depth = 0 then { s with keyAllowed := true } else s)
      else s
    | [] => s

def push (s : Scan) (t : Token) : Scan := { s with tokens := s.tokens.push t }

/-- The state with one more token in front of those behind a position. -/
def insert (s : Scan) (position : Nat) (t : Token) : Scan :=
  { s with
    tokens := (s.tokens.extract 0 position).push t ++ s.tokens.extract position s.tokens.size }

/-- The end of the blocks that are further right than a column; without a column, of all. -/
def closeBlocks (s : Scan) (column : Option Nat) : Scan :=
  if s.depth ≠ 0 then s
  else
    let closed := s.blocks.takeWhile fun b =>
      match column with
      | some c => c < b
      | none => true
    { s with
      blocks := s.blocks.drop closed.length
      tokens := closed.foldl (fun ts _ => ts.push .blockEnd) s.tokens }

/-- The state without candidates that lie behind; one that had to be a key is a fault. -/
def dropStale (s : Scan) : Except Fault Scan :=
  let stale := s.candidates.filter fun k => k.line != s.line || 1024 < s.index - k.index
  if stale.any Candidate.required then .error .noColon
  else .ok { s with
    candidates := s.candidates.filter fun k => k.line == s.line && s.index - k.index ≤ 1024 }

def dropCandidate (s : Scan) : Except Fault Scan :=
  if s.candidates.any fun k => k.depth == s.depth && k.required then .error .noColon
  else .ok { s with candidates := s.candidates.filter fun k => k.depth != s.depth }

def noteCandidate (s : Scan) : Except Fault Scan := do
  if s.keyAllowed then
    let required := s.depth == 0 && s.blocks.head? == some s.column
    let s ← s.dropCandidate
    pure { s with candidates :=
      ⟨s.depth, s.tokens.size, required, s.line, s.index, s.column⟩ :: s.candidates }
  else pure s

/-- The state with a block that begins in a column, if none does; its token goes to a position. -/
def openBlock (s : Scan) (column position : Nat) (t : Token) : Scan :=
  if s.isInside column then { s.insert position t with blocks := column :: s.blocks } else s

/-- The state behind a token of some characters. -/
def take (s : Scan) (t : Token) (length : Nat) : Scan := (s.advance length).push t

def takeMark (s : Scan) (t : Token) : Except Fault Scan := do
  let s ← (s.closeBlocks none).dropCandidate
  pure ({ s with keyAllowed := false }.take t 3)

def takeOpening (s : Scan) (t : Token) : Except Fault Scan := do
  let s ← s.noteCandidate
  pure ({ s with depth := s.depth + 1, keyAllowed := true }.take t 1)

def takeClosing (s : Scan) (t : Token) : Except Fault Scan := do
  let s ← s.dropCandidate
  pure ({ s with depth := s.depth - 1, keyAllowed := false }.take t 1)

def takeComma (s : Scan) : Except Fault Scan := do
  let s ← s.dropCandidate
  pure ({ s with keyAllowed := true }.take .comma 1)

def takeEntry (s : Scan) : Except Fault Scan := do
  if s.depth = 0 ∧ s.keyAllowed = false then throw .entryNotAllowed
  let s := if s.depth = 0 then s.openBlock s.column s.tokens.size .listStart else s
  let s ← s.dropCandidate
  pure ({ s with keyAllowed := true }.take .entry 1)

def takeKey (s : Scan) : Except Fault Scan := do
  if s.depth = 0 ∧ s.keyAllowed = false then throw .keyNotAllowed
  let s := if s.depth = 0 then s.openBlock s.column s.tokens.size .mapStart else s
  let s ← s.dropCandidate
  pure ({ s with keyAllowed := s.depth == 0 }.take .key 1)

/-- The state behind the mark of a value; the candidate before it becomes a key. -/
def takeValue (s : Scan) : Except Fault Scan := do
  match s.candidates.find? fun k => k.depth == s.depth with
  | some k =>
    let s := { s with candidates := s.candidates.filter fun k => k.depth != s.depth }
    let s := s.insert k.position .key
    let s := if s.depth = 0 then s.openBlock k.column k.position .mapStart else s
    pure ({ s with keyAllowed := false }.take .value 1)
  | none =>
    if s.depth = 0 ∧ s.keyAllowed = false then throw .valueNotAllowed
    let s := if s.depth = 0 then s.openBlock s.column s.tokens.size .mapStart else s
    let s ← s.dropCandidate
    pure ({ s with keyAllowed := s.depth == 0 }.take .value 1)

/-! ### Scalars -/

/-- The number of characters of a plain scalar up to a gap or a mark. -/
def plainLength (inBrackets : Bool) : List Char → Nat
  | [] => 0
  | c :: cs =>
    if isSpace c || isBreak c then 0
    else if c == ':' &&
        (gapAhead cs || (inBrackets && (cs.head?.any fun d => ",[]\x7b\x7d".toList.contains d))) then 0
    else if inBrackets && ",?[]\x7b\x7d".toList.contains c then 0
    else plainLength inBrackets cs + 1

/-- The line ends and indents in front: the text they stand for and the state behind them, and whether a
mark between documents follows. -/
def plainBreaks : Nat → Scan → List Char × Scan × Bool
  | 0, s => ([], s, false)
  | fuel + 1, s =>
    match s.rest with
    | ' ' :: _ => plainBreaks fuel s.step
    | c :: _ =>
      if isBreak c then
        let (b, s) := s.takeBreak
        if documentMark s.rest then (b, s, true)
        else
          let (bs, s, marked) := plainBreaks fuel s
          (b ++ bs, s, marked)
      else ([], s, false)
    | [] => ([], s, false)

/-- The gap inside a plain scalar: the text it stands for, empty at its end, and the state behind it. -/
def plainGap (s : Scan) : List Char × Scan :=
  let blanks := s.rest.takeWhile (· == ' ')
  let s := s.advance blanks.length
  match s.rest with
  | c :: _ =>
    if isBreak c then
      let (first, s) := s.takeBreak
      let s := { s with keyAllowed := true }
      if documentMark s.rest then ([], s)
      else
        let (more, s, marked) := plainBreaks s.rest.length s
        if marked then ([], s)
        else if first ≠ ['\n'] then (first ++ more, s)
        else if more.isEmpty then ([' '], s)
        else (more, s)
    else (blanks, s)
  | [] => (blanks, s)

/-- The rest of a plain scalar behind a gap, and the state behind it; `least` is the column where a line
of it may begin. -/
def plainFrom (least : Nat) : Nat → List Char → Scan → List Char × Scan
  | 0, _, s => ([], s)
  | fuel + 1, gap, s =>
    match s.rest with
    | '#' :: _ => ([], s)
    | _ =>
      let n := plainLength (s.depth != 0) s.rest
      if n = 0 then ([], s)
      else
        let chunk := gap ++ s.rest.take n
        let s := { s with keyAllowed := false }.advance n
        let (gap, s) := s.plainGap
        if gap.isEmpty || (s.depth == 0 && s.column < least) then (chunk, s)
        else
          let (more, s) := plainFrom least fuel gap s
          (chunk ++ more, s)

def takePlain (s : Scan) : Except Fault Scan := do
  let s ← s.noteCandidate
  let s := { s with keyAllowed := false }
  let least :=
    match s.blocks with
    | [] => 0
    | b :: _ => b + 1
  let (text, s) := plainFrom least s.rest.length [] s
  pure (s.push (.scalar (String.ofList text) true))

def escapeOf? : Char → Option Char
  | '0' => some '\x00'
  | 'a' => some '\x07'
  | 'b' => some '\x08'
  | 't' => some '\t'
  | '\t' => some '\t'
  | 'n' => some '\n'
  | 'v' => some '\x0b'
  | 'f' => some '\x0c'
  | 'r' => some '\r'
  | 'e' => some '\x1b'
  | ' ' => some ' '
  | '"' => some '"'
  | '\\' => some '\\'
  | '/' => some '/'
  | 'N' => some '\x85'
  | '_' => some '\xa0'
  | 'L' => some '\u2028'
  | 'P' => some '\u2029'
  | _ => none

/-- The number of digits behind a letter that announces a code point. -/
def codeLength? : Char → Option Nat
  | 'x' => some 2
  | 'u' => some 4
  | 'U' => some 8
  | _ => none

def hexOf? (s : List Char) : Option Nat :=
  s.foldlM (fun n c =>
    if c.isDigit then some (16 * n + (c.toNat - 48))
    else if 'a' ≤ c ∧ c ≤ 'f' then some (16 * n + (c.toNat - 87))
    else if 'A' ≤ c ∧ c ≤ 'F' then some (16 * n + (c.toNat - 55))
    else none) 0

/-- The line ends inside quotes, with the blanks between them left out. -/
def quotedBreaks : Nat → Scan → Except Fault (List Char × Scan)
  | 0, s => .ok ([], s)
  | fuel + 1, s => do
    if documentMark s.rest then throw .markInQuotes
    let s := s.advance (s.rest.takeWhile isSpace).length
    match s.rest with
    | c :: _ =>
      if isBreak c then
        let (b, s) := s.takeBreak
        let (bs, s) ← quotedBreaks fuel s
        pure (b ++ bs, s)
      else pure ([], s)
    | [] => pure ([], s)

/-- A gap inside quotes: the text it stands for and the state behind it. -/
def quotedGap (s : Scan) : Except Fault (List Char × Scan) := do
  let blanks := s.rest.takeWhile isSpace
  let s := s.advance blanks.length
  match s.rest with
  | [] => throw .openQuote
  | c :: _ =>
    if isBreak c then
      let (first, s) := s.takeBreak
      let (more, s) ← quotedBreaks s.rest.length s
      if first ≠ ['\n'] then pure (first ++ more, s)
      else if more.isEmpty then pure ([' '], s)
      else pure (more, s)
    else pure (blanks, s)

/-- The character of an escape, the backslash being passed; a line end stands for the line ends behind
it. -/
def escape (s : Scan) : Except Fault (List Char × Scan) := do
  match s.rest with
  | [] => throw .badEscape
  | c :: cs =>
    match escapeOf? c, codeLength? c with
    | some d, _ => pure ([d], s.step)
    | none, some n =>
      let digits := cs.take n
      match hexOf? digits with
      | some code =>
        if digits.length < n then throw .badEscape
        else pure ([Char.ofNat code], s.advance (n + 1))
      | none => throw .badEscape
    | none, none =>
      if isBreak c then quotedBreaks cs.length s.takeBreak.2 else throw .badEscape

/-- The characters up to the closing quote, and the state behind it. -/
def quotedFrom (double : Bool) : Nat → Scan → Except Fault (List Char × Scan)
  | 0, _ => .error .openQuote
  | fuel + 1, s => do
    match s.rest with
    | [] => throw .openQuote
    | c :: cs =>
      if c == '\'' && !double && cs.head? == some '\'' then
        let (more, s) ← quotedFrom double fuel (s.advance 2)
        pure ('\'' :: more, s)
      else if c == (if double then '"' else '\'') then pure ([], s.step)
      else if c == '\\' && double then
        let (first, s) ← s.step.escape
        let (more, s) ← quotedFrom double fuel s
        pure (first ++ more, s)
      else if isSpace c || isBreak c then
        let (first, s) ← s.quotedGap
        let (more, s) ← quotedFrom double fuel s
        pure (first ++ more, s)
      else
        let (more, s) ← quotedFrom double fuel s.step
        pure (c :: more, s)

def takeQuoted (s : Scan) (double : Bool) : Except Fault Scan := do
  let s ← s.noteCandidate
  let (text, s) ← quotedFrom double (s.rest.length + 1) { s with keyAllowed := false }.step
  pure (s.push (.scalar (String.ofList text) false))

def takeAlias (s : Scan) : Except Fault Scan := do
  let s ← s.noteCandidate
  let name := (s.rest.drop 1).takeWhile fun c => c.isAlphanum || c == '-' || c == '_'
  if name.isEmpty then throw (.noToken '*')
  pure ({ s with keyAllowed := false }.take .reference (name.length + 1))

/-- Whether a plain scalar may begin with a character that another one follows. -/
def startsPlain (inBrackets : Bool) (c : Char) (cs : List Char) : Bool :=
  !("-?:,[]\x7b\x7d#&*!|>'\"%@".toList ++ [Char.ofNat 96]).contains c && !isSpace c ||
    (!gapAhead cs && (c == '-' || (!inBrackets && (c == '?' || c == ':'))))

/-- The state behind the next token, which is not at the end of the text. -/
def next (s : Scan) (c : Char) (cs : List Char) : Except Fault Scan :=
  let flow := s.depth != 0
  if c == '-' && s.column == 0 && documentMark s.rest then s.takeMark .documentStart
  else if c == '.' && s.column == 0 && documentMark s.rest then s.takeMark .documentEnd
  else if c == '[' then s.takeOpening .openList
  else if c == '{' then s.takeOpening .openMap
  else if c == ']' then s.takeClosing .closeList
  else if c == '}' then s.takeClosing .closeMap
  else if c == ',' then s.takeComma
  else if c == '-' && gapAhead cs then s.takeEntry
  else if c == '?' && (flow || gapAhead cs) then s.takeKey
  else if c == ':' && (flow || gapAhead cs) then s.takeValue
  else if c == '*' then s.takeAlias
  else if c == '\'' then s.takeQuoted false
  else if c == '"' then s.takeQuoted true
  else if startsPlain flow c cs then s.takePlain
  else .error (.noToken c)

/-- The tokens of the rest of the text; the counter bounds their number. -/
def run : Nat → Scan → Except Fault (List Token)
  | 0, s => .ok s.tokens.toList
  | fuel + 1, s => do
    let s ← (s.skipGap (s.rest.length + 1)).dropStale
    let s := s.closeBlocks (some s.column)
    match s.rest with
    | [] =>
      let s ← (s.closeBlocks none).dropCandidate
      pure s.tokens.toList
    | c :: cs => run fuel (← s.next c cs)

def start (text : List Char) : Scan :=
  let rest :=
    match text with
    | '\uFEFF' :: cs => cs
    | cs => cs
  ⟨rest, 0, 0, 0, 0, [], true, [], #[]⟩

end Scan

def isAllowed (c : Char) : Bool :=
  let n := c.toNat
  n == 9 || n == 0xa || n == 0xd || (0x20 ≤ n && n ≤ 0x7e) || n == 0x85 || (0xa0 ≤ n && n ≤ 0xd7ff) ||
    (0xe000 ≤ n && n ≤ 0xfffd) || (0x10000 ≤ n && n ≤ 0x10ffff)

def Token.scan (text : List Char) : Except Fault (List Token) :=
  match text.find? fun c => !isAllowed c with
  | some c => .error (.badCharacter c)
  | none => Scan.run (text.length + 1) (Scan.start text)

end DeclBundle.Yaml
