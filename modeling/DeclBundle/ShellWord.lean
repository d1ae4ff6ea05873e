/-!
# Words of a command

`ShellWord.split` cuts a command into words as a shell does. White space separates words; single quotes
keep everything between them; double quotes keep everything but a backslash before a double quote or a
backslash; elsewhere a backslash keeps the character behind it. Quoted and bare stretches that touch make
up one word, and a pair of quotes with nothing in it makes a word of its own. A quote that is not closed
and a backslash at the end are faults.
-/

namespace DeclBundle

namespace ShellWord

/-- Why a command cannot be cut into words. -/
inductive Fault where
  | openQuote
  | openEscape
deriving DecidableEq, Repr

def Fault.message : Fault → String
  | openQuote => "No closing quotation"
  | openEscape => "No escaped character"

/-- Where in a word the scan stands. -/
inductive Mode where
  | gap
  | bare
  | single
  | double
  | escaped
  | escapedInDouble
deriving DecidableEq, Repr

def isGap (c : Char) : Bool := c == ' ' || c == '\t' || c == '\r' || c == '\n'

/-- The words of the rest of a command, the characters of the present word being given. -/
def scan : Mode → List Char → List Char → Except Fault (List (List Char))
  | .gap, _, [] => .ok []
  | .bare, word, [] => .ok [word]
  | .single, _, [] => .error .openQuote
  | .double, _, [] => .error .openQuote
  | .escaped, _, [] => .error .openEscape
  | .escapedInDouble, _, [] => .error .openEscape
  | .gap, _, c :: cs =>
    if isGap c then scan .gap [] cs
    else if c = '\\' then scan .escaped [] cs
    else if c = '\'' then scan .single [] cs
    else if c = '"' then scan .double [] cs
    else scan .bare [c] cs
  | .bare, word, c :: cs =>
    if isGap c then (scan .gap [] cs).map (word :: ·)
    else if c = '\\' then scan .escaped word cs
    else if c = '\'' then scan .single word cs
    else if c = '"' then scan .double word cs
    else scan .bare (word ++ [c]) cs
  | .single, word, c :: cs =>
    if c = '\'' then scan .bare word cs else scan .single (word ++ [c]) cs
  | .double, word, c :: cs =>
    if c = '"' then scan .bare word cs
    else if c = '\\' then scan .escapedInDouble word cs
    else scan .double (word ++ [c]) cs
  | .escaped, word, c :: cs => scan .bare (word ++ [c]) cs
  | .escapedInDouble, word, c :: cs =>
    if c = '"' ∨ c = '\\' then scan .double (word ++ [c]) cs
    else scan .double (word ++ ['\\', c]) cs

def split (s : String) : Except Fault (List String) :=
  (scan .gap [] s.toList).map (·.map String.ofList)

end ShellWord

end DeclBundle
