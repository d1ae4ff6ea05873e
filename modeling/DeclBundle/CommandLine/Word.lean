import DeclBundle.CommandLine.Misuse
import DeclBundle.Text.Digit

/-!
# Words of the command line

Each argument is looked at on its own. It is a switch if it has the spelling of one, or a beginning that
only one has; a value may be attached to it. A dash also begins negative numbers and texts with a blank,
which are plain, and otherwise an argument for which there is no use. Behind the marker `--` every
argument is plain.
-/

namespace DeclBundle.CommandLine

/-- A value in the same argument as a switch. -/
inductive Attached where
  /-- It stands behind the sign of equality that follows a word. -/
  | marked (value : String)
  /-- It follows the letter of the switch, or a sign of equality behind that letter. -/
  | joined (value : List Char)
deriving DecidableEq, Repr

inductive Word where
  | plain (text : String)
  | switch (s : Switch) (value : Option Attached)
  | unknown (text : String)
  | marker
deriving DecidableEq, Repr

namespace Word

def markerText : String := "--"

/-- Whether the characters behind a dash write a negative number. A line feed at the end does not
count. -/
def isNumber (s : List Char) : Bool :=
  let s := if s.getLast? = some '\n' then s.dropLast else s
  match s.dropWhile Text.isDecimalDigit with
  | [] => !s.isEmpty
  | '.' :: fraction => !fraction.isEmpty && fraction.all Text.isDecimalDigit
  | _ => false

/-- The part of an argument before the first sign of equality, and the part behind it. -/
def splitValue (argument : List Char) : String × Option String :=
  let before := argument.takeWhile (· != '=')
  let value :=
    match argument.dropWhile (· != '=') with
    | [] => none
    | _ :: cs => some (String.ofList cs)
  (String.ofList before, value)

/-- What an argument with a dash is that has no part of a spelling. -/
def ofUnspelt (argument : String) (behind : List Char) : Word :=
  if isNumber behind || behind.contains ' ' then plain argument else unknown argument

/-- A value behind a sign of equality, attached to a switch by a word or, unless the second character of
the argument is a dash, by its letter. -/
def attach (second : Char) (value : String) : Attached :=
  if second = '-' then .marked value else .joined value.toList

/-- What an argument is that begins with a dash and is longer than that. -/
def ofDashed (argument : String) (c : Char) (cs : List Char) : Except Misuse Word :=
  let (before, value) := splitValue argument.toList
  match Switch.ofSpelling? argument, value, Switch.ofSpelling? before with
  | some s, _, _ => .ok (switch s none)
  | none, some v, some s => .ok (switch s (some (attach c v)))
  | none, _, _ =>
    if c = '-' then
      match Switch.beginningWith before with
      | [] => .ok (ofUnspelt argument (c :: cs))
      | [e] => .ok (switch e.2 (value.map .marked))
      | es => .error (.ambiguous argument (es.map Prod.fst))
    else
      match Switch.ofLetter? c with
      | some s => .ok (switch s (some (.joined cs)))
      | none => .ok (ofUnspelt argument (c :: cs))

def ofArgument (argument : String) : Except Misuse Word :=
  match argument.toList with
  | '-' :: c :: cs => ofDashed argument c cs
  | _ => .ok (plain argument)

def ofArguments : List String → Except Misuse (List Word)
  | [] => .ok []
  | a :: as =>
    if a = markerText then .ok (marker :: as.map plain)
    else do
      let w ← ofArgument a
      let ws ← ofArguments as
      pure (w :: ws)

end Word

end DeclBundle.CommandLine
