import DeclBundle.CommandLine.Given
import DeclBundle.CommandLine.Word
import DeclBundle.Decimal.Literal
import DeclBundle.Failure

/-!
# Arguments of a call

The words of the command line are taken from left to right. A switch takes the value attached to it or
the plain word behind it, and is left blank by an attached marker, which is taken away (later releases of
argument parsers keep it for the value); the last value of a switch counts, but for those that gather their
values.
The entry files are the first row of plain words that stand together: later ones are left over, as are
words for which there is no use. What is left over is complained of only at the end, so that help and
bad values before it win.
-/

namespace DeclBundle.CommandLine

structure Arguments where
  files : List String
  config : Option (Given String)
  name : Option (Given String)
  baseDir : Option (Given String)
  out : Option (Given String)
  main : Option (Given String)
  excludes : Option (List (Given String))
  references : Option (List (Given String))
  eol : Option (Given String)
  indent : Option (Given String)
  target : Option (Given String)
  tsc : Option (Given String)
  timeout : Option (Given Float)
  project : Option (Given String)
  logLevel : Option (Given String)
  logFile : Option (Given String)

inductive Ending where
  | help
  | misuse (m : Misuse)
  | overlong

namespace Arguments

def none : Arguments :=
  ⟨[], .none, .none, .none, .none, .none, .none, .none, .none, .none, .none, .none, .none, .none, .none,
    .none⟩

/-- The names of line ends, each with the text that it stands for. -/
def lineEnds : List (String × String) := [("crlf", "\r\n"), ("lf", "\n")]

def lengthLimit : Nat := Nat.pow 2 63

/-- The unit of indentation that a value stands for: a number of blanks, a tab, or itself. -/
def indentOf (value : String) : Except Ending String :=
  let s := value.toList
  if !s.isEmpty && s.all Text.isDigitForm then
    if s.all Text.isDecimalDigit && s.length ≤ Text.digitLimit then
      let n := Text.naturalOf s
      if n < lengthLimit then .ok (String.ofList (List.replicate n ' ')) else .error .overlong
    else .error (.misuse (.badIndent value))
  else .ok (if value = "tab" then "\t" else value)

def timeoutOf (value : String) : Except Ending Float :=
  match Decimal.floatOf? value with
  | some x => .ok x
  | .none => .error (.misuse (.badTimeout value))

def eolOf (value : String) : Except Ending String :=
  if lineEnds.any fun e => e.1 == value then .ok value else .error (.misuse (.badEol value))

def gather (values : Option (List (Given String))) (value : Given String) :
    Option (List (Given String)) :=
  some (values.getD [] ++ [value])

def give (a : Arguments) (value : Given String) : Switch → Except Ending Arguments
  | .help => .error .help
  | .config => .ok { a with config := some value }
  | .name => .ok { a with name := some value }
  | .baseDir => .ok { a with baseDir := some value }
  | .out => .ok { a with out := some value }
  | .main => .ok { a with main := some value }
  | .exclude => .ok { a with excludes := gather a.excludes value }
  | .reference => .ok { a with references := gather a.references value }
  | .eol => (value.read eolOf).map fun v => { a with eol := some v }
  | .indent => (value.read indentOf).map fun v => { a with indent := some v }
  | .target => .ok { a with target := some value }
  | .tsc => .ok { a with tsc := some value }
  | .timeout => (value.read timeoutOf).map fun v => { a with timeout := some v }
  | .project => .ok { a with project := some value }
  | .logLevel => .ok { a with logLevel := some value }
  | .logFile => .ok { a with logFile := some value }

/-- How a call for help ends whose letter is followed by others: they must be letters of switches too, up
to one that takes a value. The flag says that a plain word stands behind. -/
def helpEnding (followed : Bool) : List Char → Ending
  | [] => .help
  | c :: cs =>
    match Switch.ofLetter? c, cs with
    | .none, cs => .misuse (.strayValue .help (String.ofList (c :: cs)))
    | some .help, cs => helpEnding followed cs
    | some s, [] => if followed then .help else .misuse (.noValue s)
    | some _, _ :: _ => .help

def helpEndingOf (followed : Bool) : Option Attached → Ending
  | .none => .help
  | some (.marked v) => .misuse (.strayValue .help v)
  | some (.joined []) => .misuse (.strayValue .help "")
  | some (.joined (c :: cs)) => helpEnding followed (c :: cs)

def attachedText : Attached → String
  | .marked v => v
  | .joined cs => String.ofList cs

/-- What a switch is given by an attached value: the marker gives nothing. -/
def ofAttached (v : Attached) : Given String :=
  if attachedText v = Word.markerText then .blank else .value (attachedText v)

end Arguments

/-- The entry files among the words that were taken. -/
inductive Entries where
  | awaited
  /-- Those that stand together, of which there may be more. -/
  | gathering (files : List String)
  | complete (files : List String)

namespace Entries

def files : Entries → List String
  | awaited => []
  | gathering fs => fs
  | complete fs => fs

def closed : Entries → Entries
  | gathering fs => complete fs
  | e => e

end Entries

/-- What has been taken from the words of the command line. -/
structure Intake where
  arguments : Arguments
  entries : Entries
  left : List String

namespace Intake

def start : Intake := ⟨.none, .awaited, []⟩

def leave (t : Intake) (text : String) : Intake :=
  { t with entries := t.entries.closed, left := t.left ++ [text] }

def plain (t : Intake) (text : String) : Intake :=
  match t.entries with
  | .awaited => { t with entries := .gathering [text] }
  | .gathering fs => { t with entries := .gathering (fs ++ [text]) }
  | .complete _ => { t with left := t.left ++ [text] }

/-- The marker, which belongs to the entry files if they stand around it. -/
def marker (t : Intake) : Intake :=
  match t.entries with
  | .awaited => { t with entries := .gathering [] }
  | .gathering _ => t
  | .complete _ => { t with left := t.left ++ [Word.markerText] }

def give (t : Intake) (s : Switch) (value : Given String) : Except Ending Intake :=
  (t.arguments.give value s).map fun a => { t with arguments := a, entries := t.entries.closed }

def take (t : Intake) : List Word → Except Ending Intake
  | [] => .ok t
  | .plain text :: ws => (t.plain text).take ws
  | .marker :: ws => t.marker.take ws
  | .unknown text :: ws => (t.leave text).take ws
  | .switch .help v :: .plain _ :: _ => .error (Arguments.helpEndingOf true v)
  | .switch .help v :: _ => .error (Arguments.helpEndingOf false v)
  | .switch s (some v) :: ws => (t.give s (Arguments.ofAttached v)).bind fun t => t.take ws
  | .switch s none :: .plain text :: ws => (t.give s (.value text)).bind fun t => t.take ws
  | .switch s none :: _ => .error (.misuse (.noValue s))

end Intake

namespace Arguments

def ofWords (ws : List Word) : Except Ending Arguments :=
  match Intake.start.take ws with
  | .error e => .error e
  | .ok t =>
    match t.left with
    | [] => .ok { t.arguments with files := t.entries.files }
    | left => .error (.misuse (.unrecognized left))

/-- The values that the arguments of a call give. -/
def read (arguments : List String) : Except Ending Arguments :=
  match Word.ofArguments arguments with
  | .error m => .error (.misuse m)
  | .ok ws => ofWords ws

/-- The text that a name of a line end stands for. Nothing is no name, and there is no line end to look
for under it. -/
def lineEndOf : Option (Given String) → Except Failure Value
  | .none => .ok .null
  | some .blank => .error .wrongKind
  | some (.value name) => .ok ((lineEnds.lookup name).elim .null .text)

/-- The option values that a call gives; absent ones stand for none. -/
def overrides (a : Arguments) : Except Failure Record :=
  let text (v : Option (Given String)) : Value := v.elim .null (Given.toValue .text)
  let list (v : Option (List (Given String))) : Value :=
    v.elim .null fun xs => .list (xs.map (Given.toValue .text))
  let files : Value := if a.files.isEmpty then .null else .list (a.files.map .text)
  (lineEndOf a.eol).map fun eol => [
    (.text "base_dir", text a.baseDir), (.text "name", text a.name), (.text "out", text a.out),
    (.text "main", text a.main), (.text "files", files), (.text "excludes", list a.excludes),
    (.text "externs", list a.references), (.text "eol", eol), (.text "indent", text a.indent),
    (.text "target", text a.target), (.text "tsc", text a.tsc),
    (.text "timeout", a.timeout.elim .null (Given.toValue .float)), (.text "project", text a.project)
  ]

end Arguments

end DeclBundle.CommandLine
