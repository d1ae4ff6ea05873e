import DeclBundle.Failure
import DeclBundle.Path.Normal
import DeclBundle.Text.Blank
import DeclBundle.Text.Line

/-!
# Reports of the compiler

The compiler lists its files and says what it has found, line by line. A line is the beginning of a
diagnostic at a place of a file, `file(line,column): category TScode: message`, or of one about the program
as a whole, which has no place; or it is an absolute path and lists a file; or it is of no interest. An
indented line goes on with the last diagnostic, and a blank line says nothing. `Report.read` collects the
lines of a text in order and stops at a number that is too long.
-/

namespace DeclBundle

/-- A diagnostic as it is written, its numbers being rows of digits. -/
structure Heading where
  category : Category
  code : List Char
  message : List Char

structure Position where
  line : List Char
  column : List Char

namespace Heading

def categories : List (List Char × Category) := [
  ("error".toList, .error), ("warning".toList, .warning), ("message".toList, .message)
]

def category? (s : List Char) : Option (Category × List Char) :=
  categories.findSome? fun w => (Text.after? w.1 s).map fun rest => (w.2, rest)

def digits? (s : List Char) : Option (List Char × List Char) :=
  let ds := s.takeWhile Text.isDecimalDigit
  if ds.isEmpty then none else some (ds, s.dropWhile Text.isDecimalDigit)

def ofChars? (s : List Char) : Option Heading := do
  let (category, rest) ← category? s
  let rest ← Text.after? " TS".toList rest
  let (code, rest) ← digits? rest
  let message ← Text.after? ": ".toList rest
  pure ⟨category, code, message⟩

end Heading

namespace Position

/-- The place and the diagnostic that a text writes behind the name of a file. -/
def ofChars? (s : List Char) : Option (Position × Heading) := do
  let rest ← Text.after? "(".toList s
  let (line, rest) ← Heading.digits? rest
  let rest ← Text.after? ",".toList rest
  let (column, rest) ← Heading.digits? rest
  let rest ← Text.after? "): ".toList rest
  let heading ← Heading.ofChars? rest
  pure (⟨line, column⟩, heading)

end Position

inductive ReportLine where
  | blank
  | more (text : List Char)
  | located (file : List Char) (position : Position) (heading : Heading)
  | general (heading : Heading)
  | file (path : List Char)
  | noise (text : List Char)

namespace ReportLine

/-- The shortest name of a file that a place and a diagnostic follow. -/
def located? : List Char → Option (List Char × Position × Heading)
  | [] => none
  | c :: cs =>
    match Position.ofChars? cs with
    | some (position, heading) => some ([c], position, heading)
    | none => (located? cs).map fun r => (c :: r.1, r.2)

def isAbsolute (s : List Char) : Bool :=
  match s with
  | '/' :: _ => true
  | _ => false

def ofChars (s : List Char) : ReportLine :=
  match s with
  | [] => .blank
  | c :: _ =>
    if (Text.trim s).isEmpty then .blank
    else if Text.isBlank c then .more (Text.trimRight s)
    else
      match located? s, Heading.ofChars? s with
      | some (path, position, heading), _ => .located path position heading
      | none, some heading => .general heading
      | none, none => if isAbsolute (Text.trim s) then .file (Text.trim s) else .noise s

end ReportLine

structure Report where
  files : List String
  diagnostics : List Diagnostic
  ignored : List String
deriving DecidableEq

namespace Report

def empty : Report := ⟨[], [], []⟩

def number (digits : List Char) : Except BadValue Nat :=
  if Text.digitLimit < digits.length then .error (.longNumber digits.length)
  else .ok (Text.naturalOf digits)

def extendLast (text : List Char) : List Diagnostic → List Diagnostic
  | [] => []
  | [d] => [{ d with message := d.message ++ String.ofList ('\n' :: text) }]
  | d :: e :: ds => d :: extendLast text (e :: ds)

def addDiagnostic (r : Report) (d : Diagnostic) : Report :=
  { r with diagnostics := r.diagnostics ++ [d] }

def add (cwd : String) (r : Report) : ReportLine → Except BadValue Report
  | .blank => .ok r
  | .more text => .ok { r with diagnostics := extendLast text r.diagnostics }
  | .located file position heading => do
    let line ← number position.line
    let column ← number position.column
    let code ← number heading.code
    let file := Path.absolute cwd (String.ofList file)
    pure (r.addDiagnostic
      ⟨some file, line, column, code, String.ofList heading.message, heading.category⟩)
  | .general heading => do
    let code ← number heading.code
    pure (r.addDiagnostic ⟨none, 0, 0, code, String.ofList heading.message, heading.category⟩)
  | .file path => .ok { r with files := r.files ++ [Path.normalize (String.ofList path)] }
  | .noise text => .ok { r with ignored := r.ignored ++ [String.ofList text] }

def addAll (cwd : String) : Report → List (List Char) → Report × Option BadValue
  | r, [] => (r, none)
  | r, l :: ls =>
    match r.add cwd (ReportLine.ofChars l) with
    | .ok r => addAll cwd r ls
    | .error e => (r, some e)

/-- What a text says, paths being seen from a directory. -/
def read (cwd text : String) : Report × Option BadValue :=
  addAll cwd empty (Text.lines text.toList)

end Report

end DeclBundle
