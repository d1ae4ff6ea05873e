import DeclBundle.Action

/-!
# Options

What a bundle is made of and how. Options come as a record whose keys may be spelt in more than one way
(`canonical`); keys that are no option are passed over. `ofRecord` takes the values as they are, but makes
lists of what stands for files, and puts in the tab where no unit of indentation is given; `problem?` is
the first thing that is wrong with them.

What is wrong, and which keys are passed over, is said with the text of a value, which every value has here
(`Value.shown`). The program has none for a whole number of more than `Text.digitLimit` digits, which comes of
no document in JSON, and fails in place of saying so.
-/

namespace DeclBundle

/-- Options, their values as they were given. -/
structure Options where
  baseDir : Value
  name : Value
  out : Value
  files : List Value
  excludes : List Value
  externs : List Value
  eol : Value
  indent : Value
  main : Value
  target : Value
  tsc : Value
  project : Value
  timeout : Value

namespace Options

def keys : List String := [
  "base_dir", "name", "out", "files", "excludes", "externs", "eol", "indent", "main", "target", "tsc",
  "project", "timeout"
]

def aliases : List (String × String) := [
  ("baseDir", "base_dir"), ("exclude", "excludes"), ("extern", "externs")
]

def canonical : Value → Value
  | .text s => .text ((aliases.lookup s).getD s)
  | k => k

def isKey : Value → Bool
  | .text s => keys.contains s
  | _ => false

def unknownKeys (r : Record) : List Value :=
  ((Record.keys r).map canonical).filter fun k => !isKey k

/-- The options in a record under the spellings that count; of two values for one of them the later
counts. -/
def normalized (r : Record) : Record :=
  Record.ofEntries ((r.map fun e => (canonical e.1, e.2)).filter fun e => isKey e.1)

def listOf : Value → Except Failure (List Value)
  | .null => .ok []
  | .text s => .ok [.text s]
  | .list xs => .ok xs
  | .map es => .ok (Record.keys es)
  | .other x => x.items?.elim (.error .wrongKind) .ok
  | _ => .error .wrongKind

def defaultIndent : Value := .text "\t"

def valueOf (r : Record) (key : String) : Value := (Record.get? r key).getD .null

def requiredOf (r : Record) (key : String) : Value := (Record.get? r key).getD (.text "")

/-- The options of a record under the spellings that count. -/
def ofNormalized (r : Record) : Except Failure Options := do
  let files ← listOf (valueOf r "files")
  let excludes ← listOf (valueOf r "excludes")
  let externs ← listOf (valueOf r "externs")
  let indent :=
    match valueOf r "indent" with
    | .null => defaultIndent
    | v => v
  pure {
    baseDir := requiredOf r "base_dir"
    name := requiredOf r "name"
    out := requiredOf r "out"
    files, excludes, externs
    eol := valueOf r "eol"
    indent
    main := valueOf r "main"
    target := valueOf r "target"
    tsc := valueOf r "tsc"
    project := valueOf r "project"
    timeout := valueOf r "timeout" }

def ofRecord (r : Record) : Action Options := do
  (unknownKeys r).forM fun k =>
    Action.note .debug ("Ignoring unknown option '" ++ k.display ++ "'")
  Action.ofExcept (ofNormalized (normalized r))

def ofValue : Value → Action Options
  | .map es => ofRecord es
  | _ => Action.fail .noSuchMember

def toRecord (o : Options) : Record := [
  (.text "base_dir", o.baseDir), (.text "name", o.name), (.text "out", o.out),
  (.text "files", .list o.files), (.text "excludes", .list o.excludes),
  (.text "externs", .list o.externs), (.text "eol", o.eol), (.text "indent", o.indent),
  (.text "main", o.main), (.text "target", o.target), (.text "tsc", o.tsc),
  (.text "project", o.project), (.text "timeout", o.timeout)
]

def isEol : Value → Bool
  | .text s => s == "\n" || s == "\r\n"
  | _ => false

/-- Whether a value is a time that is not over at once; a truth value counts as one or zero. -/
def isTime : Value → Bool
  | .int n => 0 < n
  | .bool b => b
  | .float x => !(x ≤ 0)
  | _ => false

def isNull : Value → Bool
  | .null => true
  | _ => false

/-- The first thing that is wrong with options. -/
def problem? (o : Options) : Option Problem :=
  let required := [("base_dir", o.baseDir), ("name", o.name), ("out", o.out)]
  let lists := [("files", o.files), ("excludes", o.excludes), ("externs", o.externs)]
  match required.find? fun e => !e.2.isTruthy with
  | some e => some (.missingOption e.1)
  | none =>
    match lists.find? fun e => !e.2.all fun v => v.text?.isSome with
    | some e => some (.notTexts e.1)
    | none =>
      if !isNull o.eol && !isEol o.eol then some (.badEol o.eol)
      else if !isNull o.timeout && !isTime o.timeout then some (.badTimeout o.timeout)
      else none

/-- The options, unless something is wrong with them. -/
def validate (o : Options) : Except Failure Options :=
  match o.problem? with
  | some p => .error (.configuration p)
  | none => .ok o

def texts (vs : List Value) : List String := vs.filterMap Value.text?

end Options

end DeclBundle
