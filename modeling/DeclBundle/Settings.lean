import DeclBundle.Action
import DeclBundle.FileSystem.Access
import DeclBundle.Json.Comment
import DeclBundle.Json.Reader
import DeclBundle.Module.Extension
import DeclBundle.Text.Encoding
import DeclBundle.Text.Line

/-!
# Settings of the compiler

The settings of a project are in a file in its base directory, or in one that the options name. They are
JSON with comments and trailing commas. `Settings.resolve` merges them with what the options ask for: a
line end or a language level that is asked for wins over that of the file, declarations are always asked
for, options that make no sense with them are dropped, and the declaration files that the settings list
come before the requested files.

What stands in the file for a name is read by its text, which every value has here (`Value.display` and
`Value.shown`); the program has none for a whole number of more than `Text.digitLimit` digits, but `read` lets
no such number through.
-/

namespace DeclBundle

/-- What the compiler is asked to do. -/
structure Settings where
  files : List String
  options : Record
  eol : String
  source : Option String

namespace Settings

def defaultTarget : String := "esnext"

def defaultEol : String := "\n"

/-- The options that make no sense with declarations. -/
def ignored : List String := ["watch", "diagnostics", "noEmit"]

def eolName (eol : String) : String := if eol = "\r\n" then "crlf" else "lf"

def eolOf (name : Value) : String :=
  if name.display.toList.map Char.toLower = "crlf".toList then "\r\n" else "\n"

/-- The line end that a newline option stands for, if it is given. -/
def eolOfOption? (options : Record) : Option String :=
  match options.get? "newLine" with
  | some v => if v.isTruthy then some (eolOf v) else none
  | none => none

def requestedEol? (eol : Option String) : Option String := eol.filter fun e => !e.isEmpty

def defaults (eol : String) (target : Value) : Record := [
  (.text "declaration", .bool true),
  (.text "module", .text "commonjs"),
  (.text "newLine", .text (eolName eol)),
  (.text "target", if target.isTruthy then target else .text defaultTarget)
]

/-- The options of a settings file together with what is asked for, and the line end. -/
def merge (options : Record) (eol : Option String) (target : Value) : Record × String :=
  let merged := Record.put options (.text "declaration") (.bool true)
  let (merged, lineEnd) :=
    match requestedEol? eol with
    | some e => (Record.put merged (.text "newLine") (.text (eolName e)), e)
    | none => (merged, (eolOfOption? merged).getD defaultEol)
  let merged := if target.isTruthy then Record.put merged (.text "target") target else merged
  (Record.without merged fun k => ignored.any fun i => k.isSameKey (.text i), lineEnd)

def itemsOf (v : Value) : Except Failure (List Value) :=
  match v with
  | .list xs => .ok xs
  | .map es => .ok (Record.keys es)
  | .text s => .ok (s.toList.map fun c => .text (String.singleton c))
  | .other x => x.items?.elim (.error .wrongKind) .ok
  | _ => .error .wrongKind

/-- The value under a key, unless it does not count as given. -/
def given? (options : Record) (key : String) : Option Value :=
  (options.get? key).filter Value.isTruthy

/-- The declaration files among listed ones, seen from the base directory. -/
def declarationFiles (baseDir : String) (listed : List Value) : List String :=
  listed.filterMap fun v =>
    match v with
    | .text s =>
      if Module.isDeclaration s then some (Path.normalize (Path.join baseDir s)) else none
    | _ => none

def listedFiles (baseDir : String) (config : Record) : Except Failure (List String) :=
  match given? config "files" with
  | none => .ok []
  | some v => (itemsOf v).map (declarationFiles baseDir)

def optionsOf (path : String) (config : Record) : Except Failure Record :=
  match given? config "compilerOptions" with
  | none => .ok []
  | some (.map es) => .ok es
  | some _ => .error (.configuration (.compilerOptionsNotMap path))

def parse (path text : String) : Except Failure Record :=
  let cleaned := Json.withoutTrailingCommas (Json.withoutComments text)
  match Json.read cleaned with
  | .ok (.map es) => .ok es
  | .ok _ => .error (.configuration (.settingsNotMap path))
  | .error (.fault f) => .error (.configuration (.malformedSettings path f))
  | .error (.longNumber n) => .error (.badValue (.longNumber n))

/-- The text of bytes in which every line end counts as a line feed. -/
def textOf? (bytes : ByteArray) : Option String :=
  (Text.decodeMarked? bytes).map fun s => String.ofList (Text.unifyLineEnds s.toList)

def read (cwd path : String) (fs : FileSystem) : Except Failure Record :=
  match fs.read cwd path with
  | .error f =>
    .error (if f.isRefusal then .configuration (.unreadableSettings path f) else .system f)
  | .ok bytes =>
    match textOf? bytes with
    | none => .error .undecodable
    | some text => parse path text

/-- The path of the settings file, before it is seen from the base directory. -/
def named (baseDir : String) (project : Value) : Except Failure String :=
  if project.isTruthy then
    match project with
    | .text p => .ok p
    | _ => .error .wrongKind
  else .ok (Path.tidyJoin baseDir "tsconfig.json")

/-- The path of the settings file; a relative one is seen from the base directory. -/
def locate (baseDir : String) (project : Value) : Except Failure String :=
  (named baseDir project).map (Path.tidyJoin baseDir)

def resolveFrom (cwd path baseDir : String) (files : List String) (eol : Option String)
    (target : Value) : Action Settings := do
  Action.note .info ("Loading compiler options from " ++ path)
  let fs ← Action.files
  let config ← Action.ofExcept (read cwd path fs)
  let options ← Action.ofExcept (optionsOf path config)
  let (merged, lineEnd) := merge options eol target
  let listed ← Action.ofExcept (listedFiles baseDir config)
  if !listed.isEmpty then
    Action.note .info
      s!"Found {listed.length} declaration files in {String.ofList (Path.lastStep path)}"
  pure ⟨listed ++ files, merged, lineEnd, some path⟩

def resolve (cwd baseDir : String) (files : List String) (eol : Option String)
    (target project : Value) : Action Settings := do
  let lineEnd := (requestedEol? eol).getD defaultEol
  let path ← Action.ofExcept (locate baseDir project)
  let fs ← Action.files
  let found ← Action.ofExcept ((fs.isTaken cwd path).mapError .system)
  if found then resolveFrom cwd path baseDir files eol target
  else if project.isTruthy then Action.fail (.configuration (.noSettings path))
  else
    Action.note .debug ("No tsconfig.json found at " ++ path)
    pure ⟨files, defaults lineEnd target, lineEnd, none⟩

end Settings

end DeclBundle
