import DeclBundle.FileSystem.Access
import DeclBundle.Json.Reader
import DeclBundle.Options
import DeclBundle.Site
import DeclBundle.Text.Encoding
import DeclBundle.Text.Line

/-!
# Options files

Options may be kept in a file, in YAML if its extension says so and in JSON otherwise; YAML is read by the
reader of the site. Paths in it are relative to the directory of the file (`anchored`). Values given on
their own win over those of the file (`load`).
-/

namespace DeclBundle.Options

def fileNames : List String := [
  "dts-bundler.json", "dts-bundler.yaml", "dts-bundler.yml", ".dts-bundler.yml"
]

def pathKeys : List String := ["base_dir", "out", "project"]

def findFrom (cwd directory : String) (fs : FileSystem) :
    List String → Except FileSystem.Fault (Option String)
  | [] => .ok none
  | n :: ns => do
    let p := Path.tidyJoin directory n
    if ← fs.isTaken cwd p then pure (some p) else findFrom cwd directory fs ns

def findFile (cwd directory : String) (fs : FileSystem) :
    Except FileSystem.Fault (Option String) :=
  findFrom cwd directory fs fileNames

def isYaml (path : String) : Bool := [".yaml", ".yml"].contains (Path.extension path)

/-- The value of an options file in JSON, in which every line end counts as a line feed. -/
def parseJson (path : String) (bytes : ByteArray) : Except Failure Value :=
  match Text.decode? bytes with
  | none => .error .undecodable
  | some text =>
    match Json.read (String.ofList (Text.unifyLineEnds text.toList)) with
    | .ok v => .ok v
    | .error (.fault f) => .error (.configuration (.malformedOptions path f))
    | .error (.longNumber n) => .error (.badValue (.longNumber n))

/-- The value of an options file in YAML; one that does not count as given stands for an empty map. -/
def parseYaml (yaml : Yaml.Reader) (path : String) (bytes : ByteArray) : Except Failure Value :=
  match yaml.read path bytes with
  | .ok v => .ok (if v.isTruthy then v else .map [])
  | .error (.fault message) => .error (.configuration (.malformedYaml path message))
  | .error (.failure e) => .error e

def parse (yaml : Yaml.Reader) (path : String) (bytes : ByteArray) : Except Failure Value :=
  if isYaml path then parseYaml yaml path bytes else parseJson path bytes

def readValue (site : Site) (path : String) (fs : FileSystem) : Except Failure Value :=
  match fs.read site.cwd path with
  | .error f =>
    .error (if f.isRefusal then .configuration (.unreadableOptions path f) else .system f)
  | .ok bytes => parse site.yaml path bytes

/-- A record whose path under a key is seen from a directory, if it is relative. -/
def anchored (directory : String) (r : Record) (key : String) : Record :=
  match Record.get? r key with
  | some (.text p) =>
    if p.isEmpty || Path.isAbsolute p then r
    else Record.put r (.text key) (.text (Path.tidyJoin directory p))
  | _ => r

/-- The record of an options file in a directory, under the spellings that count. -/
def resolved (directory : String) (r : Record) : Record :=
  pathKeys.foldl (anchored directory)
    (Record.ofEntries (r.map fun e => (canonical e.1, e.2)))

def loadRecord (site : Site) (file : String) : Action Record := do
  let path := Path.tidy file
  let fs ← Action.files
  match ← Action.ofExcept (readValue site path fs) with
  | .map es =>
    let r := resolved (Path.parent path) es
    Action.note .info ("Loaded config from: " ++ path)
    pure r
  | _ => Action.fail (.configuration (.optionsNotMap path))

def overridden (r : Record) (overrides : Record) : Record :=
  (overrides.filter fun e => !isNull e.2).foldl (fun r e => Record.put r e.1 e.2) r

/-- The options of a file, if one is given, and of values that win over it. -/
def load (site : Site) (file : Option String) (overrides : Record) : Action Options := do
  let r ←
    match file with
    | some f => loadRecord site f
    | none => pure []
  let o ← ofRecord (overridden r overrides)
  Action.ofExcept o.validate

end DeclBundle.Options
