import DeclBundle.CommandLine.Session
import DeclBundle.FileSystem.Access
import DeclBundle.Yaml.Node

/-!
# Snapshots

A snapshot is a value that holds everything a session depends on besides its arguments: the directories
and the variables, the files, what the compiler answers, the trees of texts, and the times. What a
snapshot does not mention is empty or as usual. `changes` are the files that a session wrote.
-/

namespace DeclBundle.CommandLine

namespace Snapshot

def member (v : Value) (key : String) : Value :=
  match v with
  | .map es => (Record.get? es key).getD .null
  | _ => .null

def textOr (other : String) (v : Value) (key : String) : String := ((member v key).text?).getD other

def intOf : Value → Int
  | .int n => n
  | _ => 0

/-- The members of a map whose keys are texts. -/
def members : Value → List (String × Value)
  | .map es => es.filterMap fun e => e.1.text?.map fun k => (k, e.2)
  | _ => []

def items : Value → List Value
  | .list xs => xs
  | _ => []

mutual

/-- The tree that a value writes: the rule, whether it is one, two offsets, the role and the children. -/
def treeOf : Value → Cst
  | .list [.text type, named, start, stop, field, .list children] =>
    ⟨⟨type, named.isTruthy, field.text?⟩, (intOf start).toNat, (intOf stop).toNat, treesOf children⟩
  | _ => ⟨⟨"", false, none⟩, 0, 0, []⟩

def treesOf : List Value → List Cst
  | [] => []
  | v :: vs => treeOf v :: treesOf vs

end

/-- The content that a value writes; nothing stands for a directory. -/
def contentOf (v : Value) : Option ByteArray := v.text?.map Text.encode

def outcomeOf (v : Value) : CallOutcome :=
  if (member v "timedOut").isTruthy then .timedOut
  else
    match member v "refused" with
    | .map es => .refused (intOf (member (.map es) "code")) (textOr "" (.map es) "text")
    | _ =>
      .finished (textOr "" v "output") (textOr "" v "errors") (intOf (member v "status"))
        ((members (member v "declarations")).map fun m => (m.1, contentOf m.2))

def treeTable (v : Value) : List (String × SyntaxTree) :=
  (items (member v "trees")).map fun t =>
    (textOr "" t "text", ⟨treeOf (member t "tree"), (member t "hasErrors").isTruthy⟩)

def bareTree (text : String) : SyntaxTree :=
  ⟨⟨⟨"program", true, none⟩, 0, text.utf8ByteSize, []⟩, false⟩

def siteOf (v : Value) : Site :=
  let trees := treeTable v
  let outcome := outcomeOf (member v "compiler")
  { cwd := textOr "/" v "directory"
    temporary := textOr "/tmp" v "temporary"
    tokens := ⟨textOr "run" v "directoryToken", textOr "run" v "configurationToken"⟩
    environment := (members (member v "variables")).map fun m => (m.1, (m.2.text?).getD "")
    installed := (member v "installed").text?
    answer := fun _ => outcome
    tree := fun text => (trees.lookup text).getD (bareTree text)
    yaml := Yaml.simpleReader }

def clockOf (v : Value) : Clock :=
  ⟨textOr "1970-01-01 00:00:00" v "time", textOr "0.00" v "elapsed"⟩

def placeIn (site : Site) (path : String) : Place :=
  FileSystem.placeOf (Path.absolute site.cwd path)

def filesOf (site : Site) (v : Value) : FileSystem :=
  let bare := (FileSystem.empty.plant (placeIn site site.cwd) .directory).plant
    (placeIn site site.temporary) .directory
  (members (member v "files")).foldl (fun fs m =>
    fs.plant (placeIn site m.1) ((contentOf m.2).elim .directory .file)) bare

def changes (before after : FileSystem) : List (String × ByteArray) :=
  after.entries.filterMap fun e =>
    match e.2 with
    | .file content =>
      if before.get? e.1 = some e.2 then none else some ("/" ++ "/".intercalate e.1, content)
    | .directory => none

/-- The session of a snapshot and the files that it wrote. -/
def run (v : Value) (arguments : List String) : Outcome × List (String × ByteArray) :=
  let site := siteOf v
  let before := filesOf site v
  let outcome := Session.run site (clockOf v) arguments before
  (outcome, changes before outcome.files)

end Snapshot

end DeclBundle.CommandLine
