import DeclBundle.FileSystem.Directories
import DeclBundle.Site
import DeclBundle.Text.Encoding
import DeclBundle.Text.UpperCase

/-!
# The journal

Entries of at least a given rank are shown, and kept in a file if one is given. A message on the progress
is an entry too. The level is asked for by a name, in whatever case; a name that no level has stands for
the usual one, but for two words that mean something else and are no levels. The file is made when the
journal starts, with the directories above it, and entries are put behind what it holds.
-/

namespace DeclBundle.CommandLine

inductive EntryField where
  | time
  | name
  | level
  | message
deriving DecidableEq, Repr

namespace EntryField

/-- The key of a field in the text of a form. -/
def key : EntryField → String
  | time => "asctime"
  | name => "name"
  | level => "levelname"
  | message => "message"

end EntryField

/-- How entries are written: fields, each with the text behind it. -/
abbrev EntryForm := List (EntryField × String)

namespace EntryForm

def text (f : EntryForm) : String := String.join (f.map fun e => s!"%({e.1.key})s" ++ e.2)

def fill (f : EntryForm) (value : EntryField → String) : String :=
  String.join (f.map fun e => value e.1 ++ e.2)

end EntryForm

structure Journal where
  name : String
  rank : Nat
  file : Option String
deriving DecidableEq, Repr

namespace Journal

def shownForm : EntryForm := [(.level, ": "), (.message, "")]

def keptForm : EntryForm := [(.time, " - "), (.name, " - "), (.level, " - "), (.message, "")]

def plainForm : EntryForm := [(.level, ":"), (.name, ":"), (.message, "")]

def timeForm : String := "%Y-%m-%d %H:%M:%S"

def author : String := "root"

def ranks : List (String × Nat) := [
  ("CRITICAL", 50), ("FATAL", 50), ("ERROR", 40), ("WARNING", 30), ("WARN", 30), ("INFO", 20),
  ("DEBUG", 10), ("NOTSET", 0)
]

/-- Names of what is no level: the plainest form of entries, and the collection of styles of forms. -/
def reserved : List (String × Failure) := [
  ("BASIC_FORMAT", .badValue (.level plainForm.text)), ("_STYLES", .wrongKind)
]

def rankOf (name : String) : Except Failure Nat :=
  match ranks.lookup name, reserved.lookup name with
  | some n, _ => .ok n
  | none, some e => .error e
  | none, none => .ok Level.info.rank

/-- The name that is asked for, by the call or else by the environment. -/
def nameOf (site : Site) (asked : Option String) : String :=
  let name := (asked.filter fun s => !s.isEmpty).getD ((site.valueOf? "LOG_LEVEL").getD "INFO")
  String.ofList (Text.upper name.toList)

def makeFile (cwd path : String) : Action String := do
  Action.makeParents cwd path
  let file := Path.absolute cwd path
  Action.change fun fs => fs.append cwd file ByteArray.empty
  pure file

def start (site : Site) (level path : Option String) : Action Journal := do
  let name := nameOf site level
  let rank ← Action.ofExcept (rankOf name)
  let file ←
    match path.filter fun p => !p.isEmpty with
    | some p => some <$> makeFile site.cwd p
    | none => pure none
  Action.note .debug ("Logging configured with level: " ++ name)
  pure ⟨name, rank, file⟩

def entry? : Event → Option (Level × String)
  | .entry level message => some (level, message)
  | .progress message => some (.info, message)
  | .excluded _ => none
  | .call _ => none

/-- The entries that events make and the journal takes, in order. -/
def entries (j : Journal) (events : List Event) : List (Level × String) :=
  (events.filterMap entry?).filter fun e => j.rank ≤ e.1.rank

/-- The entries that events make, written in a form, each with the end of a line. -/
def written (j : Journal) (f : EntryForm) (time : String) (events : List Event) : String :=
  String.join ((j.entries events).map fun e =>
    f.fill (fun
      | .time => time
      | .name => author
      | .level => e.1.name
      | .message => e.2) ++ "\n")

/-- The files after events have been entered. -/
def keep (j : Journal) (cwd time : String) (events : List Event) (fs : FileSystem) : FileSystem :=
  match j.file with
  | none => fs
  | some file =>
    match fs.append cwd file (Text.encode (j.written keptForm time events)) with
    | .ok fs => fs
    | .error _ => fs

end Journal

end DeclBundle.CommandLine
