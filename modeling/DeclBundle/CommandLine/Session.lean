import DeclBundle.Bundle.Run
import DeclBundle.CommandLine.Arguments
import DeclBundle.CommandLine.Journal
import DeclBundle.CommandLine.Usage
import DeclBundle.Data.Display
import DeclBundle.Options.File
import DeclBundle.Progress

/-!
# Sessions

A call of the program from the command line. It reads its arguments, starts the journal, finds the options
file, bundles, and ends with a status: zero if all went well, one if the run failed in order, two if the
call was a misuse. A failure that is none of the program's own or of the system's is not caught and takes
the place of a status.
-/

namespace DeclBundle.CommandLine

/-- The times that a session writes down. -/
structure Clock where
  time : String
  elapsed : String

structure Outcome where
  files : FileSystem
  events : List Event
  output : String
  errors : String
  status : Except Failure Nat

namespace Session

/-- The options file that a call names, or else the one in the working directory. -/
def optionsFile (cwd : String) (a : Arguments) : Action (Option String) :=
  match (a.config.bind Given.value?).filter fun p => !p.isEmpty with
  | some p => pure (some p)
  | none => do
    let fs ← Action.files
    Action.ofExcept ((Options.findFile cwd cwd fs).mapError .system)

/-- Bundles with the options of a file and of a call. -/
def bundle (site : Site) (file : Option String) (overrides : Record) : Action Options := do
  let o ← Options.load site file overrides
  Action.note .debug ("Options: " ++ (Value.map o.toRecord).display)
  Action.tell (.progress Progress.compilingMessage)
  let b ← Action.ofExcept (Bundler.ofOptions site.cwd o)
  b.run site
  pure o

def progressOf (events : List Event) : Progress :=
  (events.filterMap fun e =>
    match e with
    | .progress message => some message
    | _ => none).foldl (fun p m => p.update m none) Progress.start

/-- What is said at the end of a run that went well. -/
def summary (p : Progress) (elapsed : String) : String :=
  s!"Bundled {p.processed} files ({p.excluded} excluded) in {elapsed}s"

/-- The kind of a failure that ends a run in order, and what is said of it. -/
def report? : Failure → Option (String × String)
  | .configuration p => some ("ConfigurationError", p.message)
  | .compilation _ ds => some ("CompilationError", Failure.compilationMessage ds)
  | .invocation command reason _ =>
    some ("CompilerInvocationError", Failure.invocationMessage command reason)
  | .system f =>
    if f.isRefusal then some (f.cause.name, Progress.failedMessage f.message) else none
  | _ => none

def work (site : Site) (file : Option String) (overrides : Record) (elapsed : String) :
    Action Nat := do
  let (o, told) ← Action.heard (bundle site file overrides)
  Action.tell (.progress (Progress.completedMessage o.out.display))
  Action.note .info (summary (progressOf told) elapsed)
  pure 0

def giveUp (e : Failure) : Action Nat :=
  match report? e with
  | none => Action.fail e
  | some (kind, message) => do
    Action.tell (.progress (Progress.failedMessage kind))
    Action.note .error message
    pure 1

/-- What a call does once the journal has started. -/
def body (site : Site) (a : Arguments) (elapsed : String) : Action Nat := do
  let overrides ← Action.ofExcept a.overrides
  let file ← optionsFile site.cwd a
  Action.recover (work site file overrides elapsed) giveUp

def ofArguments (site : Site) (clock : Clock) (a : Arguments) (fs : FileSystem) : Outcome :=
  let started := Journal.start site (a.logLevel.bind Given.value?) (a.logFile.bind Given.value?) fs
  match started.result with
  | .error e => ⟨started.files, started.events, "", "", .error e⟩
  | .ok j =>
    let done := body site a clock.elapsed started.files
    let events := started.events ++ done.events
    { files := j.keep site.cwd clock.time events done.files
      events
      output := ""
      errors := j.written Journal.shownForm clock.time events
      status := done.result }

def run (site : Site) (clock : Clock) (arguments : List String) (fs : FileSystem) : Outcome :=
  match Arguments.read arguments with
  | .ok a => ofArguments site clock a fs
  | .error .help => ⟨fs, [], Usage.help, "", .ok 0⟩
  | .error (.misuse m) => ⟨fs, [], "", Usage.complaint m, .ok 2⟩
  | .error .overlong => ⟨fs, [], "", "", .error .overlong⟩

end Session

end DeclBundle.CommandLine
