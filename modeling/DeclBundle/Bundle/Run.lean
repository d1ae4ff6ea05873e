import DeclBundle.Bundle.Assembly
import DeclBundle.Compiler.Run
import DeclBundle.FileSystem.Directories
import DeclBundle.Options
import DeclBundle.Settings

/-!
# Runs

A bundler has options that were found in order and an absolute base directory (`ofOptions`). A run finds
the entry files and the settings, has the compiler make a program of them, and writes the bundle of that
program to the output file. The file is emptied before the bundle is assembled and holds what was assembled
when the run ends, whether it failed or not.
-/

namespace DeclBundle

structure Bundler where
  options : Options
  baseDir : String

namespace Bundler

def ofOptions (cwd : String) (o : Options) : Except Failure Bundler := do
  let o ← o.validate
  match o.baseDir with
  | .text dir => pure ⟨o, Path.absolute cwd dir⟩
  | _ => throw .wrongKind

def assembly (b : Bundler) (site : Site) (eol : String) : Assembly :=
  { cwd := site.cwd
    baseDir := b.baseDir
    name := b.options.name.display
    eol
    indent := b.options.indent.text?
    excludes := Options.texts b.options.excludes
    externs := Options.texts b.options.externs
    main := if b.options.main.isTruthy then some b.options.main.display else none
    tree := site.tree }

def outPath (b : Bundler) (cwd : String) : Except Failure String :=
  match b.options.out with
  | .text p => .ok (Path.absolute cwd p)
  | _ => .error .wrongKind

/-- Writes the bundle of a program to a file. -/
def write (b : Bundler) (site : Site) (eol out : String) (p : Program) : Action Unit := do
  Action.makeDirectories site.cwd (Path.directory out)
  Action.change fun fs => fs.write site.cwd out ByteArray.empty
  let fs ← Action.files
  let bundle := (b.assembly site eol).bundle fs p
  bundle.events.forM Action.tell
  Action.change fun fs => fs.write site.cwd out (Text.encode bundle.text)
  match bundle.failure with
  | some e => Action.fail e
  | none => pure ()

def run (b : Bundler) (site : Site) : Action Unit := do
  let o := b.options
  let entries := Module.entryPaths site.cwd b.baseDir (Options.texts o.files)
  let settings ← Settings.resolve site.cwd b.baseDir entries o.eol.text? o.target o.project
  Action.note .info ("Bundling " ++ toString entries.length ++ " entry files from " ++ b.baseDir ++
    " as '" ++ o.name.display ++ "'")
  let program ← Compiler.create site o.tsc o.timeout b.baseDir settings.options settings.files
  let out ← Action.ofExcept (b.outPath site.cwd)
  b.write site settings.eol out program
  Action.note .info ("Wrote declaration bundle to " ++ out)

/-- Runs one after another, up to the first that fails, each with tokens of its own. -/
def runs (b : Bundler) (site : Site) : List Tokens → Action Unit
  | [] => pure ()
  | t :: ts => do
    b.run (site.named t)
    runs b site ts

/-- The ids of the modules that were left out, each only where it comes first. -/
def excludedIds (events : List Event) : List String :=
  (events.filterMap fun e =>
    match e with
    | .excluded id => some id
    | _ => none).eraseDups

end Bundler

end DeclBundle
