import DeclBundle.Compiler.Command
import DeclBundle.Compiler.Program
import DeclBundle.Compiler.Report
import DeclBundle.Json.Printer
import DeclBundle.Text.Encoding

/-!
# Runs of the compiler

The compiler is run once on all files. Its configuration is a temporary file in the base directory, so
that the paths in the options mean what they mean there, and the declarations go to a temporary directory.
The directory is removed again however the run ends (`create`), and so is the file once the configuration
is written; a value in the options that cannot be written ends the run before that, and the file remains.
An end with a status other than zero, one and two, an error of the program as a whole, and a call that
could not be made or was given up are failures.
-/

namespace DeclBundle.Compiler

/-- The options that would lead the declarations elsewhere, or prevent them. -/
def conflicting : List String := [
  "watch", "diagnostics", "noEmit", "noEmitOnError", "outFile", "out", "outDir",
  "declarationDir", "declarationMap", "incremental", "composite", "tsBuildInfoFile"
]

def isAmong (keys : List String) : Value → Bool
  | .text s => keys.contains s
  | _ => false

/-- The options for a run that writes only declarations, to a directory. -/
def declarationOptions (options : Record) (baseDir declarationDir : String) : Record :=
  let kept := Record.without options (isAmong conflicting)
  let kept := Record.put kept (.text "declaration") (.bool true)
  let kept := Record.put kept (.text "emitDeclarationOnly") (.bool true)
  let kept := Record.put kept (.text "declarationDir") (.text declarationDir)
  Record.put kept (.text "rootDir") (.text baseDir)

def configuration (options : Record) (files : List String) : Json.Writing :=
  Json.write (.map [(.text "compilerOptions", .map options),
    (.text "files", .list (files.map .text))])

def unwritable : Json.Obstacle → Failure
  | .longNumber => .badValue .unwritableNumber
  | .foreign => .wrongKind

/-- Whether something was written to its end. -/
def completed (d : Json.Writing) : Except Failure Unit :=
  match d.obstacle with
  | none => .ok ()
  | some o => .error (unwritable o)

theorem completed_eq_ok_iff {d : Json.Writing} {u : Unit} : completed d = .ok u ↔ d.obstacle = none := by
  unfold completed
  split <;> simp [*]

/-- The time after which a run is given up, unless another is set. -/
def defaultTimeout : Value := .int 600

def timeoutOf (timeout : Value) : Value :=
  match timeout with
  | .null => defaultTimeout
  | t => t

def declarationDir (site : Site) : String :=
  Path.join site.temporary ("dts-bundler-" ++ site.tokens.directory)

def configPath (site : Site) (baseDir : String) : String :=
  Path.join (Path.absolute site.cwd baseDir) (".dts-bundler-" ++ site.tokens.configuration ++ ".json")

def createFile (site : Site) (p text : String) (fs : FileSystem) :
    Except FileSystem.Fault FileSystem :=
  match fs.place site.cwd p with
  | .error c => .error ⟨c, some p⟩
  | .ok l =>
    if (fs.get? l).isSome then .error ⟨.noFreeName, none⟩
    else .ok (fs.put l (.file (Text.encode text)))

/-- The file system with the files that the compiler wrote below a directory. -/
def plantAll (dir : String) (written : List (String × Option ByteArray)) (fs : FileSystem) :
    FileSystem :=
  written.foldl (fun fs w =>
    fs.plant (FileSystem.placeOf (Path.normalize (Path.join dir w.1)))
      (w.2.elim .directory .file)) fs

def trimmed (s : String) : String := String.ofList (Text.trim s.toList)

def complaint (errors output : String) : String :=
  if (trimmed errors).isEmpty then trimmed output else trimmed errors

/-- The output of a call, the files that it wrote being put below a directory. -/
def perform (site : Site) (dir : String) (c : CompilerCall) : Action String := do
  Action.tell (.call c)
  match site.answer c with
  | .timedOut written =>
    Action.change fun fs => .ok (plantAll dir written fs)
    Action.fail (.invocation c.command ("timed out after " ++ c.timeout.display ++ "s") none)
  | .refused code text =>
    let fault : FileSystem.Fault := ⟨.other code text, c.command.head?⟩
    Action.fail (.invocation c.command fault.message none)
  | .finished output errors status written =>
    Action.change fun fs => .ok (plantAll dir written fs)
    if status = 0 ∨ status = 1 ∨ status = 2 then pure output
    else Action.fail (.invocation c.command (complaint errors output) (some status))

def readReport (baseDir output : String) : Action Report := do
  let (report, bad) := Report.read baseDir output
  report.ignored.forM fun l => Action.note .debug ("Ignoring compiler output line: " ++ l)
  match bad with
  | some b => Action.fail (.badValue b)
  | none => pure report

/-- The path below a directory where the compiler writes the declarations of a file. -/
def emittedPath (site : Site) (baseDir dir path : String) : String :=
  Path.join dir (Path.relative site.cwd (Module.declarationPath path) baseDir)

/-- The declarations of files with those of one more file: it has none if it is a declaration file, lies
outside the base directory, or the compiler wrote none for it. -/
def readDeclaration (site : Site) (baseDir dir : String) (found : List (String × String))
    (p : String) : Action (List (String × String)) :=
  if Module.isDeclaration p || !Path.isUnder baseDir p then pure found
  else do
    let fs ← Action.files
    match fs.find? site.cwd (emittedPath site baseDir dir p) with
    | some (.file content) =>
      match Text.decode? content with
      | some text => pure (Program.addDeclaration found (Path.normalize p) text)
      | none => Action.fail .undecodable
    | _ =>
      Action.note .debug ("No declaration emitted for " ++ p)
      pure found

/-- The declarations of files, those of earlier files being given. -/
def readDeclarations (site : Site) (baseDir dir : String) :
    List (String × String) → List String → Action (List (String × String))
  | found, [] => pure found
  | found, p :: ps => do
    let found ← readDeclaration site baseDir dir found p
    readDeclarations site baseDir dir found ps

def programOf (site : Site) (baseDir dir : String) (report : Report) : Action Program := do
  let errors := report.diagnostics.filter Diagnostic.isGlobalError
  if errors.isEmpty then
    let declarations ← readDeclarations site baseDir dir [] report.files
    pure ⟨report.files, report.diagnostics, declarations⟩
  else
    Action.fail (.configuration (.compilerErrors (Path.join baseDir "tsconfig.json") errors))

/-- The program of a call for which the directory for declarations exists. -/
def createIn (site : Site) (command : List String) (baseDir dir : String) (options : Record)
    (files : List String) (timeout : Value) : Action Program := do
  let config := configuration (declarationOptions options baseDir dir) files
  let path := configPath site baseDir
  Action.change (createFile site path config.text)
  -- Nothing takes the file away again if the configuration cannot be written to its end.
  Action.ofExcept (completed config)
  let words := command ++ ["-p", path, "--listFiles", "--pretty", "false"]
  let output ← Action.tidying
    (do
      Action.note .info ("Running " ++ " ".intercalate words)
      perform site dir ⟨words, baseDir, config.text, timeoutOf timeout⟩)
    fun fs => fs.without (· == FileSystem.placeOf path)
  let report ← readReport baseDir output
  programOf site baseDir dir report

/-- The program that the compiler makes of files. -/
def create (site : Site) (executable timeout : Value) (baseDir : String) (options : Record)
    (files : List String) : Action Program := do
  let fs ← Action.files
  let words ← Action.ofExcept (command site fs baseDir executable)
  let dir := declarationDir site
  Action.change fun fs => fs.makeDirectory site.cwd dir
  let program ← Action.tidying (createIn site words baseDir dir options files timeout)
    fun fs => fs.without (FileSystem.isWithin (FileSystem.placeOf dir))
  Action.note .info
    s!"Compiled {program.files.length} files with {program.diagnostics.length} diagnostics"
  pure program

end DeclBundle.Compiler
