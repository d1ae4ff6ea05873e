import DeclBundle.FileSystem.Access
import DeclBundle.Site

/-!
# Commands

How the compiler is started: by a command that was set, by the one in the environment, by the program in
the base directory, or by that of the system, the first of them that there is. A command that is given as
a text is cut into words as a shell does.
-/

namespace DeclBundle.Compiler

def commandVariable : String := "DTS_BUNDLER_TSC"

def localNames : List String := ["tsc", "tsc.cmd"]

def configured (site : Site) (executable : Value) : Value :=
  if executable.isTruthy then executable
  else (site.valueOf? commandVariable).elim .null .text

def local? (site : Site) (fs : FileSystem) (baseDir : String) : Option String :=
  (localNames.map fun n =>
    Path.join (Path.join (Path.join baseDir "node_modules") ".bin") n).find? fun p =>
      fs.isFile site.cwd p

def command (site : Site) (fs : FileSystem) (baseDir : String) (executable : Value) :
    Except Failure (List String) :=
  let set := configured site executable
  if set.isTruthy then
    match set with
    | .text s => (ShellWord.split s).mapError fun f => .badValue (.command f)
    | _ => .error .noSuchMember
  else
    match local? site fs baseDir, site.installed with
    | some p, _ => .ok [p]
    | none, some p => if p.isEmpty then .error (.configuration .noCompiler) else .ok [p]
    | none, none => .error (.configuration .noCompiler)

end DeclBundle.Compiler
