import DeclBundle.Diagnostic
import DeclBundle.Module.Extension
import DeclBundle.Path.Normal

/-!
# Programs

A program is what the compiler makes of some files: the files in its order, what it says about them, and
the declarations of those that had any. Paths are compared in their normal forms.
-/

namespace DeclBundle

/-- What the compiler made of some files. -/
structure Program where
  files : List String
  diagnostics : List Diagnostic
  /-- The declarations, each under the normal form of the path of its file. -/
  declarations : List (String × String)

/-- The declarations that the compiler made of a file. -/
structure Emitted where
  path : String
  text : Option String
  diagnostics : List Diagnostic
deriving DecidableEq

namespace Emitted

def isSkipped (e : Emitted) : Bool := e.text.isNone

def hasFailed (e : Emitted) : Bool := e.isSkipped || !e.diagnostics.isEmpty

end Emitted

namespace Program

/-- The declarations with those of one more file; they take the place of earlier ones of that file. -/
def addDeclaration (declarations : List (String × String)) (key text : String) :
    List (String × String) :=
  match declarations with
  | [] => [(key, text)]
  | (k, t) :: ds => if k = key then (key, text) :: ds else (k, t) :: addDeclaration ds key text

def diagnosticsOf (p : Program) (path : String) : List Diagnostic :=
  p.diagnostics.filter fun d =>
    match d.file with
    | some f => Path.normalize f == Path.normalize path
    | none => false

def emitted (p : Program) (path : String) : Emitted :=
  { path := Module.declarationPath path
    text := p.declarations.lookup (Path.normalize path)
    diagnostics := p.diagnosticsOf path }

end Program

end DeclBundle
