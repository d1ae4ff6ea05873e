import DeclBundle.Path.Part

/-!
# Extensions of source files

A declaration file ends in `.d.ts`, `.d.mts` or `.d.cts`; a source file in TypeScript ends in `.ts`,
`.tsx`, `.mts` or `.cts` and is no declaration file. `stripExtension` drops such an ending, the longer
ones first, and otherwise the last extension of the name. `declarationPath` is where the compiler puts
the declarations of a file.
-/

namespace DeclBundle.Module

def declarationEndings : List String := [".d.ts", ".d.mts", ".d.cts"]

def sourceEndings : List String := [".tsx", ".ts", ".mts", ".cts"]

def hasEnding (endings : List String) (p : String) : Bool :=
  endings.any fun e => (Text.before? e.toList p.toList).isSome

/-- Whether a path names a declaration file. -/
def isDeclaration (p : String) : Bool := hasEnding declarationEndings p

def isTypeScript (p : String) : Bool := hasEnding sourceEndings p && !isDeclaration p

def beforeEnding? (endings : List String) (p : String) : Option String :=
  endings.findSome? fun e => (Text.before? e.toList p.toList).map String.ofList

/-- A path without the ending that shows its kind. -/
def stripExtension (p : String) : String :=
  (beforeEnding? (declarationEndings ++ sourceEndings) p).getD (Path.stem p)

def declarationPath (p : String) : String :=
  if isDeclaration p then p
  else
    match beforeEnding? [".mts"] p, beforeEnding? [".cts"] p with
    | some q, _ => q ++ ".d.mts"
    | none, some q => q ++ ".d.cts"
    | none, none => stripExtension p ++ ".d.ts"

end DeclBundle.Module
