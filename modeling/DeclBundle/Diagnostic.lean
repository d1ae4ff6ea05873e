/-!
# Diagnostics

What a compiler says about a program, at a place of a file or of the program as a whole.
-/

namespace DeclBundle

inductive Category where
  | error
  | warning
  | message
deriving DecidableEq, Repr

/-- A diagnostic; lines and columns are counted from one. -/
structure Diagnostic where
  /-- The file, unless it is about the program as a whole. -/
  file : Option String
  line : Int
  column : Int
  code : Int
  message : String
  category : Category
deriving DecidableEq, Repr

namespace Diagnostic

def isGlobalError (d : Diagnostic) : Bool := d.file.isNone && d.category == .error

/-- The line for a diagnostic of a file that could not be bundled. -/
def located (d : Diagnostic) : String :=
  d.file.getD "None" ++ s!"({d.line},{d.column}): error TS{d.code}: {d.message}"

def unlocated (d : Diagnostic) : String := s!"error TS{d.code}: {d.message}"

def distinct (ds : List Diagnostic) : List Diagnostic :=
  ds.foldl (fun seen d => if d ∈ seen then seen else seen ++ [d]) []

end Diagnostic

end DeclBundle
