import DeclBundle.Glob
import DeclBundle.Path.Relative

/-!
# Selecting files

Patterns exclude files by their paths below the base directory. A pattern with `!` in front lets in again
what earlier ones excluded, and a pattern that begins with `**/` also matches without that beginning.
`isExcluded` goes through the patterns in order, and the last one that matches decides.

`entryPath` finds the file of an entry: seen from the working directory if that lies in the base
directory, otherwise from the base directory.
-/

namespace DeclBundle.Module

/-- A pattern that excludes files or lets them in again. -/
structure Exclusion where
  lets : Bool
  glob : List Char
deriving DecidableEq, Repr

def Exclusion.ofText (s : String) : Exclusion :=
  match s.toList with
  | '!' :: cs => ⟨true, cs⟩
  | cs => ⟨false, cs⟩

def Exclusion.accepts (e : Exclusion) (p : String) : Bool :=
  (Glob.ofChars e.glob).accepts p.toList ||
    match Text.after? ['*', '*', '/'] e.glob with
    | some g => (Glob.ofChars g).accepts p.toList
    | none => false

/-- Whether a path is excluded, given what earlier patterns decided. -/
def excludedFrom (p : String) : Bool → List String → Bool
  | excluded, [] => excluded
  | excluded, s :: patterns =>
    let e := Exclusion.ofText s
    excludedFrom p (if e.accepts p then !e.lets else excluded) patterns

def isExcluded (p : String) (patterns : List String) : Bool := excludedFrom p false patterns

def entryPath (cwd baseDir entry : String) : String :=
  let p := Path.absolute cwd entry
  if Path.isUnder baseDir p then p else Path.normalize (Path.join baseDir entry)

def entryPaths (cwd baseDir : String) (entries : List String) : List String :=
  entries.map (entryPath cwd baseDir)

theorem excludedFrom_append (p : String) (excluded : Bool) (xs ys : List String) :
    excludedFrom p excluded (xs ++ ys) = excludedFrom p (excludedFrom p excluded xs) ys := by
  induction xs generalizing excluded with
  | nil => rfl
  | cons s xs ih => simp [excludedFrom, ih]

@[simp] theorem isExcluded_nil (p : String) : isExcluded p [] = false := rfl

end DeclBundle.Module
