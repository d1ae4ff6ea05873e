import DeclBundle.Action
import DeclBundle.FileSystem.Access

/-!
# Making directories

Missing directories on the way to a path are made one after another, from the top. If one of them cannot be
made, those above it remain. The two actions differ in how they come to know what is missing: the first
looks for the parent of a directory before it makes the directory, the second makes the directory and looks
at the fault.
-/

namespace DeclBundle.Action

/-- The absolute path in normal form whose steps, given from the last to the first, follow an anchor. -/
def pathOf (anchor : String) (steps : List String) : String := anchor ++ "/".intercalate steps.reverse

/-- Makes a directory at the end of an absolute path in normal form, its steps given from the last to the
first, unless there is one; missing directories above it are made first. -/
def makeDirectoriesTo (cwd anchor : String) : List String → Action Unit
  | [] => pure ()
  | s :: above => do
    let fs ← files
    (if (fs.find? cwd (pathOf anchor above)).isSome then pure () else makeDirectoriesTo cwd anchor above)
    change fun fs => fs.ensureDirectory cwd (pathOf anchor (s :: above))

/-- Makes a directory at the end of an absolute path in normal form. -/
def makeDirectories (cwd p : String) : Action Unit :=
  makeDirectoriesTo cwd (String.ofList (Path.anchor p.toList)) (FileSystem.placeOf p).reverse

/-- Makes a directory at the end of a tidy path; only if its parent is missing are the directories above it
made. The counter bounds the number of steps. -/
def makeParentsTo (cwd : String) : Nat → String → Action Unit
  | 0, p => change fun fs => fs.ensureDirectory cwd p
  | fuel + 1, p => do
    let fs ← files
    (if fs.lacksParent cwd p ∧ Path.parent p ≠ p then makeParentsTo cwd fuel (Path.parent p) else pure ())
    change fun fs => fs.ensureDirectory cwd p

def makeParents (cwd p : String) : Action Unit :=
  let dir := Path.parent p
  makeParentsTo cwd (FileSystem.steps dir).length dir

end DeclBundle.Action
