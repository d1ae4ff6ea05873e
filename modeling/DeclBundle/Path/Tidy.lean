import DeclBundle.Path.Normal

/-!
# Tidy paths

A tidy path is written without empty steps and without steps that stay, but keeps the steps up: what a
step up leads to is left to the file system. `tidy` is the tidy form, `tidyJoin` the tidy form of a path
below a directory, `parent` the tidy form without its last step. `extension` is the last point of the
last step and what follows, unless that step begins or ends with the point.
-/

namespace DeclBundle.Path

def tidySteps (p : List Char) : List (List Char) :=
  (Text.pieces '/' p).filter fun s => s ≠ [] && s ≠ here

def tidy (p : String) : String :=
  String.ofList (write (anchor p.toList) (tidySteps p.toList))

/-- The tidy form of a path below a directory. -/
def tidyJoin (dir p : String) : String := tidy (join dir p)

/-- The tidy form without its last step; an anchor alone is its own parent. -/
def parent (p : String) : String :=
  String.ofList (write (anchor p.toList) (tidySteps p.toList).dropLast)

def lastStep (p : String) : List Char := ((tidySteps p.toList).getLast?).getD []

def extension (p : String) : String :=
  let n := lastStep p
  let tail := (n.reverse.takeWhile (· != '.')).reverse
  let before := n.length - tail.length
  if 1 < before && !tail.isEmpty then String.ofList ('.' :: tail) else ""

end DeclBundle.Path
