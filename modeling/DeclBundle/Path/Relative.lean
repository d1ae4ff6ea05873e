import DeclBundle.Path.Normal
import DeclBundle.Path.Part

/-!
# One path seen from another

`relative` leads from one directory to a path: both are made absolute, the steps they begin with in
common are left out, and one step up stands for each step that is left of the directory. The anchors are
not compared. `isUnder` says whether the normal form of a path is that of a directory or begins with it
and a slash.
-/

namespace DeclBundle.Path

def stepsOf (p : List Char) : List (List Char) := (Text.pieces '/' p).filter (· ≠ [])

def lead : List (List Char) → List (List Char) → List (List Char)
  | s :: source, t :: target =>
    if s = t then lead source target
    else (s :: source).map (fun _ => up) ++ t :: target
  | source, target => source.map (fun _ => up) ++ target

/-- The way from the directory `start` to a path, both seen from a working directory. -/
def relative (cwd p start : String) : String :=
  String.ofList (write [] (lead (stepsOf (absolute cwd start).toList)
    (stepsOf (absolute cwd p).toList)))

/-- Whether a path is a directory or lies in it, judged by their normal forms. -/
def isUnder (dir p : String) : Bool :=
  let d := normal dir.toList
  let q := normal p.toList
  q = d || (dropSlashes d ++ ['/']).isPrefixOf q

@[simp] theorem lead_self (s : List (List Char)) : lead s s = [] := by
  induction s with
  | nil => rfl
  | cons s steps ih => simp [lead, ih]

/-- What two places begin with in common is not on the way between them. -/
theorem lead_append (common s t : List (List Char)) :
    lead (common ++ s) (common ++ t) = lead s t := by
  induction common with
  | nil => rfl
  | cons c cs ih => simp [lead, ih]

@[simp] theorem lead_nil (t : List (List Char)) : lead [] t = t := by
  cases t <;> rfl

end DeclBundle.Path
