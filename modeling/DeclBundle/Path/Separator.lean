/-!
# Separators

On some platforms the steps of a path are separated by something else than a slash, or by one of two
characters. `unify` writes slashes for both separators of a platform; where the separator is the slash
and there is no other, nothing changes (`unify_posix`).
-/

namespace DeclBundle.Path

structure Separators where
  main : String
  other : Option String

def Separators.posix : Separators := ⟨"/", none⟩

/-- The text with every occurrence of a separator, from left to right, written as a slash; the counter
is the number of characters of an occurrence that are still to be passed. -/
def slashed (sep : List Char) : Nat → List Char → List Char
  | _, [] => []
  | skip + 1, _ :: cs => slashed sep skip cs
  | 0, c :: cs =>
    if sep.isPrefixOf (c :: cs) then '/' :: slashed sep (sep.length - 1) cs
    else c :: slashed sep 0 cs

/-- Slashes for one separator; an empty separator stands around every character. -/
def slashOne (sep : String) (p : List Char) : List Char :=
  if sep = "/" then p
  else if sep.isEmpty then '/' :: p.flatMap fun c => [c, '/']
  else slashed sep.toList 0 p

def unify (seps : Separators) (p : String) : String :=
  let q := slashOne seps.main p.toList
  String.ofList <|
    match seps.other with
    | some o => if o.isEmpty then q else slashOne o q
    | none => q

@[simp] theorem unify_posix (p : String) : unify .posix p = p := by
  simp [unify, Separators.posix, slashOne]

end DeclBundle.Path
