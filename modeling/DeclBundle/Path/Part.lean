import DeclBundle.Text.Piece

/-!
# Parts of a path

`directory` is what stands before the last slash and `name` what stands after it; the slash itself
belongs to the directory only if nothing else does. `stem` drops the last extension of the name, that is
the last point and what follows, unless only points stand before it.
-/

namespace DeclBundle.Path

def dropSlashes (p : List Char) : List Char := (p.reverse.dropWhile (· == '/')).reverse

def upToSlash (p : List Char) : List Char := (p.reverse.dropWhile (· != '/')).reverse

def afterSlash (p : List Char) : List Char := (p.reverse.takeWhile (· != '/')).reverse

def directoryChars (p : List Char) : List Char :=
  let head := upToSlash p
  if head.all (· == '/') then head else dropSlashes head

def directory (p : String) : String := String.ofList (directoryChars p.toList)

def name (p : String) : String := String.ofList (afterSlash p.toList)

def stemOfName (n : List Char) : List Char :=
  match n.reverse.dropWhile (· != '.') with
  | [] => n
  | _ :: before => if before.any (· != '.') then before.reverse else n

/-- A path without the last extension of its name. -/
def stem (p : String) : String :=
  String.ofList (upToSlash p.toList ++ stemOfName (afterSlash p.toList))

theorem upToSlash_append_afterSlash (p : List Char) : upToSlash p ++ afterSlash p = p := by
  rw [upToSlash, afterSlash, ← List.reverse_append, List.takeWhile_append_dropWhile,
    List.reverse_reverse]

@[simp] theorem afterSlash_nil : afterSlash [] = [] := rfl

@[simp] theorem upToSlash_nil : upToSlash [] = [] := rfl

end DeclBundle.Path
