import DeclBundle.Syntax.Region

/-!
# Splicing

`splice` walks a tree of regions of a text, each region before its children, and asks for a replacement
of each. Where there is one, it stands for the whole region, whose children are not visited; everything
else is kept. The walk carries a cursor, the offset up to which the text is dealt with, and never moves it
back: what lies behind the cursor is not written again, in whatever order or overlap the regions come.

The result is a row of parts, stretches of the text that are kept and texts that are put in; `render`
writes them. `visited` are the regions that were asked for.
-/

namespace DeclBundle

inductive Part where
  | kept (start stop : Nat)
  | put (text : String)
deriving DecidableEq, Repr

namespace Part

/-- The characters of a part; a stretch ends with the text. -/
def chars (source : List Char) : Part → List Char
  | kept start stop => (source.take stop).drop start
  | put text => text.toList

def render (source : List Char) (parts : List Part) : List Char := parts.flatMap (chars source)

@[simp] theorem render_nil (source : List Char) : render source [] = [] := rfl

@[simp] theorem render_cons (source : List Char) (p : Part) (ps : List Part) :
    render source (p :: ps) = p.chars source ++ render source ps := rfl

theorem render_append (source : List Char) (ps qs : List Part) :
    render source (ps ++ qs) = render source ps ++ render source qs := by
  simp [render]

end Part

structure Walk (α : Type) where
  parts : List Part
  visited : List (Region α)
  cursor : Nat

namespace Region

variable {α : Type}

/-- The replacement of a region, which may depend on its parent. -/
abbrev Replacement (α : Type) := Option (Region α) → Region α → Option String

def gap (cursor start : Nat) : List Part := if cursor < start then [.kept cursor start] else []

mutual

def walk (replace : Replacement α) (parent : Option (Region α)) (cursor : Nat) : Region α → Walk α
  | ⟨label, start, stop, children⟩ =>
    let r : Region α := ⟨label, start, stop, children⟩
    let here := max cursor start
    match replace parent r with
    | some text => ⟨gap cursor start ++ [.put text], [r], max here stop⟩
    | none =>
      let rest := walkAll replace (some r) here children
      ⟨gap cursor start ++ rest.parts, r :: rest.visited, rest.cursor⟩

def walkAll (replace : Replacement α) (parent : Option (Region α)) (cursor : Nat) :
    List (Region α) → Walk α
  | [] => ⟨[], [], cursor⟩
  | c :: cs =>
    let first := walk replace parent cursor c
    let rest := walkAll replace parent first.cursor cs
    ⟨first.parts ++ rest.parts, first.visited ++ rest.visited, rest.cursor⟩

end

/-- The parts of a text of a length in which regions are replaced. -/
def spliceParts (length : Nat) (root : Region α) (replace : Replacement α) : List Part :=
  let w := walk replace none 0 root
  w.parts ++ [.kept w.cursor length]

/-- The regions for which a replacement is asked for. -/
def visited (root : Region α) (replace : Replacement α) : List (Region α) :=
  (walk replace none 0 root).visited

def splice (source : String) (root : Region α) (replace : Replacement α) : String :=
  let s := source.toList
  String.ofList (Part.render s (spliceParts s.length root replace))

end Region

end DeclBundle
