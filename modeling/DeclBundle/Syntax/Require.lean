import DeclBundle.Syntax.Node

/-!
# Imports by `require`

The grammar gives `import A = require('./a')` a clause in which the word, the brackets and the string lie
side by side; `groupReference` puts them together under one reference to an external module.

It cuts `export import A = require('./a');` in two, an export that ends with the word and a statement that
consists of the bracketed string. `fold?` puts two such statements together into one, with the same kind
of reference at the end of the import; nodes without characters, which the grammar put in for missing
semicolons, are left out. `foldAll` does so along a row of statements.
-/

namespace DeclBundle.Node

def referenceLabel : NodeLabel :=
  { kind := .externalModuleReference, type := "external_module_reference", exported := false,
    literal := none }

/-- A row of children whose part from a position on is one reference that ends at an offset. -/
def groupReference (children : List Node) (i stop : Nat) : List Node :=
  match children.drop i with
  | [] => children
  | first :: more => children.take i ++ [⟨referenceLabel, first.start, stop, first :: more⟩]

def slice (text : List Char) (n : Node) : List Char := (text.take n.stop).drop n.start

/-- Whether a child counts as a token of its parent: it has characters and is no comment. -/
def isToken (n : Node) : Bool := n.isWide && !n.isComment

def lastToken? (children : List Node) : Option Nat :=
  match children.reverse.findIdx? (fun (c : Node) => c.isToken) with
  | none => none
  | some i => some (children.length - 1 - i)

/-- The position of the import in an export that ends with the word `require`, and the position of that
word in the import. -/
def splitRequire? (text : List Char) (statement : Node) : Option (Nat × Nat) :=
  if statement.type ≠ "export_statement" then none
  else do
    let i ← statement.childOfType? "import_alias"
    let imported : Node ← statement.children[i]?
    let j ← lastToken? imported.children
    let word : Node ← imported.children[j]?
    if word.type = "identifier" ∧ word.slice text = "require".toList then some (i, j) else none

/-- The bracketed string that a statement begins with, and what else it has. -/
def bracketedString? (statement : Node) : Option (Node × List Node) :=
  if statement.type ≠ "expression_statement" then none
  else
    match statement.children with
    | [] => none
    | call :: rest =>
      let call : Node := call
      let tokens := call.children.filter fun (c : Node) => !c.isComment
      if call.type = "parenthesized_expression" ∧
          tokens.map (fun (c : Node) => c.type) = ["(", "string", ")"] then some (call, rest)
      else none

/-- The import of a split statement with the reference at its end. -/
def withReference (imported word call : Node) (j : Nat) : Node :=
  let reference : Node := ⟨referenceLabel, word.start, call.stop, word :: call.children⟩
  let kept := (imported.children.eraseIdx j).filter fun (c : Node) => c.isWide
  { imported with stop := call.stop, children := kept ++ [reference] }

/-- Two statements put together, if the second completes the first. -/
def fold? (text : List Char) (statement following : Node) : Option Node := do
  let (i, j) ← statement.splitRequire? text
  let (call, rest) ← following.bracketedString?
  let imported : Node ← statement.children[i]?
  let word : Node ← imported.children[j]?
  let children := statement.children.set i (withReference imported word call j)
  pure { statement with
    stop := following.stop
    children := children.filter (fun (c : Node) => c.isWide) ++ rest }

/-- A row of statements in which those that complete each other are put together. -/
def foldAll (text : List Char) : List Node → List Node
  | [] => []
  | [n] => [n]
  | n :: m :: ns =>
    match fold? text n m with
    | some folded => folded :: foldAll text ns
    | none => n :: foldAll text (m :: ns)

@[simp] theorem foldAll_nil (text : List Char) : foldAll text [] = [] := by simp [foldAll]

@[simp] theorem foldAll_singleton (text : List Char) (n : Node) : foldAll text [n] = [n] := by
  simp [foldAll]

end DeclBundle.Node
