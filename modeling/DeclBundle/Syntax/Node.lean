import DeclBundle.Syntax.Region

/-!
# Syntax trees

A grammar names the stretches of a source text: `Cst` is such a tree, with offsets in bytes, names for
the roles of children, and tokens told from named rules. `Node` is the tree that the bundler works on: it
tells apart the few kinds that matter, counts characters, and keeps the name of the grammar. Node kinds
are `Kind`; a declaration under `export` is marked as exported, and a string has its content as literal.

`Node.referenceAddress?` leads from an import of the form `import A = …` to what stands behind the equals
sign: the reference to another module, if there is one, else the child next to the sign.
-/

namespace DeclBundle

/-- What a grammar says of a stretch of text. -/
structure GrammarLabel where
  type : String
  named : Bool
  field : Option String
deriving DecidableEq, Repr

/-- A tree of a grammar, its offsets counted in bytes. -/
abbrev Cst := Region GrammarLabel

inductive Kind where
  | sourceFile
  | importDeclaration
  | importEquals
  | externalModuleReference
  | exportDeclaration
  | exportAssignment
  | namespaceExport
  | declaration
  | declareKeyword
  | stringLiteral
  | other
deriving DecidableEq, Repr

/-- What is known of a node besides its stretch. -/
structure NodeLabel where
  kind : Kind
  type : String
  exported : Bool
  literal : Option String
deriving DecidableEq, Repr

/-- A node of a syntax tree, its offsets counted in characters. -/
abbrev Node := Region NodeLabel

namespace Node

def kind (n : Node) : Kind := n.label.kind

/-- The name that the grammar gave to a node. -/
def type (n : Node) : String := n.label.type

def isComment (n : Node) : Bool := n.type == "comment"

def childOfKind? (n : Node) (k : Kind) : Option Nat := n.children.findIdx? fun (c : Node) => c.kind == k

def findChild? (n : Node) (k : Kind) : Option Node := n.children.find? fun (c : Node) => c.kind == k

/-- The position of the first node that stands right behind an equals sign and is no comment; the first
argument is the position in front and the flag says that an equals sign stands before it. -/
def behindEquals? : Nat → Bool → List Node → Option Nat
  | _, _, [] => none
  | i, seen, c :: cs =>
    if seen && !c.isComment then some i else behindEquals? (i + 1) (c.type == "=") cs

def childOfType? (n : Node) (type : String) : Option Nat :=
  n.children.findIdx? fun (c : Node) => c.type == type

def referenceAddress? (n : Node) : Option (List Nat) :=
  if n.kind ≠ .importEquals then none
  else if n.type = "import_alias" then
    match n.childOfKind? .externalModuleReference with
    | some i => some [i]
    | none => (behindEquals? 0 false n.children).map ([·])
  else
    match n.childOfType? "import_require_clause" with
    | none => none
    | some i => do
      let clause : Node ← n.children[i]?
      let j ← clause.childOfKind? .externalModuleReference
      pure [i, j]

def reference? (n : Node) : Option Node := n.referenceAddress?.bind n.get?

end Node

end DeclBundle
