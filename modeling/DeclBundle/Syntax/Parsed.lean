import DeclBundle.Syntax.Require
import DeclBundle.Text.Offset

/-!
# Parsed files

`Node.ofCst` makes the node of a tree of the grammar: the kind is judged by the tree, the children are
made and imports by `require` put together, and the offsets are counted in characters. A string gets its
content as literal, and the word that makes a declaration ambient also covers one blank behind it, so that
both go together.

`ParsedFile.ofCst?` does so for a whole file and is nothing if an offset of the tree is not one of the
text. The statements of a file are the children of its root but the comments.
-/

namespace DeclBundle

namespace Cst

def type (t : Cst) : String := t.label.type

def isToken (type : String) (t : Cst) : Bool := t.label.type == type && !t.label.named

def hasField (field : String) (t : Cst) : Bool := t.label.field == some field

def declarationTypes : List String := [
  "ambient_declaration", "interface_declaration", "type_alias_declaration", "enum_declaration",
  "class_declaration", "abstract_class_declaration", "function_signature", "function_declaration",
  "lexical_declaration", "variable_declaration", "module", "internal_module"
]

/-- The kind of an export and whether it is the export of a declaration. -/
def exportKind (children : List Cst) : Kind × Bool :=
  if children.any (hasField "declaration") then (.declaration, true)
  else if children.any (hasField "value") then (.exportAssignment, false)
  else if children.any (isToken "=") then (.exportAssignment, false)
  else if children.any (isToken "as") && children.any (isToken "namespace") then
    (.namespaceExport, false)
  else (.exportDeclaration, false)

/-- The kind of a node and whether it is the export of a declaration. -/
def kindOf (label : GrammarLabel) (children : List Cst) : Kind × Bool :=
  if label.type = "program" then (.sourceFile, false)
  else if label.type = "import_statement" then
    if children.any fun (c : Cst) => c.type == "import_require_clause" then (.importEquals, false)
    else (.importDeclaration, false)
  else if label.type = "import_alias" then (.importEquals, false)
  else if label.type = "export_statement" then exportKind children
  else if label.type = "string" then (.stringLiteral, false)
  else if label.type = "declare" ∧ label.named = false then (.declareKeyword, false)
  else if label.type ∈ declarationTypes then (.declaration, false)
  else (.other, false)

mutual

/-- Whether the offsets of a tree are offsets of a text. -/
def fits (text : List Char) : Cst → Bool
  | ⟨_, s, e, cs⟩ => (Text.place? text s).isSome && (Text.place? text e).isSome && fitAll text cs

def fitAll (text : List Char) : List Cst → Bool
  | [] => true
  | c :: cs => fits text c && fitAll text cs

end

end Cst

namespace Node

def unquote (s : List Char) : List Char :=
  match s with
  | first :: rest =>
    if rest ≠ [] ∧ rest.getLast? = some first ∧ (first = '"' ∨ first = '\'' ∨ first = '`') then
      rest.dropLast
    else s
  | [] => s

def skipBlank (text : List Char) (offset : Nat) : Nat :=
  match text[offset]? with
  | some c => if c = ' ' ∨ c = '\t' then offset + 1 else offset
  | none => offset

/-- The children of a node of the grammar once they are made: in a clause they are grouped from the word
`require` on, elsewhere statements are put together. -/
def arrange (text : List Char) (label : GrammarLabel) (trees : List Cst) (children : List Node) :
    List Node :=
  if label.type = "import_require_clause" then
    match trees.findIdx? (Cst.isToken "require"), trees.getLast? with
    | some i, some last => groupReference children i (Text.place text last.stop)
    | _, _ => children
  else foldAll text children

def assemble (text : List Char) (label : GrammarLabel) (start stop : Nat) (trees : List Cst)
    (children : List Node) : Node :=
  let (kind, exported) := Cst.kindOf label trees
  let literal :=
    if kind = .stringLiteral then
      some (String.ofList (unquote ((text.take stop).drop start)))
    else none
  let stop := if kind = .declareKeyword then skipBlank text stop else stop
  ⟨⟨kind, label.type, exported, literal⟩, start, stop, arrange text label trees children⟩

mutual

def ofCst (text : List Char) : Cst → Node
  | ⟨label, s, e, cs⟩ =>
    assemble text label (Text.place text s) (Text.place text e) cs (ofCsts text cs)

def ofCsts (text : List Char) : List Cst → List Node
  | [] => []
  | c :: cs => ofCst text c :: ofCsts text cs

end

@[simp] theorem ofCsts_nil (text : List Char) : ofCsts text [] = [] := by simp [ofCsts]

@[simp] theorem ofCsts_cons (text : List Char) (c : Cst) (cs : List Cst) :
    ofCsts text (c :: cs) = ofCst text c :: ofCsts text cs := by simp [ofCsts]

theorem ofCsts_eq_map (text : List Char) (cs : List Cst) : ofCsts text cs = cs.map (ofCst text) := by
  induction cs with
  | nil => simp
  | cons c cs ih => simp [ih]

end Node

/-- The tree that a parser found in a text, and whether it had to guess. -/
structure SyntaxTree where
  root : Cst
  hasErrors : Bool

/-- A declaration file with its syntax tree. -/
structure ParsedFile where
  path : String
  text : String
  root : Node
  hasErrors : Bool

namespace ParsedFile

def ofCst? (path text : String) (tree : SyntaxTree) : Option ParsedFile :=
  if Cst.fits text.toList tree.root then
    some ⟨path, text, Node.ofCst text.toList tree.root, tree.hasErrors⟩
  else none

/-- The children of the root but the comments. -/
def statements (f : ParsedFile) : List Node := f.root.children.filter fun (c : Node) => !c.isComment

end ParsedFile

end DeclBundle
