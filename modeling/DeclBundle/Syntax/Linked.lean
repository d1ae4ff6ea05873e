import DeclBundle.Syntax.Listing

/-!
# Linked trees

The tree of a parsed file is one of objects that point at each other: every node knows its parent, and
an import of the form `import A = …` knows what it refers to. `LinkedNode` is such a tree, its objects
told apart by numbers, each of which is given out once. `LinkedNode.ofCst` makes it of a tree of the
grammar in the order in which a parser makes the objects, and repairs the links when two statements are
put together: the children that move get their new parent, and the import the reference at its end.

`plain` forgets the links, and `listing` writes them as the places of the nodes in the listing.
-/

namespace DeclBundle

namespace Region

variable {α β : Type}

mutual

def map (f : α → β) : Region α → Region β
  | ⟨label, s, e, cs⟩ => ⟨f label, s, e, maps f cs⟩

def maps (f : α → β) : List (Region α) → List (Region β)
  | [] => []
  | c :: cs => map f c :: maps f cs

end

theorem maps_eq_map (f : α → β) (cs : List (Region α)) : maps f cs = cs.map (map f) := by
  induction cs with
  | nil => simp [maps]
  | cons c cs ih => simp [maps, ih]

theorem map_eq (f : α → β) (r : Region α) :
    map f r = ⟨f r.label, r.start, r.stop, r.children.map (map f)⟩ := by
  obtain ⟨_, _, _, cs⟩ := r
  rw [map, maps_eq_map]

@[simp] theorem children_map (f : α → β) (r : Region α) :
    (map f r).children = r.children.map (map f) := by rw [map_eq]

@[simp] theorem isWide_map (f : α → β) (r : Region α) : (map f r).isWide = r.isWide := by
  rw [map_eq]
  rfl

end Region

/-- What is known of a node and of the nodes that it is linked to. -/
structure Link where
  id : Nat
  label : NodeLabel
  parent : Option Nat
  reference : Option Nat
deriving DecidableEq, Repr

abbrev LinkedNode := Region Link

namespace LinkedNode

def id (n : LinkedNode) : Nat := n.label.id

def kind (n : LinkedNode) : Kind := n.label.label.kind

/-- The name that the grammar gave to a node. -/
def type (n : LinkedNode) : String := n.label.label.type

def parent (n : LinkedNode) : Option Nat := n.label.parent

def reference (n : LinkedNode) : Option Nat := n.label.reference

def plain (n : LinkedNode) : Node := n.map Link.label

/-- The numbers of the nodes of a row, each before those of its children. -/
def ids (ns : List LinkedNode) : List Nat := (Region.preorders ns).map id

def adopt (parent : Nat) (n : LinkedNode) : LinkedNode :=
  { n with label := { n.label with parent := some parent } }

def refer (reference : Option Nat) (n : LinkedNode) : LinkedNode :=
  { n with label := { n.label with reference := reference } }

/-- The first node that stands right behind an equals sign and is no comment; the flag says that an
equals sign stands before the row. -/
def behindEquals? : Bool → List LinkedNode → Option LinkedNode
  | _, [] => none
  | seen, c :: cs => if seen && c.type != "comment" then some c else behindEquals? (c.type == "=") cs

/-- What an import with an equals sign refers to, as long as no statements were put together. -/
def referenced? (n : LinkedNode) : Option LinkedNode :=
  if n.kind ≠ .importEquals then none
  else if n.type = "import_alias" then behindEquals? false n.children
  else do
    let clause ← n.children.find? fun (c : LinkedNode) => c.type == "import_require_clause"
    clause.children.find? fun (c : LinkedNode) => c.kind == .externalModuleReference

/-- The linked node of a node of known children, with its number and that of its parent. -/
def make (new : Nat) (parent : Option Nat) (bare : Node) (children : List LinkedNode) : LinkedNode :=
  let node : LinkedNode := ⟨⟨new, bare.label, parent, none⟩, bare.start, bare.stop, children⟩
  node.refer (node.referenced?.map id)

/-- The import of a split statement with the reference at its end, which has a new number. -/
def withReference (new : Nat) (imported word call : LinkedNode) (j : Nat) : LinkedNode :=
  let reference : LinkedNode := ⟨⟨new, Node.referenceLabel, some imported.id, none⟩, word.start,
    call.stop, (word :: call.children).map (adopt new)⟩
  let kept := (imported.children.eraseIdx j).filter fun (c : LinkedNode) => c.isWide
  { imported.refer (some new) with stop := call.stop, children := kept ++ [reference] }

/-- Two statements put together, if the second completes the first; a new number is at hand. -/
def fold? (text : List Char) (new : Nat) (statement following : LinkedNode) : Option LinkedNode := do
  let (i, j) ← statement.plain.splitRequire? text
  let _ ← following.plain.bracketedString?
  let call ← following.children.head?
  let imported ← statement.children[i]?
  let word ← imported.children[j]?
  let children := statement.children.set i (withReference new imported word call j)
  pure { statement with
    stop := following.stop
    children := children.filter (fun (c : LinkedNode) => c.isWide) ++
      following.children.tail.map (adopt statement.id) }

/-- A row of statements in which those that complete each other are put together, and the next number
to give out. -/
def foldAll (text : List Char) : Nat → List LinkedNode → List LinkedNode × Nat
  | next, [] => ([], next)
  | next, [n] => ([n], next)
  | next, n :: m :: ns =>
    match fold? text next n m with
    | some folded =>
      let row := foldAll text (next + 1) ns
      (folded :: row.1, row.2)
    | none =>
      let row := foldAll text next (m :: ns)
      (n :: row.1, row.2)

mutual

/-- The node of a tree of the grammar, its number being the next to give out, and the next number
behind all nodes in it. -/
def ofCst (text : List Char) (parent : Option Nat) (next : Nat) : Cst → LinkedNode × Nat
  | ⟨label, s, e, cs⟩ =>
    let row :=
      if label.type = "import_require_clause" then ofClause text next (next + 1) cs
      else
        let made := ofCsts text (some next) (next + 1) cs
        foldAll text made.2 made.1
    let bare := Node.assemble text label (Text.place text s) (Text.place text e) cs []
    (make next parent bare row.1, row.2)

def ofCsts (text : List Char) (parent : Option Nat) (next : Nat) : List Cst → List LinkedNode × Nat
  | [] => ([], next)
  | c :: cs =>
    let first := ofCst text parent next c
    let row := ofCsts text parent first.2 cs
    (first.1 :: row.1, row.2)

/-- The nodes of the children of a clause, those from the word `require` on under one reference. -/
def ofClause (text : List Char) (clause next : Nat) : List Cst → List LinkedNode × Nat
  | [] => ([], next)
  | c :: cs =>
    if Cst.isToken "require" c then
      let word := ofCst text (some next) (next + 1) c
      let row := ofCsts text (some next) word.2 cs
      let stop := Text.place text ((c :: cs).getLast (List.cons_ne_nil c cs)).stop
      ([⟨⟨next, Node.referenceLabel, some clause, none⟩, word.1.start, stop, word.1 :: row.1⟩], row.2)
    else
      let first := ofCst text (some clause) next c
      let row := ofClause text clause first.2 cs
      (first.1 :: row.1, row.2)

end

/-- A row of the listing of a tree with these numbers. -/
def listed (all : List Nat) (n : LinkedNode) : ListedNode :=
  ⟨n.label.label, n.start, n.stop, n.parent.map all.idxOf, n.reference.map all.idxOf⟩

/-- The listing of a linked tree: the nodes in the order of their places, links by places. -/
def listing (n : LinkedNode) : List ListedNode := n.preorder.map (listed (ids [n]))

def ofTree (text : String) (tree : SyntaxTree) : LinkedNode := (ofCst text.toList none 0 tree.root).1

end LinkedNode

end DeclBundle
