import DeclBundle.Syntax.Parsed

/-!
# Listings

A listing writes a tree as a row for each node, every node before its children. Where a node stands in
the tree is told by numbers: that of its parent, and that of what it refers to.
-/

namespace DeclBundle

structure ListedNode where
  label : NodeLabel
  start : Nat
  stop : Nat
  parent : Option Nat
  reference : Option Nat
deriving DecidableEq, Repr

namespace Node

mutual

def listingFrom (parent : Option Nat) (i : Nat) : Node → List ListedNode
  | ⟨label, s, e, cs⟩ =>
    let n : Node := ⟨label, s, e, cs⟩
    ⟨label, s, e, parent, n.referenceAddress?.map fun a => i + n.rank a⟩ ::
      listingsFrom (some i) (i + 1) cs

/-- The listing of a row of nodes, the first of which has a number. -/
def listingsFrom (parent : Option Nat) (i : Nat) : List Node → List ListedNode
  | [] => []
  | c :: cs => listingFrom parent i c ++ listingsFrom parent (i + c.size) cs

end

/-- The listing of a tree, its root having the number zero. -/
def listing (n : Node) : List ListedNode := listingFrom none 0 n

mutual

theorem length_listingFrom (parent : Option Nat) (i : Nat) :
    ∀ n : Node, (listingFrom parent i n).length = n.size
  | ⟨label, s, e, cs⟩ => by
    simp only [listingFrom, List.length_cons, length_listingsFrom (some i) (i + 1) cs, Region.size]
    omega

theorem length_listingsFrom (parent : Option Nat) (i : Nat) :
    ∀ ns : List Node, (listingsFrom parent i ns).length = Region.sizes ns
  | [] => by simp [listingsFrom]
  | c :: cs => by
    simp [listingsFrom, length_listingFrom parent i c, length_listingsFrom parent (i + c.size) cs]

end

end Node

namespace ParsedFile

/-- The numbers of the children that a test picks, the first child having a number. -/
def numbersFrom (pick : Node → Bool) (i : Nat) : List Node → List Nat
  | [] => []
  | c :: cs =>
    if pick c then i :: numbersFrom pick (i + c.size) cs else numbersFrom pick (i + c.size) cs

def statementNumbers (f : ParsedFile) : List Nat :=
  numbersFrom (fun c => !c.isComment) 1 f.root.children

end ParsedFile

end DeclBundle
