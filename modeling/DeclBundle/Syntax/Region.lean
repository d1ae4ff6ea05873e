/-!
# Regions

A region is a labelled stretch of a text with regions in it. Nothing ties the stretches of the children
to that of the parent here; `Nested` is the case in which the children lie in order, apart from each other
and inside their parent.

An address is the row of positions that leads from a region to one of its descendants. `get?` is the
descendant at an address and `rank` its place in the order in which every region comes before its
children; `size` counts the regions.
-/

namespace DeclBundle

structure Region (α : Type) where
  label : α
  start : Nat
  stop : Nat
  children : List (Region α)

namespace Region

variable {α : Type}

def isWide (r : Region α) : Bool := r.start < r.stop

mutual

def size : Region α → Nat
  | ⟨_, _, _, cs⟩ => 1 + sizes cs

def sizes : List (Region α) → Nat
  | [] => 0
  | c :: cs => size c + sizes cs

end

def get? : Region α → List Nat → Option (Region α)
  | r, [] => some r
  | r, i :: address =>
    match r.children[i]? with
    | none => none
    | some c => get? c address

def rank : Region α → List Nat → Nat
  | _, [] => 0
  | r, i :: address =>
    match r.children[i]? with
    | none => 0
    | some c => 1 + sizes (r.children.take i) + rank c address

mutual

def preorder : Region α → List (Region α)
  | r@⟨_, _, _, cs⟩ => r :: preorders cs

def preorders : List (Region α) → List (Region α)
  | [] => []
  | c :: cs => preorder c ++ preorders cs

end

mutual

/-- The children lie in order, apart from each other and inside their parent, all the way down. -/
def Nested : Region α → Prop
  | ⟨_, s, e, cs⟩ => s ≤ e ∧ NestedFrom s e cs

/-- The regions of a row lie in order and apart between two offsets, and are nested. -/
def NestedFrom (low high : Nat) : List (Region α) → Prop
  | [] => low ≤ high
  | c :: cs => low ≤ c.start ∧ Nested c ∧ NestedFrom c.stop high cs

end

@[simp] theorem sizes_nil : sizes ([] : List (Region α)) = 0 := by simp [sizes]

@[simp] theorem sizes_cons (c : Region α) (cs : List (Region α)) :
    sizes (c :: cs) = size c + sizes cs := by simp [sizes]

@[simp] theorem get?_nil (r : Region α) : get? r [] = some r := by simp [get?]

theorem get?_cons (r : Region α) (i : Nat) (address : List Nat) :
    get? r (i :: address) = (r.children[i]?).bind fun c => get? c address := by
  rw [get?]
  cases r.children[i]? <;> rfl

@[simp] theorem rank_nil (r : Region α) : rank r [] = 0 := by simp [rank]

mutual

theorem length_preorder : ∀ r : Region α, (preorder r).length = size r
  | ⟨_, _, _, cs⟩ => by
    simp only [preorder, List.length_cons, size, length_preorders cs]
    omega

theorem length_preorders : ∀ cs : List (Region α), (preorders cs).length = sizes cs
  | [] => by simp [preorders]
  | c :: cs => by
    simp [preorders, length_preorder c, length_preorders cs]

end

end Region

end DeclBundle
