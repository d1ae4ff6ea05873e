import DeclBundle.Proofs.CommentInsertion

/-!
# References without comments

What an import with an equals sign refers to is an address, and taking nodes out of a tree moves addresses:
`Region.leftAddress p` leads from the address of a region to its address among those that are left. An import
refers to the same without picked comments (`referenceAddress?_prune_iff`), unless it looks for an entity
behind an equals sign and a picked comment stands between them (`isBlocked`): such a comment is skipped, but
with it the sign is forgotten.

`Node.kept p` is a tree without picked nodes in which each node knows the address of what it refers to.
-/

namespace DeclBundle

namespace Region

variable {α : Type} {p q : Region α → Bool} {c : Region α} {cs : List (Region α)}

/-- The position of a region among those of a row that are left. -/
def left (p : Region α → Bool) (cs : List (Region α)) (i : Nat) : Nat := (cs.take i).countP fun c => !p c

/-- The address of a region in a tree without the regions that are picked. -/
def leftAddress (p : Region α → Bool) : Region α → List Nat → List Nat
  | _, [] => []
  | r, i :: a =>
    left p r.children i ::
      match r.children[i]? with
      | none => a
      | some c => leftAddress p c a

@[simp] theorem left_zero (p : Region α → Bool) (cs : List (Region α)) : left p cs 0 = 0 := rfl

theorem left_cons_of_pos (h : p c = true) (cs : List (Region α)) (i : Nat) :
    left p (c :: cs) (i + 1) = left p cs i := by
  rw [left, List.take_succ_cons, List.countP_cons_of_neg (by simp [h]), left]

theorem left_cons_of_neg (h : p c = false) (cs : List (Region α)) (i : Nat) :
    left p (c :: cs) (i + 1) = left p cs i + 1 := by
  rw [left, List.take_succ_cons, List.countP_cons_of_pos (by simp [h]), left]

@[simp] theorem leftAddress_nil (p : Region α → Bool) (r : Region α) : leftAddress p r [] = [] := by
  rw [leftAddress]

theorem leftAddress_cons {r : Region α} {i : Nat} (hc : r.children[i]? = some c) (a : List Nat) :
    leftAddress p r (i :: a) = left p r.children i :: leftAddress p c a := by
  rw [leftAddress, hc]

theorem getElem?_prunes {i : Nat} (hc : cs[i]? = some c) (hp : p c = false) :
    (prunes p cs)[left p cs i]? = some (prune p c) := by
  induction cs generalizing i with
  | nil => simp at hc
  | cons e es ih =>
      cases i with
      | zero =>
          obtain rfl : e = c := by simpa using hc
          rw [prunes_cons_of_neg hp, left_zero, List.getElem?_cons_zero]
      | succ i =>
          have hrest := ih (by simpa using hc)
          cases he : p e with
          | true => rw [prunes_cons_of_pos he, left_cons_of_pos he, hrest]
          | false => rw [prunes_cons_of_neg he, left_cons_of_neg he, List.getElem?_cons_succ, hrest]

/-- What no picked region is is found where it was, among those that are left. -/
theorem findIdx?_prunes (hq : ∀ c, q (prune p c) = q c) (hp : ∀ c ∈ cs, p c = true → q c = false) :
    (prunes p cs).findIdx? q = (cs.findIdx? q).map (left p cs) := by
  induction cs with
  | nil => simp
  | cons c cs ih =>
      rw [List.forall_mem_cons] at hp
      have hrest := ih hp.2
      cases hc : p c with
      | true =>
          rw [prunes_cons_of_pos hc, List.findIdx?_cons, hp.1 hc, hrest, if_neg (by simp), Option.map_map]
          simp only [Function.comp_def, left_cons_of_pos hc]
      | false =>
          rw [prunes_cons_of_neg hc, List.findIdx?_cons, List.findIdx?_cons, hq, hrest]
          split
          · rw [Option.map_some, left_zero]
          · simp only [Option.map_map, Function.comp_def, left_cons_of_neg hc]

theorem prune_false (r : Region α) : prune (fun _ => false) r = r := by
  induction r using Region.induction with
  | node r ih =>
      have hchildren : prunes (fun _ => false) r.children = r.children := by
        rw [prunes_eq, List.filter_eq_self.2 (by simp)]
        exact (List.map_congr_left ih).trans (List.map_id r.children)
      rw [prune_eq, hchildren]
      cases r
      rfl

end Region

open Region

namespace Node

variable {p : Node → Bool} {n m : Node} {cs ds : List Node}

/-- Whether picked nodes stand between an equals sign and the first node behind one that is neither picked nor
a comment. The flags say that an equals sign stands before the row, and picked nodes behind it. -/
def blocks (p : Node → Bool) : Bool → Bool → List Node → Bool
  | _, _, [] => false
  | seen, passed, c :: cs =>
    if p c then blocks p seen seen cs
    else if seen && !c.isComment then passed
    else blocks p (c.type == "=") false cs

/-- Whether an import looks for an entity behind an equals sign and picked nodes stand between them. -/
def isBlocked (p : Node → Bool) (n : Node) : Bool :=
  n.kind == .importEquals && n.type == "import_alias" &&
    (n.childOfKind? .externalModuleReference).isNone && blocks p false false n.children

theorem behindEquals?_eq_map (i : Nat) (seen : Bool) (cs : List Node) :
    behindEquals? i seen cs = (behindEquals? 0 seen cs).map (· + i) := by
  induction cs generalizing i seen with
  | nil => rfl
  | cons c cs ih =>
      rw [behindEquals?, behindEquals?]
      split
      · simp
      · rw [ih (i + 1), ih (0 + 1), Option.map_map]
        congr 1
        funext j
        simp only [Function.comp_apply]
        omega

/-- Behind an equals sign the same node is found exactly if no picked nodes stand between them. -/
theorem behindEquals?_prunes_iff (hp : PicksComments p) (seen passed : Bool) (cs : List Node) :
    behindEquals? 0 seen (prunes p cs) = (behindEquals? 0 (seen && !passed) cs).map (left p cs) ↔
      blocks p seen passed cs = false := by
  induction cs generalizing seen passed with
  | nil => simp [behindEquals?, blocks]
  | cons c cs ih =>
      cases hc : p c with
      | true =>
          have hequals : (c.type == "=") = false := by simp [(hp c hc).1]
          have hrest := ih seen seen
          rw [Bool.and_not_self] at hrest
          rw [prunes_cons_of_pos hc, blocks, if_pos hc, ← hrest, behindEquals?, hp.isComment hc,
            Bool.not_true, Bool.and_false, if_neg (by simp), hequals, behindEquals?_eq_map (0 + 1),
            Option.map_map]
          simp only [Function.comp_def, left_cons_of_pos hc]
      | false =>
          have hbehind : (behindEquals? (0 + 1) (c.type == "=") cs).map (left p (c :: cs)) =
              ((behindEquals? 0 (c.type == "=") cs).map (left p cs)).map (· + 1) := by
            rw [behindEquals?_eq_map (0 + 1), Option.map_map, Option.map_map]
            simp only [Function.comp_def, left_cons_of_neg hc]
          rw [prunes_cons_of_neg hc, blocks, hc, behindEquals?, behindEquals?, isComment_prune, type_prune,
            if_neg Bool.false_ne_true]
          cases hfound : seen && !c.isComment with
          | true =>
              obtain ⟨rfl, hcomment⟩ := Bool.and_eq_true_iff.1 hfound
              cases passed with
              | true => simp [hbehind]
              | false => simp [hcomment]
          | false =>
              have hnot : (seen && !passed && !c.isComment) = false := by
                rw [Bool.and_right_comm, hfound, Bool.false_and]
              have hrest := ih (c.type == "=") false
              rw [Bool.not_false, Bool.and_true] at hrest
              rw [hnot, if_neg Bool.false_ne_true, if_neg Bool.false_ne_true, if_neg Bool.false_ne_true,
                hbehind, behindEquals?_eq_map (0 + 1), ← hrest]
              exact (Option.map_injective (add_left_injective 1)).eq_iff

theorem childOfKind?_prune (hp : PicksComments p) {kind : Kind} (hkind : kind ≠ .other) (n : Node) :
    childOfKind? (prune p n) kind = (n.childOfKind? kind).map (left p n.children) := by
  rw [childOfKind?, childOfKind?, children_prune]
  refine findIdx?_prunes (fun c => by rw [kind_prune]) fun c _ hc => ?_
  rw [(hp c hc).2.1]
  exact beq_eq_false_iff_ne.2 hkind.symm

theorem childOfType?_prune (hp : PicksComments p) {type : String} (htype : type ≠ "comment") (n : Node) :
    childOfType? (prune p n) type = (n.childOfType? type).map (left p n.children) := by
  rw [childOfType?, childOfType?, children_prune]
  refine findIdx?_prunes (fun c => by rw [type_prune]) fun c _ hc => ?_
  rw [(hp c hc).1]
  exact beq_eq_false_iff_ne.2 htype.symm

theorem leftAddress_singleton (p : Node → Bool) (n : Node) (i : Nat) :
    leftAddress p n [i] = [left p n.children i] := by
  rw [leftAddress]
  split <;> simp

theorem clauseAddress_prune (hp : PicksComments p) (n : Node) :
    (match (n.childOfType? "import_require_clause").map (left p n.children) with
      | none => none
      | some i => do
        let clause : Node ← (prune p n).children[i]?
        let j ← clause.childOfKind? .externalModuleReference
        pure [i, j]) =
    Option.map (leftAddress p n) (match n.childOfType? "import_require_clause" with
      | none => none
      | some i => do
        let clause : Node ← n.children[i]?
        let j ← clause.childOfKind? .externalModuleReference
        pure [i, j]) := by
  cases hclause : n.childOfType? "import_require_clause" with
  | none => rfl
  | some i =>
      obtain ⟨hi, hclauseType, -⟩ := List.findIdx?_eq_some_iff_getElem.1 hclause
      have hget := List.getElem?_eq_getElem hi
      have hunpicked : p n.children[i] = false := hp.eq_false (by
        rw [beq_iff_eq.1 hclauseType]
        decide)
      simp only [Option.map_some, children_prune]
      rw [getElem?_prunes hget hunpicked, hget]
      simp only [bind, pure, Option.bind_some, childOfKind?_prune hp (show
        Kind.externalModuleReference ≠ .other by decide)]
      cases hreference : childOfKind? n.children[i] .externalModuleReference with
      | none => rfl
      | some j =>
          obtain ⟨hj, -⟩ := List.findIdx?_eq_some_iff_getElem.1 hreference
          simp only [Option.map_some, Option.bind_some]
          rw [leftAddress_cons hget, leftAddress_singleton]

/-- Without picked comments an import refers to the same exactly if none of them stands between its equals
sign and the entity. -/
theorem referenceAddress?_prune_iff (hp : PicksComments p) :
    referenceAddress? (prune p n) = n.referenceAddress?.map (leftAddress p n) ↔
      n.isBlocked p = false := by
  rw [referenceAddress?, referenceAddress?, kind_prune, type_prune, childOfKind?_prune hp (by decide),
    childOfType?_prune hp (by decide)]
  split_ifs with hkind htype
  · exact iff_of_true rfl (by simp [isBlocked, hkind])
  · have hblocked : n.isBlocked p = ((n.childOfKind? .externalModuleReference).isNone &&
        blocks p false false n.children) := by
      simp [isBlocked, not_not.1 hkind, htype]
    rw [hblocked]
    cases hchild : n.childOfKind? .externalModuleReference with
    | some i =>
        simp [leftAddress_singleton]
    | none =>
        have hbehind := behindEquals?_prunes_iff hp false false n.children
        rw [Bool.false_and] at hbehind
        have hinjective : Function.Injective (Option.map fun i : Nat => [i]) :=
          Option.map_injective List.singleton_injective
        rw [Option.isNone_none, Bool.true_and, ← hbehind, children_prune, ← hinjective.eq_iff]
        simp only [Option.map_none, Option.map_map, Function.comp_def, leftAddress_singleton]
  · refine iff_of_true ?_ (by simp [isBlocked, htype])
    exact clauseAddress_prune hp n

section Corresponding

variable {R : Node → Node → Prop} (hR : ∀ x y, R x y → y.label = x.label)
include hR

theorem findIdx?_of_forall₂ {q : Node → Bool} (h : List.Forall₂ (Corresponding R) cs ds)
    (hq : ∀ x y : Node, y.label = x.label → q y = q x) : ds.findIdx? q = cs.findIdx? q := by
  induction h with
  | nil => rfl
  | cons hxy _ ih => rw [List.findIdx?_cons, List.findIdx?_cons, hq _ _ (hR _ _ hxy.root), ih]

theorem childOfKind?_of_corresponding (h : Corresponding R n m) (k : Kind) :
    m.childOfKind? k = n.childOfKind? k :=
  findIdx?_of_forall₂ hR h.children fun x y hlabel => by rw [kind, kind, hlabel]

theorem behindEquals?_of_forall₂ (h : List.Forall₂ (Corresponding R) cs ds) (i : Nat) (seen : Bool) :
    behindEquals? i seen ds = behindEquals? i seen cs := by
  induction h generalizing i seen with
  | nil => rfl
  | cons hxy _ ih =>
      rw [behindEquals?, behindEquals?, isComment, isComment, type, type, hR _ _ hxy.root, ih]

/-- Corresponding nodes refer to the same address, whatever the offsets. -/
theorem referenceAddress?_of_corresponding (h : Corresponding R n m) :
    m.referenceAddress? = n.referenceAddress? := by
  have htype : m.childOfType? "import_require_clause" = n.childOfType? "import_require_clause" :=
    findIdx?_of_forall₂ hR h.children fun x y hlabel => by rw [type, type, hlabel]
  rw [referenceAddress?, referenceAddress?, kind, kind, type, type, hR _ _ h.root,
    childOfKind?_of_corresponding hR h, htype, behindEquals?_of_forall₂ hR h.children]
  congr 2
  cases n.childOfType? "import_require_clause" with
  | none => rfl
  | some i =>
      have hclause := rel_getElem?_of_forall₂ h.children i
      dsimp only
      generalize n.children[i]? = x at hclause ⊢
      generalize m.children[i]? = y at hclause ⊢
      cases hclause with
      | none => rfl
      | some hxy => simp only [bind, Option.bind_some, childOfKind?_of_corresponding hR hxy]

end Corresponding

/-- What is kept of a node without its offsets. -/
structure Kept where
  label : NodeLabel
  /-- The address of what it refers to among the nodes that are left. -/
  reference : Option (List Nat)
  /-- Whether picked nodes stand between its equals sign and the entity looked for behind it. -/
  blocked : Bool

mutual

/-- A tree without picked nodes, in which nodes know what they refer to. -/
def kept (p : Node → Bool) : Node → Region Kept
  | ⟨label, s, e, cs⟩ =>
    let n : Node := ⟨label, s, e, cs⟩
    ⟨⟨label, n.referenceAddress?.map (leftAddress p n), n.isBlocked p⟩, s, e, keptAll p cs⟩

def keptAll (p : Node → Bool) : List Node → List (Region Kept)
  | [] => []
  | c :: cs => if p c then keptAll p cs else kept p c :: keptAll p cs

end

theorem keptAll_eq (p : Node → Bool) (cs : List Node) :
    keptAll p cs = (cs.filter fun c => !p c).map (kept p) := by
  induction cs with
  | nil => simp [keptAll]
  | cons c cs ih =>
      rw [keptAll, ih]
      cases hc : p c <;> simp [hc]

theorem kept_eq (p : Node → Bool) (n : Node) :
    kept p n = ⟨⟨n.label, n.referenceAddress?.map (leftAddress p n), n.isBlocked p⟩, n.start, n.stop,
      (n.children.filter fun c => !p c).map (kept p)⟩ := by
  obtain ⟨_, _, _, _⟩ := n
  rw [kept, keptAll_eq]

end Node

end DeclBundle
