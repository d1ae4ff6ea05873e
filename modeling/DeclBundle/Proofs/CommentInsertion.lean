import DeclBundle.Proofs.Pruning
import DeclBundle.Proofs.Relocation

/-!
# Comments put into a tree

`Cst.Inserted d k l c c'` says that the tree `c'` of the revised text of a draft is the tree `c` of the former
text with comments put in before children, but not in strings; both lie between the places `k` and `l`. The
characters of the comments were put in, and between the nodes others may have been put in too, as a line end
behind a comment.

Without the comments that were put in, which `Draft.picks` tells from the others, the second tree is the
first with other offsets (`Inserted.shifted`), if what was put in spares the children of the statements that
may be put together.
-/

namespace DeclBundle

open Region

namespace Draft

/-- Whether a node is a comment of characters that were put in. -/
def picks (d : Draft) (n : Node) : Bool :=
  n.isComment && n.kind == .other && n.children.isEmpty && n.isWide && d.putIn n.start n.stop

theorem picksComments_picks (d : Draft) : Node.PicksComments d.picks := by
  intro n hn
  simp only [picks, Node.isComment, Bool.and_eq_true, beq_iff_eq, List.isEmpty_iff] at hn
  exact ⟨hn.1.1.1.1, hn.1.1.1.2, hn.1.1.2⟩

theorem formerByte_mono (d : Draft) {k l : Nat} (h : k ≤ l) : d.formerByte k ≤ d.formerByte l := by
  rw [formerByte, formerByte, former_take, former_take]
  exact Text.byteLength_take_le _ (back_mono d h)

theorem revisedByte_mono (d : Draft) {k l : Nat} (h : k ≤ l) : d.revisedByte k ≤ d.revisedByte l := by
  rw [revisedByte, revisedByte, revised_take, revised_take]
  exact Text.byteLength_take_le _ h

end Draft

namespace Cst

mutual

/-- The second tree is the first with comments put in before children; both lie between two places of a
draft. -/
inductive Inserted (d : Draft) : Nat → Nat → Cst → Cst → Prop
  | node (label : GrammarLabel) {k l : Nat} {cs ds : List Cst} :
      k ≤ l → l ≤ d.length → (cs = [] ∨ label.type = "string" → d.Plain k l) →
        InsertedAll d k l cs ds →
          Inserted d k l ⟨label, d.formerByte k, d.formerByte l, cs⟩
            ⟨label, d.revisedByte k, d.revisedByte l, ds⟩

/-- The second row is the first with comments put in, each with a tree of the first row behind it. -/
inductive InsertedAll (d : Draft) : Nat → Nat → List Cst → List Cst → Prop
  | nil {k l : Nat} : k ≤ l → InsertedAll d k l [] []
  | cons {k i j l : Nat} {c c' : Cst} {cs ds : List Cst} :
      k ≤ i → Inserted d i j c c' → InsertedAll d j l cs ds → InsertedAll d k l (c :: cs) (c' :: ds)
  | comment {k i j l : Nat} (named : Bool) {c : Cst} {cs ds : List Cst} :
      k ≤ i → i < j → d.putIn i j = true → InsertedAll d j l (c :: cs) ds →
        InsertedAll d k l (c :: cs)
          (⟨⟨"comment", named, none⟩, d.revisedByte i, d.revisedByte j, []⟩ :: ds)

end

variable {d : Draft} {k l : Nat} {c c' t t' : Cst} {cs ds : List Cst}

theorem Inserted.bounds (h : Inserted d k l c c') :
    k ≤ l ∧ l ≤ d.length ∧ c.start = d.formerByte k ∧ c.stop = d.formerByte l ∧
      c'.start = d.revisedByte k ∧ c'.stop = d.revisedByte l ∧ c'.label = c.label := by
  cases h with
  | node label hkl hl _ _ => exact ⟨hkl, hl, rfl, rfl, rfl, rfl, rfl⟩

theorem InsertedAll.le : ∀ {k l : Nat} {cs ds : List Cst}, InsertedAll d k l cs ds → k ≤ l
  | _, _, _, _, .nil hkl => hkl
  | _, _, _, _, .cons hki hc hrest => hki.trans (hc.bounds.1.trans hrest.le)
  | _, _, _, _, .comment _ hki hij _ hrest => hki.trans (hij.le.trans hrest.le)

theorem InsertedAll.eq_nil (h : InsertedAll d k l cs []) : cs = [] := by
  cases h
  rfl

mutual

/-- Whether the second tree is the first with comments put in before children. -/
def inserts (d : Draft) (k l : Nat) : Cst → Cst → Bool
  | ⟨label, s, e, cs⟩, ⟨label', s', e', ds⟩ =>
    decide (label' = label ∧ s = d.formerByte k ∧ e = d.formerByte l ∧ s' = d.revisedByte k ∧
      e' = d.revisedByte l ∧ k ≤ l ∧ l ≤ d.length ∧ (cs = [] ∨ label.type = "string" → d.Plain k l)) &&
        insertsAll d k l cs ds

def insertsAll (d : Draft) (k l : Nat) : List Cst → List Cst → Bool
  | [], [] => decide (k ≤ l)
  | c :: cs, ⟨label, s, e, es⟩ :: ds =>
    let i := Text.place d.revised s
    let j := Text.place d.revised e
    decide (k ≤ i) && (inserts d i j c ⟨label, s, e, es⟩ && insertsAll d j l cs ds ||
      decide (label = ⟨"comment", label.named, none⟩ ∧ s = d.revisedByte i ∧ e = d.revisedByte j ∧ es = [] ∧
        i < j ∧ d.putIn i j = true) && insertsAll d j l (c :: cs) ds)
  | _, _ => false

end

mutual

theorem inserts_iff : ∀ {k l : Nat} (c : Cst) {c' : Cst}, inserts d k l c c' = true ↔ Inserted d k l c c'
  | k, l, ⟨label, s, e, cs⟩, ⟨label', s', e', ds⟩ => by
    rw [inserts, Bool.and_eq_true, decide_eq_true_eq]
    constructor
    · rintro ⟨⟨rfl, rfl, rfl, rfl, rfl, hkl, hl, hplain⟩, hrow⟩
      exact .node label' hkl hl hplain ((insertsAll_iff hl cs).1 hrow)
    · intro h
      cases h with
      | node label hkl hl hplain hrow =>
        exact ⟨⟨rfl, rfl, rfl, rfl, rfl, hkl, hl, hplain⟩, (insertsAll_iff hl cs).2 hrow⟩

theorem insertsAll_iff : ∀ {k l : Nat}, l ≤ d.length → ∀ (cs : List Cst) {ds : List Cst},
    insertsAll d k l cs ds = true ↔ InsertedAll d k l cs ds
  | _, _, _, [], [] => by
    rw [insertsAll, decide_eq_true_eq]
    exact ⟨.nil, fun h => h.le⟩
  | _, _, _, [], _ :: _ => by
    rw [insertsAll]
    · exact iff_of_false Bool.false_ne_true nofun
    · nofun
    · nofun
  | _, _, _, _ :: _, [] => by
    rw [insertsAll]
    · exact iff_of_false Bool.false_ne_true nofun
    · nofun
    · nofun
  | k, l, hl, c :: cs, ⟨label, s, e, es⟩ :: ds => by
    rw [insertsAll, Bool.and_eq_true, Bool.or_eq_true, Bool.and_eq_true, Bool.and_eq_true,
      decide_eq_true_eq, decide_eq_true_eq, inserts_iff, insertsAll_iff hl cs, insertsAll_iff hl (c :: cs)]
    constructor
    · rintro ⟨hki, ⟨hc, hrest⟩ | ⟨⟨hlabel, hs, he, rfl, hij, hputIn⟩, hrest⟩⟩
      · exact .cons hki hc hrest
      · rw [hlabel, hs, he]
        exact .comment label.named hki hij hputIn hrest
    · intro h
      cases h with
      | cons hki hc hrest =>
        obtain ⟨hij, hj, -, -, hs, he, -⟩ := hc.bounds
        obtain rfl : s = _ := hs
        obtain rfl : e = _ := he
        rw [Draft.place_revisedByte (hij.trans hj), Draft.place_revisedByte hj]
        exact ⟨hki, Or.inl ⟨hc, hrest⟩⟩
      | comment named hki hij hputIn hrest =>
        have hj := hrest.le.trans hl
        rw [Draft.place_revisedByte (hij.le.trans hj), Draft.place_revisedByte hj]
        exact ⟨hki, Or.inr ⟨⟨rfl, rfl, rfl, rfl, hij, hputIn⟩, hrest⟩⟩

end

instance (d : Draft) (k l : Nat) (c c' : Cst) : Decidable (Inserted d k l c c') :=
  decidable_of_iff _ (inserts_iff c)

mutual

theorem Inserted.nested : ∀ {k l : Nat} {c c' : Cst}, Inserted d k l c c' → c.Nested ∧ c'.Nested
  | _, _, _, _, .node label hkl _ _ hrow => by
      obtain ⟨hcs, hds⟩ := hrow.nested
      exact ⟨(nested_iff _).2 ⟨d.formerByte_mono hkl, hcs⟩,
        (nested_iff _).2 ⟨d.revisedByte_mono hkl, hds⟩⟩

theorem InsertedAll.nested : ∀ {k l : Nat} {cs ds : List Cst}, InsertedAll d k l cs ds →
    NestedFrom (d.formerByte k) (d.formerByte l) cs ∧ NestedFrom (d.revisedByte k) (d.revisedByte l) ds
  | _, _, _, _, .nil hkl =>
      ⟨(nestedFrom_nil _ _).2 (d.formerByte_mono hkl), (nestedFrom_nil _ _).2 (d.revisedByte_mono hkl)⟩
  | _, _, _, _, .cons hki hc hrest => by
      obtain ⟨-, -, hstart, hstop, hstart', hstop', -⟩ := hc.bounds
      obtain ⟨hnested, hnested'⟩ := hc.nested
      obtain ⟨hcs, hds⟩ := hrest.nested
      rw [nestedFrom_cons, nestedFrom_cons, hstart, hstop, hstart', hstop']
      exact ⟨⟨d.formerByte_mono hki, hnested, hcs⟩, d.revisedByte_mono hki, hnested', hds⟩
  | _, _, _, _, .comment named hki hij _ hrest => by
      refine ⟨hrest.nested.1.mono_left (d.formerByte_mono (hki.trans hij.le)),
        (nestedFrom_cons _ _ _ _).2 ⟨d.revisedByte_mono hki,
          (nested_iff _).2 ⟨d.revisedByte_mono hij.le, ?_⟩, hrest.nested.2⟩⟩
      exact (nestedFrom_nil _ _).2 (d.revisedByte_mono hij.le)

end

mutual

theorem Inserted.fits : ∀ {k l : Nat} {c c' : Cst}, Inserted d k l c c' →
    fits d.former c = true ∧ Cst.fits d.revised c' = true
  | k, l, _, _, .node label _ _ _ hrow => by
      obtain ⟨hcs, hds⟩ := hrow.fitAll
      simp only [Cst.fits, hcs, hds, Text.isSome_place?_of_isBoundary (d.isBoundary_formerByte _),
        Text.isSome_place?_of_isBoundary (d.isBoundary_revisedByte _), Bool.and_self, and_self]

theorem InsertedAll.fitAll : ∀ {k l : Nat} {cs ds : List Cst}, InsertedAll d k l cs ds →
    fitAll d.former cs = true ∧ Cst.fitAll d.revised ds = true
  | _, _, _, _, .nil _ => by simp [Cst.fitAll]
  | _, _, _, _, .cons _ hc hrest => by
      obtain ⟨hfits, hfits'⟩ := hc.fits
      obtain ⟨hcs, hds⟩ := hrest.fitAll
      simp only [Cst.fitAll, hfits, hfits', hcs, hds, Bool.and_self, and_self]
  | _, _, _, _, .comment _ _ _ _ hrest => by
      obtain ⟨hcs, hds⟩ := hrest.fitAll
      refine ⟨hcs, ?_⟩
      simp only [Cst.fitAll, Cst.fits, hds,
        Text.isSome_place?_of_isBoundary (d.isBoundary_revisedByte _), Bool.and_self]

end

mutual

theorem Inserted.commented : ∀ {k l : Nat} {c c' : Cst}, Inserted d k l c c' → Commented c c'
  | _, _, _, _, .node label _ _ _ hrow => .node label _ _ _ _ hrow.commentedAll

theorem InsertedAll.commentedAll : ∀ {k l : Nat} {cs ds : List Cst}, InsertedAll d k l cs ds →
    CommentedAll cs ds
  | _, _, _, _, .nil _ => .nil
  | _, _, _, _, .cons _ hc hrest => .cons hc.commented hrest.commentedAll
  | _, _, _, _, .comment _ _ _ _ hrest => .comment ⟨rfl, rfl⟩ hrest.commentedAll

end

/-- Whether a tree of the revised text is a comment of characters that were put in. -/
abbrev isPutIn (d : Draft) (t : Cst) : Bool := picked d.revised d.picks t

theorem Inserted.isPutIn_eq_false (h : Inserted d k l c c') : isPutIn d c' = false := by
  rw [Bool.eq_false_iff]
  intro hpicked
  obtain ⟨hkl, hl, -, -, hstart, hstop, -⟩ := h.bounds
  simp only [Cst.isPutIn, picked, Draft.picks, Bool.and_eq_true, List.isEmpty_iff, isWide,
    decide_eq_true_eq] at hpicked
  obtain ⟨⟨⟨⟨hcomment, -⟩, hleaf⟩, hwide⟩, hputIn⟩ := hpicked
  have htype : (Node.ofCst d.revised c').type = "comment" := beq_iff_eq.1 hcomment
  have hends := (Node.ends_ofCst d.revised c').stop_eq (by simp [htype])
  rw [hstop, Draft.place_revisedByte hl] at hends
  rw [Node.start_ofCst, hstart, Draft.place_revisedByte (hkl.trans hl), hends] at hwide hputIn
  rw [Node.children_ofCst_eq_nil_iff] at hleaf
  cases h with
  | node label _ _ hplain hrow =>
      obtain rfl : _ = [] := hleaf
      have hnone := Draft.putIn_eq_false_of_plain (hplain (Or.inl hrow.eq_nil)) hwide hl
      rw [hnone] at hputIn
      cases hputIn

theorem isPutIn_comment {i j : Nat} (named : Bool) (hij : i < j) (hj : j ≤ d.length)
    (hputIn : d.putIn i j = true) :
    isPutIn d ⟨⟨"comment", named, none⟩, d.revisedByte i, d.revisedByte j, []⟩ = true := by
  have hkind : kindOf ⟨"comment", named, none⟩ [] = (.other, false) := by
    cases named <;> decide
  have hplace := Draft.place_revisedByte (hij.le.trans hj)
  have hplace' := Draft.place_revisedByte hj
  simp only [isPutIn, picked, Draft.picks, Node.isComment, Node.type_ofCst, Node.kind_ofCst, isWide,
    Node.start_ofCst, Node.stop_ofCst, type, hkind, hplace, hplace']
  simp [hij, hputIn, Node.children_ofCst_eq_nil_iff]

theorem PicksComments.of_children {text : List Char} {p : Node → Bool}
    (hself : picked text p t = true → IsComment t)
    (hlast : ∀ c ∈ t.children.getLast?, picked text p c = false)
    (h : ∀ c ∈ t.children, PicksComments text p c) : PicksComments text p t where
  comment x hx := by
    rcases mem_preorder_iff.1 hx with rfl | ⟨c, hc, hx⟩
    · exact hself
    · exact (h c hc).comment x hx
  last x hx := by
    rcases mem_preorder_iff.1 hx with rfl | ⟨c, hc, hx⟩
    · exact hlast
    · exact (h c hc).last x hx

mutual

/-- What was put in are comments in no role, and none of them comes last. -/
theorem Inserted.picksComments : ∀ {k l : Nat} {c c' : Cst}, Inserted d k l c c' →
    PicksComments d.revised d.picks c'
  | k, l, _, _, .node label hkl hl hplain hrow => by
      obtain ⟨hlast, hchildren⟩ := hrow.picksComments
      have hself := (Inserted.node label hkl hl hplain hrow).isPutIn_eq_false
      exact .of_children (fun hpicked => absurd (hself.symm.trans hpicked) (by simp)) hlast hchildren

theorem InsertedAll.picksComments : ∀ {k l : Nat} {cs ds : List Cst}, InsertedAll d k l cs ds →
    (∀ c ∈ ds.getLast?, isPutIn d c = false) ∧ ∀ c ∈ ds, PicksComments d.revised d.picks c
  | _, _, _, _, .nil _ => by simp
  | _, _, _, _ :: ds, .cons _ hc hrest => by
      obtain ⟨hlast, hchildren⟩ := hrest.picksComments
      refine ⟨?_, List.forall_mem_cons.2 ⟨hc.picksComments, hchildren⟩⟩
      cases ds with
      | nil => simpa using hc.isPutIn_eq_false
      | cons e es => simpa using hlast
  | _, _, _, _ :: ds, .comment named _ _ _ hrest => by
      obtain ⟨hlast, hchildren⟩ := hrest.picksComments
      refine ⟨?_, List.forall_mem_cons.2 ⟨.of_children (fun _ => ⟨rfl, rfl⟩) (by simp) (by simp), hchildren⟩⟩
      cases ds with
      | nil => exact absurd hrest.eq_nil (List.cons_ne_nil _ _)
      | cons e es => simpa using hlast

end

/-- The children of statements that may be halves of split imports, and of the imports in them, are spared by
what was put in. -/
def Spares (d : Draft) (t : Cst) : Prop :=
  ∀ x ∈ t.preorder, type x ∈ halfTypes → ∀ c ∈ x.children, isPutIn d c = false →
    Spared d (Text.place d.revised c.start) (Text.place d.revised c.stop) c

instance (d : Draft) (t : Cst) : Decidable (Spares d t) :=
  inferInstanceAs (Decidable (∀ x ∈ t.preorder, type x ∈ halfTypes → ∀ c ∈ x.children, isPutIn d c = false →
    Spared d (Text.place d.revised c.start) (Text.place d.revised c.stop) c))

theorem Spares.of_mem (h : Spares d t) (hc : c ∈ t.children) : Spares d c :=
  fun x hx => h x (mem_preorder_of_mem hc hx)

theorem Inserted.shiftedAt (h : Inserted d k l c c') : ShiftedAt d k l c (prune (isPutIn d) c') := by
  cases h with
  | node label hkl hl hplain _ =>
      exact ⟨by simp, hkl, hl, rfl, rfl, by simp, by simp, fun hstring => hplain (Or.inr hstring)⟩

theorem Inserted.spared (h : Inserted d k l c c')
    (hspared : Spared d (Text.place d.revised c'.start) (Text.place d.revised c'.stop) c') :
    Spared d k l c := by
  obtain ⟨hkl, hl, -, -, hstart, hstop, hlabel⟩ := h.bounds
  rw [hstart, hstop, Draft.place_revisedByte (hkl.trans hl), Draft.place_revisedByte hl] at hspared
  refine ⟨fun hkeyword => hspared.keyword ?_, fun hname => hspared.name ?_, hspared.wide⟩
  · rwa [isToken, hlabel]
  · rwa [type, hlabel]

theorem InsertedAll.spared : ∀ {k l : Nat} {cs ds : List Cst}, InsertedAll d k l cs ds → l ≤ d.length →
    (∀ c ∈ ds, isPutIn d c = false →
      Spared d (Text.place d.revised c.start) (Text.place d.revised c.stop) c) →
        List.Forall₂ (fun c u => ∃ k l, ShiftedAt d k l c u ∧ Spared d k l c) cs
          (prunes (isPutIn d) ds)
  | _, _, _, _, .nil _, _, _ => by simp
  | _, _, _, _, .cons _ hc hrest, hl, hspared => by
      rw [List.forall_mem_cons] at hspared
      rw [prunes_cons_of_neg hc.isPutIn_eq_false]
      exact .cons ⟨_, _, hc.shiftedAt, hc.spared (hspared.1 hc.isPutIn_eq_false)⟩ (hrest.spared hl hspared.2)
  | _, _, _, _, .comment named _ hij hputIn hrest, hl, hspared => by
      rw [List.forall_mem_cons] at hspared
      rw [prunes_cons_of_pos (isPutIn_comment named hij (hrest.le.trans hl) hputIn)]
      exact hrest.spared hl hspared.2

mutual

/-- Without the comments that were put in the second tree is the first with other offsets. -/
theorem Inserted.shifted : ∀ {k l : Nat} {c c' : Cst}, Inserted d k l c c' → Spares d c' →
    Corresponding (Shifted d) c (prune (isPutIn d) c')
  | k, l, _, _, .node label hkl hl hplain hrow, hspares => by
      refine corresponding_of_children ⟨⟨k, l, (Inserted.node label hkl hl hplain hrow).shiftedAt⟩,
        fun hhalf => ?_⟩ ?_
      · rw [children_prune]
        exact hrow.spared hl (hspares _ (mem_preorder_self _) hhalf)
      · rw [children_prune]
        exact hrow.shifted hl fun x hx => hspares.of_mem hx

theorem InsertedAll.shifted : ∀ {k l : Nat} {cs ds : List Cst}, InsertedAll d k l cs ds →
    l ≤ d.length → (∀ x ∈ ds, Spares d x) →
      List.Forall₂ (Corresponding (Shifted d)) cs (prunes (isPutIn d) ds)
  | _, _, _, _, .nil _, _, _ => by simp
  | _, _, _, _, .cons _ hc hrest, hl, hspares => by
      rw [List.forall_mem_cons] at hspares
      rw [prunes_cons_of_neg hc.isPutIn_eq_false]
      exact .cons (hc.shifted hspares.1) (hrest.shifted hl hspares.2)
  | _, _, _, _, .comment named _ hij hputIn hrest, hl, hspares => by
      rw [List.forall_mem_cons] at hspares
      rw [prunes_cons_of_pos (isPutIn_comment named hij (hrest.le.trans hl) hputIn)]
      exact hrest.shifted hl hspares.2

end

end Cst

end DeclBundle
