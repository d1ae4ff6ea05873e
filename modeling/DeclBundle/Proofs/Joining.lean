import DeclBundle.Proofs.NodeOfCst
import DeclBundle.Proofs.Row

/-!
# Rows of parsed nodes

The nodes that are made of a nested tree of the grammar stand in a row (`row_children_ofCst`), since
the statement that two others are put together to begins with the first of them and ends with the second.
What lies in that statement need not be in order: a comment between the word `require` and the bracketed
string would have to lie in the reference, but comes before it or behind it. `SplitImport.Seamless` says
that no such thing is there, and then the statement is tidy (`row_joined`).
-/

namespace DeclBundle

open Region

namespace Text

theorem charIndex?_getD_le {s : List Char} {b b' : Nat} (h : b ≤ b') :
    (charIndex? s b).getD s.length ≤ (charIndex? s b').getD s.length := by
  induction s generalizing b b' with
  | nil => cases b <;> cases b' <;> simp [charIndex?]
  | cons c cs ih =>
      by_cases hb : b < c.utf8Size
      · simp [charIndex?, hb]
      · have hb' : ¬ b' < c.utf8Size := by omega
        have hrest : b - c.utf8Size ≤ b' - c.utf8Size := by omega
        have hmap : ∀ i : Option Nat, (i.map (· + 1)).getD (cs.length + 1) = i.getD cs.length + 1 := by
          intro i
          cases i <;> rfl
        rw [charIndex?, charIndex?, if_neg hb, if_neg hb', List.length_cons, hmap, hmap]
        exact Nat.succ_le_succ (ih hrest)

theorem place_le_place {s : List Char} {b b' : Nat} (h : b ≤ b') : place s b ≤ place s b' := by
  unfold place place?
  split
  · exact h
  · exact charIndex?_getD_le h

theorem byteLength_take_le (s : List Char) {k k' : Nat} (h : k ≤ k') :
    byteLength (s.take k) ≤ byteLength (s.take k') := by
  have hcut : (s.take k').take k = s.take k := by rw [List.take_take, Nat.min_eq_left h]
  have happend := byteLength_append ((s.take k').take k) ((s.take k').drop k)
  rw [List.take_append_drop, hcut] at happend
  omega

/-- The offset in bytes behind a number of characters is that number as an offset in characters. -/
theorem place_byteLength_take {s : List Char} {k : Nat} (h : k ≤ s.length) :
    place s (byteLength (s.take k)) = k := by
  have hsplit := byteLength_append (s.take k) (s.drop k)
  rw [List.take_append_drop] at hsplit
  unfold place place?
  split
  case isTrue hs =>
    have htake := length_le_byteLength (s.take k)
    have hdrop := length_le_byteLength (s.drop k)
    rw [List.length_take] at htake
    rw [List.length_drop] at hdrop
    rw [Option.getD_some]
    omega
  case isFalse =>
    have hindex := charIndex?_byteLength_append (s.take k) (s.drop k)
    rw [List.take_append_drop] at hindex
    rw [hindex, Option.getD_some, List.length_take, Nat.min_eq_left h]

end Text

namespace SplitImport

/-- Nothing with characters lies between the word and the bracketed string: what stands behind the
word begins where the string ends or later. -/
def Seamless (s : SplitImport) : Prop :=
  ∀ c ∈ s.right ++ s.after, c.isWide = true → s.call.stop ≤ c.start

end SplitImport

namespace Node

variable {text : List Char} {P : Node → Nat → Prop} {low high : Nat} {n m : Node} {ns : List Node}

theorem ends_ofCst (text : List Char) (t : Cst) : Ends text (ofCst text t) (Text.place text t.stop) := by
  rw [Ends, stop_ofCst, kind_ofCst, type_ofCst]
  split
  case isFalse => exact Or.inl rfl
  case isTrue hkind =>
    unfold skipBlank
    split
    case h_1 c hc =>
      by_cases hblank : c = ' ' ∨ c = '\t'
      · rw [if_pos hblank]
        refine Or.inr ⟨⟨hkind, Cst.type_of_kindOf_eq_declareKeyword hkind⟩, rfl, ?_⟩
        rcases hblank with rfl | rfl
        · exact Or.inl hc
        · exact Or.inr hc
      · rw [if_neg hblank]
        exact Or.inl rfl
    case h_2 => exact Or.inl rfl

/-- The children of a clause, with those from the word `require` on under one reference if there is
such a word. -/
theorem children_clause {t : Cst} (htype : t.type = "import_require_clause") (text : List Char) :
    (ofCst text t).children = t.children.map (ofCst text) ∨
      ∃ (before : List Cst) (word : Cst) (after : List Cst), t.children = before ++ word :: after ∧
        (ofCst text t).children = before.map (ofCst text) ++
          [⟨referenceLabel, Text.place text word.start,
            Text.place text ((word :: after).getLast (List.cons_ne_nil word after)).stop,
            (word :: after).map (ofCst text)⟩] := by
  rw [children_ofCst]
  cases hword : t.children.any (Cst.isToken "require") with
  | false => exact Or.inl (arrange_of_not_any htype hword text _)
  | true =>
      obtain ⟨i, hi⟩ := Option.isSome_iff_exists.1 (List.findIdx?_isSome.trans hword)
      obtain ⟨before, word, after, hparts, -, hrequire, hbefore⟩ := findIdx?_eq_some_iff_append.1 hi
      refine Or.inr ⟨before, word, after, hparts, ?_⟩
      rw [hparts]
      exact arrange_of_require htype hrequire hbefore text

theorem row_map_ofCst {cs : List Cst} (h : NestedFrom low high cs)
    (hP : ∀ c ∈ cs, P (ofCst text c) (Text.place text c.stop)) :
    Row text P (Text.place text low) (Text.place text high) (cs.map (ofCst text)) := by
  induction cs generalizing low with
  | nil => exact .nil (Text.place_le_place h.le)
  | cons c cs ih =>
      obtain ⟨hlow, hc, hcs⟩ := (nestedFrom_cons low high c cs).1 h
      rw [List.map_cons]
      refine .cons ?_ ?_ (ends_ofCst text c) (hP c List.mem_cons_self)
        (ih hcs fun d hd => hP d (List.mem_cons_of_mem c hd))
      · rw [start_ofCst]
        exact Text.place_le_place hlow
      · rw [start_ofCst]
        exact Text.place_le_place ((nested_iff c).1 hc).1

/-- A row stays one when statements are put together, if each of them may stand in it. -/
theorem row_foldAll
    (hfold : ∀ n m (s : SplitImport), [n, m] <:+: ns → s.Reads text n m → ∀ {low high ms},
      Row text P low high (n :: m :: ms) → Row text P low high (s.joined n m :: ms))
    (h : Row text P low high ns) : Row text P low high (foldAll text ns) := by
  fun_induction foldAll text ns generalizing low with
  | case1 => exact h
  | case2 => exact h
  | case3 n m ns folded hfolded ih =>
      obtain ⟨s, hs, rfl⟩ := fold?_eq_some_iff.1 hfolded
      cases h with
      | cons hlow hn he hP hrest =>
          cases hrest with
          | cons hlow' hm he' hP' hrest' =>
              have htail : ns <:+: n :: m :: ns := (List.suffix_append [n, m] ns).isInfix
              have hns := ih (fun a b s' hab => hfold a b s' (hab.trans htail)) hrest'
              exact hfold n m s (List.prefix_append [n, m] ns).isInfix hs
                (.cons hlow hn he hP (.cons hlow' hm he' hP' hns))
  | case4 n m ns _ ih =>
      cases h with
      | cons hlow hn he hP hrest =>
          have htail : m :: ns <:+: n :: m :: ns := (List.suffix_cons n (m :: ns)).isInfix
          exact .cons hlow hn he hP (ih (fun a b s hab => hfold a b s (hab.trans htail)) hrest)

/-- The children of a node that is made of a nested tree stand in a row. -/
theorem row_children_ofCst {t : Cst} (ht : t.Nested)
    (hP : ∀ c ∈ t.children, P (ofCst text c) (Text.place text c.stop))
    (hreference : ∀ r : Node, Row text P r.start r.stop r.children → P r r.stop)
    (hfold : t.type ≠ "import_require_clause" → ∀ n m (s : SplitImport),
      [n, m] <:+: t.children.map (ofCst text) → s.Reads text n m → ∀ {low high ms},
        Row text P low high (n :: m :: ms) → Row text P low high (s.joined n m :: ms)) :
    Row text P (Text.place text t.start) (Text.place text t.stop) (ofCst text t).children := by
  have hcs := ((nested_iff t).1 ht).2
  by_cases htype : t.type = "import_require_clause"
  · rcases children_clause htype text with h | ⟨before, word, after, hparts, h⟩
    · rw [h]
      exact row_map_ofCst hcs hP
    · rw [h]
      rw [hparts] at hcs hP
      obtain ⟨mid, hfirst, hrest⟩ := hcs.exists_of_append
      obtain ⟨hlast, hle⟩ := hrest.getLast (List.cons_ne_nil word after)
      obtain ⟨hlow, hword, hafter⟩ := (nestedFrom_cons _ _ _ _).1 hlast
      have hinner := (nestedFrom_cons _ _ _ _).2 ⟨le_refl word.start, hword, hafter⟩
      refine (row_map_ofCst hfirst fun c hc => hP c (List.mem_append_left _ hc)).append ?_
      exact .cons (Text.place_le_place hlow) (Text.place_le_place hinner.le) (Or.inl rfl)
        (hreference _ (row_map_ofCst hinner fun c hc => hP c (List.mem_append_right _ hc)))
        (.nil (Text.place_le_place hle))
  · rw [children_ofCst, arrange_of_ne htype]
    exact row_foldAll (hfold htype) (row_map_ofCst hcs hP)

theorem row_ofCst {t : Cst} (ht : t.Nested) :
    Row text (fun _ _ => True) (Text.place text t.start) (Text.place text t.stop)
      (ofCst text t).children := by
  refine row_children_ofCst ht (fun _ _ => trivial) (fun _ _ => trivial) ?_
  intro _ n m s _ hs low high ms h
  cases h with
  | cons hlow hn _ _ hrest =>
      cases hrest with
      | cons hlow' hm he _ hrest' =>
          have hstop : m.stop = _ := he.stop_eq (by simp [hs.following_type])
          exact .cons hlow (hn.trans (hlow'.trans hm)) (Or.inl hstop) trivial hrest'

theorem row_joinedImport {s : SplitImport} {e : Nat} (hs : s.Reads text n m)
    (hseamless : ∀ c ∈ s.right, c.isWide = true → s.call.stop ≤ c.start)
    (himported : Row text (Tidy text) s.imported.start e s.imported.children)
    (hcall : Row text (Tidy text) s.call.start s.call.stop s.call.children) (he : e ≤ s.call.start) :
    Row text (Tidy text) s.imported.start s.call.stop s.joinedImport.children := by
  rw [hs.imported_children] at himported
  obtain ⟨mid, hleft, hword⟩ := himported.exists_of_append
  obtain ⟨e', hmid, hword, hEnds, hTidy, hright⟩ := row_cons_iff.1 hword
  have hle := hright.le
  have hle' := hcall.le
  have hreference : Row text (Tidy text) s.word.start s.call.stop (s.word :: s.call.children) :=
    .cons le_rfl hword hEnds hTidy (hcall.mono_left (hle.trans he))
  -- What has characters behind the word ends before the bracketed string begins.
  have hnone : s.right.filter Region.isWide = [] := by
    rw [List.filter_eq_nil_iff]
    intro c hc hwide
    obtain ⟨e'', -, -, hcEnds, hcle, -⟩ := hright.of_mem hc
    have hstart := hseamless c hc hwide
    have hstop := hcEnds.stop_eq (by simp [hs.type_of_mem_right hc hwide])
    simp only [isWide, decide_eq_true_eq] at hwide
    omega
  have hlt : s.word.start ≤ s.call.stop := by omega
  have hlast : Row text (Tidy text) mid s.call.stop [s.reference] :=
    .cons hmid hlt (Or.inl rfl) (.mk hreference) (.nil le_rfl)
  simp only [SplitImport.joinedImport, List.filter_append, hnone, List.append_nil]
  exact (hleft.filter _).append hlast

theorem row_joined {s : SplitImport} (hs : s.Reads text n m) (hseamless : s.Seamless)
    (h : Row text (Tidy text) low high (n :: m :: ns)) :
    Row text (Tidy text) low high (s.joined n m :: ns) := by
  have hright : ∀ c ∈ s.right, c.isWide = true → s.call.stop ≤ c.start := fun c hc =>
    hseamless c (List.mem_append_left _ hc)
  have hafter : ∀ c ∈ s.after, c.isWide = true → s.call.stop ≤ c.start := fun c hc =>
    hseamless c (List.mem_append_right _ hc)
  obtain ⟨e, hlow, hn, -, hstatement, hmns⟩ := row_cons_iff.1 h
  obtain ⟨e', hm, hm', hmEnds, hfollowing, hns⟩ := row_cons_iff.1 hmns
  rw [tidy_iff, hs.statement_children] at hstatement
  rw [tidy_iff, hs.following_children] at hfollowing
  obtain ⟨mid, hbeforeRow, hstatement⟩ := hstatement.exists_of_append
  obtain ⟨stop, himp, himp', -, himported, hafterRow⟩ := row_cons_iff.1 hstatement
  obtain ⟨callStop, hcall, hcall', hcallEnds, hcallTidy, hrestRow⟩ := row_cons_iff.1 hfollowing
  have hmstop : m.stop = e' := hmEnds.stop_eq (by simp [hs.following_type])
  obtain rfl : s.call.stop = callStop := hcallEnds.stop_eq (by simp [hs.call_type])
  have hle := hafterRow.le
  have hlt : s.imported.start ≤ s.call.stop := by omega
  have hlt' : n.start ≤ m.stop := by omega
  have himport := row_joinedImport hs hright (tidy_iff.1 himported) (tidy_iff.1 hcallTidy) (by omega)
  have hafterRow' : Row text (Tidy text) s.call.stop s.call.stop (s.after.filter Region.isWide) :=
    hafterRow.filter_from hafter (by omega)
  have hmiddle : Row text (Tidy text) mid s.call.stop
      ((s.joinedImport :: s.after).filter Region.isWide) := by
    rw [List.filter_cons]
    split
    · exact .cons himp hlt (Or.inl rfl) (.mk himport) hafterRow'
    · exact hafterRow'.mono_left (by omega)
  refine .cons hlow (hmstop ▸ hlt') (Or.inl hmstop) (.mk ?_) hns
  simp only [SplitImport.joined, List.filter_append]
  exact ((hbeforeRow.filter _).append hmiddle).append hrestRow

end Node

end DeclBundle
