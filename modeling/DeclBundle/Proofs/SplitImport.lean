import DeclBundle.Syntax.Require

/-!
# Split imports

What `fold?` puts together, said without positions. A `SplitImport` names the parts of an export that
ends with an import of the word `require` and of the statement behind it that begins with a bracketed
string; `Reads` says that two statements have these parts, and `joined` is the one statement that is
made of them. `fold?` gives that statement and nothing else (`fold?_eq_some_iff`).
-/

namespace DeclBundle

theorem findIdx?_eq_some_iff_append {α : Type} {p : α → Bool} {xs : List α} {i : Nat} :
    xs.findIdx? p = some i ↔
      ∃ as b bs, xs = as ++ b :: bs ∧ as.length = i ∧ p b = true ∧ ∀ a ∈ as, p a = false := by
  constructor
  · intro h
    induction xs generalizing i with
    | nil => simp at h
    | cons x xs ih =>
        rw [List.findIdx?_cons] at h
        split at h
        case isTrue hx =>
          obtain rfl : 0 = i := Option.some.inj h
          exact ⟨[], x, xs, rfl, rfl, hx, by simp⟩
        case isFalse hx =>
          obtain ⟨j, hj, rfl⟩ := Option.map_eq_some_iff.1 h
          obtain ⟨as, b, bs, rfl, rfl, hb, has⟩ := ih hj
          exact ⟨x :: as, b, bs, rfl, rfl, hb, by simpa [hx] using has⟩
  · rintro ⟨as, b, bs, rfl, rfl, hb, has⟩
    rw [List.findIdx?_append, List.findIdx?_eq_none_iff.2 has, List.findIdx?_cons, if_pos hb]
    simp

/-- The parts of an import of the word `require` under an export, and of the bracketed string behind
it. -/
structure SplitImport where
  before : List Node
  imported : Node
  after : List Node
  left : List Node
  word : Node
  right : List Node
  call : Node
  rest : List Node

namespace SplitImport

/-- Two statements have the parts of a split import: the first import in the export ends with the
word, and the other statement begins with the bracketed string. -/
structure Reads (text : List Char) (statement following : Node) (s : SplitImport) : Prop where
  statement_type : statement.type = "export_statement"
  statement_children : statement.children = s.before ++ s.imported :: s.after
  before_type : ∀ c ∈ s.before, c.type ≠ "import_alias"
  imported_type : s.imported.type = "import_alias"
  imported_children : s.imported.children = s.left ++ s.word :: s.right
  right_isToken : ∀ c ∈ s.right, c.isToken = false
  word_isToken : s.word.isToken = true
  word_type : s.word.type = "identifier"
  word_slice : s.word.slice text = "require".toList
  following_type : following.type = "expression_statement"
  following_children : following.children = s.call :: s.rest
  call_type : s.call.type = "parenthesized_expression"
  call_tokens :
    (s.call.children.filter fun (c : Node) => !c.isComment).map Node.type = ["(", "string", ")"]

theorem Reads.type_of_mem_right {text : List Char} {n m : Node} {s : SplitImport}
    (h : Reads text n m s) {c : Node} (hc : c ∈ s.right) (hwide : c.isWide = true) :
    c.type = "comment" := by
  have htoken := h.right_isToken c hc
  rw [Node.isToken, hwide, Bool.true_and, Bool.not_eq_false'] at htoken
  exact beq_iff_eq.1 htoken

def reference (s : SplitImport) : Node :=
  ⟨Node.referenceLabel, s.word.start, s.call.stop, s.word :: s.call.children⟩

def joinedImport (s : SplitImport) : Node :=
  { s.imported with
    stop := s.call.stop
    children := (s.left ++ s.right).filter Region.isWide ++ [s.reference] }

def joined (statement following : Node) (s : SplitImport) : Node :=
  { statement with
    stop := following.stop
    children := (s.before ++ s.joinedImport :: s.after).filter Region.isWide ++ s.rest }

end SplitImport

namespace Node

theorem lastToken?_eq_some_iff {children : List Node} {j : Nat} :
    lastToken? children = some j ↔
      ∃ (left : List Node) (word : Node) (right : List Node), children = left ++ word :: right ∧
        left.length = j ∧ word.isToken = true ∧ ∀ c ∈ right, c.isToken = false := by
  unfold lastToken?
  constructor
  · intro h
    split at h
    case h_1 => cases h
    case h_2 i hi =>
      obtain ⟨as, b, bs, hrev, rfl, hb, has⟩ := findIdx?_eq_some_iff_append.1 hi
      have hcs : children = bs.reverse ++ b :: as.reverse := by
        rw [← List.reverse_reverse children, hrev]
        simp
      refine ⟨bs.reverse, b, as.reverse, hcs, ?_, hb, by simpa using has⟩
      rw [← Option.some.inj h, hcs]
      simp only [List.length_append, List.length_cons, List.length_reverse]
      omega
  · rintro ⟨left, word, right, rfl, rfl, hword, hright⟩
    have hfind : (left ++ word :: right).reverse.findIdx? (fun (c : Node) => c.isToken) =
        some right.length :=
      findIdx?_eq_some_iff_append.2
        ⟨right.reverse, word, left.reverse, by simp, by simp, hword, by simpa using hright⟩
    rw [hfind]
    simp only [List.length_append, List.length_cons, Option.some.injEq]
    omega

theorem childOfType?_eq_some_iff {n : Node} {type : String} {i : Nat} :
    n.childOfType? type = some i ↔
      ∃ (before : List Node) (c : Node) (after : List Node), n.children = before ++ c :: after ∧
        before.length = i ∧ c.type = type ∧ ∀ b ∈ before, b.type ≠ type := by
  rw [childOfType?, findIdx?_eq_some_iff_append]
  simp

theorem splitRequire?_eq_some_iff {text : List Char} {n : Node} {i j : Nat} :
    splitRequire? text n = some (i, j) ↔
      n.type = "export_statement" ∧
        ∃ (before : List Node) (imported : Node) (after left : List Node) (word : Node)
            (right : List Node),
          n.children = before ++ imported :: after ∧ before.length = i ∧
          imported.type = "import_alias" ∧ (∀ c ∈ before, c.type ≠ "import_alias") ∧
          imported.children = left ++ word :: right ∧ left.length = j ∧ word.isToken = true ∧
          (∀ c ∈ right, c.isToken = false) ∧ word.type = "identifier" ∧
          word.slice text = "require".toList := by
  unfold splitRequire?
  constructor
  · intro h
    split at h
    case isTrue => cases h
    case isFalse htype =>
      simp only [bind, Option.bind_eq_some_iff, Option.ite_none_right_eq_some, Option.some.injEq,
        Prod.mk.injEq] at h
      obtain ⟨i', hi, imported, himp, j', hj, word, hword, ⟨hwtype, hslice⟩, rfl, rfl⟩ := h
      obtain ⟨before, c, after, hcs, rfl, hctype, hbefore⟩ := childOfType?_eq_some_iff.1 hi
      obtain ⟨left, w, right, hws, rfl, hwtok, hright⟩ := lastToken?_eq_some_iff.1 hj
      obtain rfl : c = imported := by simpa [hcs] using himp
      obtain rfl : w = word := by simpa [hws] using hword
      exact ⟨Decidable.not_not.1 htype, before, c, after, left, w, right, hcs, rfl, hctype, hbefore,
        hws, rfl, hwtok, hright, hwtype, hslice⟩
  · rintro ⟨htype, before, imported, after, left, word, right, hcs, rfl, himp, hbefore, hws, rfl,
      hwtok, hright, hwtype, hslice⟩
    have hi : n.childOfType? "import_alias" = some before.length :=
      childOfType?_eq_some_iff.2 ⟨before, imported, after, hcs, rfl, himp, hbefore⟩
    have hj : lastToken? imported.children = some left.length :=
      lastToken?_eq_some_iff.2 ⟨left, word, right, hws, rfl, hwtok, hright⟩
    have himp' : n.children[before.length]? = some imported := by simp [hcs]
    have hword : imported.children[left.length]? = some word := by simp [hws]
    simp only [htype, hi, himp', hj, hword, ne_eq, not_true_eq_false, if_false, bind,
      Option.bind_some]
    exact if_pos ⟨hwtype, hslice⟩

theorem bracketedString?_eq_some_iff {n call : Node} {rest : List Node} :
    bracketedString? n = some (call, rest) ↔
      n.type = "expression_statement" ∧ n.children = call :: rest ∧
        call.type = "parenthesized_expression" ∧
        (call.children.filter fun (c : Node) => !c.isComment).map Node.type =
          ["(", "string", ")"] := by
  unfold bracketedString?
  constructor
  · intro h
    split at h
    case isTrue => cases h
    case isFalse htype =>
      split at h
      case h_1 => cases h
      case h_2 c cs hcs =>
        obtain ⟨⟨hctype, htokens⟩, hpair⟩ := Option.ite_none_right_eq_some.1 h
        obtain ⟨rfl, rfl⟩ := Prod.mk.inj (Option.some.inj hpair)
        exact ⟨Decidable.not_not.1 htype, hcs, hctype, htokens⟩
  · rintro ⟨htype, hcs, hctype, htokens⟩
    simp only [htype, ne_eq, not_true_eq_false, if_false, hcs]
    exact if_pos ⟨hctype, htokens⟩

open SplitImport in
/-- Two statements are put together exactly if they are the parts of a split import. -/
theorem fold?_eq_some_iff {text : List Char} {n m folded : Node} :
    fold? text n m = some folded ↔ ∃ s : SplitImport, s.Reads text n m ∧ folded = s.joined n m := by
  unfold fold?
  constructor
  · intro h
    simp only [bind, Option.bind_eq_some_iff, pure, Option.some.injEq] at h
    obtain ⟨⟨i, j⟩, hsplit, ⟨call, rest⟩, hbracket, imported, himp, word, hword, rfl⟩ := h
    obtain ⟨htype, before, c, after, left, w, right, hcs, rfl, hctype, hbefore, hws, rfl, hwtok,
      hright, hwtype, hslice⟩ := splitRequire?_eq_some_iff.1 hsplit
    obtain ⟨hmtype, hms, hcall, htokens⟩ := bracketedString?_eq_some_iff.1 hbracket
    obtain rfl : c = imported := by simpa [hcs] using himp
    obtain rfl : w = word := by simpa [hws] using hword
    refine ⟨⟨before, c, after, left, w, right, call, rest⟩,
      ⟨htype, hcs, hbefore, hctype, hws, hright, hwtok, hwtype, hslice, hmtype, hms, hcall, htokens⟩,
      ?_⟩
    simp only [joined, joinedImport, reference, withReference, hcs, hws,
      List.set_append_right _ _ (Nat.le_refl _), List.eraseIdx_append_of_length_le (Nat.le_refl _),
      Nat.sub_self, List.set_cons_zero, List.eraseIdx_cons_zero]
  · rintro ⟨s, h, rfl⟩
    have hsplit : splitRequire? text n = some (s.before.length, s.left.length) :=
      splitRequire?_eq_some_iff.2 ⟨h.statement_type, s.before, s.imported, s.after, s.left, s.word,
        s.right, h.statement_children, rfl, h.imported_type, h.before_type, h.imported_children, rfl,
        h.word_isToken, h.right_isToken, h.word_type, h.word_slice⟩
    have hbracket := bracketedString?_eq_some_iff.2
      ⟨h.following_type, h.following_children, h.call_type, h.call_tokens⟩
    have himp : n.children[s.before.length]? = some s.imported := by simp [h.statement_children]
    have hword : s.imported.children[s.left.length]? = some s.word := by simp [h.imported_children]
    simp only [hsplit, hbracket, himp, hword, bind, Option.bind_some, pure]
    simp only [joined, joinedImport, reference, withReference, h.statement_children,
      h.imported_children, List.set_append_right _ _ (Nat.le_refl _),
      List.eraseIdx_append_of_length_le (Nat.le_refl _), Nat.sub_self, List.set_cons_zero,
      List.eraseIdx_cons_zero]

end Node

end DeclBundle
