import DeclBundle.Proofs.Spelling
import DeclBundle.Text.Line

/-!
# Texts without comments

Reading a file unifies its line ends, and `uncomment` drops the comments. Of a text that consists of
tokens and gaps the tokens stay as they are, and white space stays of the gaps (`lays_uncomment`): a
string holds no line end, and what looks like a comment in it is none.

Line ends are unified character by character here (`unifyBehind`), the flag telling that a carriage
return stands before, since a gap may end between the two halves of a line end.
-/

namespace DeclBundle

namespace Text

/-- A text with unified line ends, behind a carriage return or not. -/
def unifyBehind : Bool → List Char → List Char
  | _, [] => []
  | returned, c :: cs =>
    if c = '\r' then '\n' :: unifyBehind true cs
    else if c = '\n' ∧ returned = true then unifyBehind false cs
    else c :: unifyBehind false cs

theorem unifyBehind_true_of_head {s : List Char} (h : s.head? ≠ some '\n') :
    unifyBehind true s = unifyBehind false s := by
  cases s with
  | nil => rfl
  | cons c cs =>
      have hc : c ≠ '\n' := fun heq => h (by rw [heq, List.head?_cons])
      simp [unifyBehind, hc]

theorem unifyLineEnds_eq (s : List Char) : unifyLineEnds s = unifyBehind false s := by
  fun_induction unifyLineEnds s with
  | case1 => rfl
  | case2 cs ih => simp [unifyBehind, ih]
  | case3 cs hcs ih =>
      have hhead : cs.head? ≠ some '\n' := by
        cases cs with
        | nil => simp
        | cons c cs => exact fun h => hcs cs (by rw [Option.some.inj h])
      rw [ih, unifyBehind, if_pos rfl, unifyBehind_true_of_head hhead]
  | case4 c cs _ hcr ih =>
      rw [ih, unifyBehind, if_neg hcr, if_neg (by simp)]

theorem unifyBehind_cons_of_ne {c : Char} (hn : c ≠ '\n') (hr : c ≠ '\r') (returned : Bool)
    (cs : List Char) : unifyBehind returned (c :: cs) = c :: unifyBehind false cs := by
  simp [unifyBehind, hn, hr]

theorem unifyBehind_append {s : List Char} (h : ∀ c ∈ s, c ≠ '\n' ∧ c ≠ '\r') (t : List Char) :
    unifyBehind false (s ++ t) = s ++ unifyBehind false t := by
  induction s with
  | nil => rfl
  | cons c s ih =>
      obtain ⟨hn, hr⟩ := h c List.mem_cons_self
      rw [List.cons_append, unifyBehind_cons_of_ne hn hr, ih fun x hx => h x (List.mem_cons_of_mem c hx),
        List.cons_append]

end Text

namespace Json

open Text

theorem uncomment_line_append {s : List Char} (h : ∀ c ∈ s, c ≠ '\n') (t : List Char) :
    uncomment .line (s ++ '\n' :: t) = '\n' :: uncomment .plain t := by
  induction s with
  | nil => rw [List.nil_append, uncomment]
  | cons c s ih =>
      have hc := h c List.mem_cons_self
      rw [List.cons_append, uncomment, ih fun x hx => h x (List.mem_cons_of_mem c hx)]
      exact hc

/-- A comment between marks is dropped, whatever becomes of the line ends in it. -/
theorem uncomment_block_append {content : List Char} (h : ¬ ['*', '/'] <:+: content)
    (returned : Bool) (t : List Char) :
    uncomment .block (unifyBehind returned (content ++ '*' :: '/' :: t)) =
      uncomment .plain (unifyBehind false t) := by
  induction content generalizing returned with
  | nil =>
      rw [List.nil_append, unifyBehind_cons_of_ne (by decide) (by decide),
        unifyBehind_cons_of_ne (by decide) (by decide), uncomment]
  | cons c content ih =>
      have hcontent : ¬ ['*', '/'] <:+: content := fun hin =>
        h (hin.trans (List.suffix_cons c content).isInfix)
      rw [List.cons_append, unifyBehind]
      split
      · rw [uncomment_block_cons (by simp), ih hcontent]
      · split
        · exact ih hcontent false
        · -- Behind an asterisk of the comment no slash stands.
          have hhead : c = '*' →
              (unifyBehind false (content ++ '*' :: '/' :: t)).head? ≠ some '/' := by
            rintro rfl
            cases content with
            | nil => simp [unifyBehind]
            | cons d content =>
                have hd : d ≠ '/' := by
                  rintro rfl
                  exact h (List.prefix_append ['*', '/'] content).isInfix
                rw [List.cons_append, unifyBehind]
                split
                · simp
                · simp [hd]
          rw [uncomment_block_cons hhead, ih hcontent]

theorem uncomment_gap {gap : List Char} (h : Gap gap) (returned : Bool) (t : List Char) :
    ∃ blanks returned', Blanks blanks ∧
      uncomment .plain (unifyBehind returned (gap ++ t)) =
        blanks ++ uncomment .plain (unifyBehind returned' t) := by
  induction h generalizing returned with
  | nil => exact ⟨[], returned, by simp [Blanks], rfl⟩
  | @blank c gap hc _ ih =>
      rw [List.cons_append, unifyBehind]
      split
      · obtain ⟨blanks, returned', hblanks, heq⟩ := ih true
        refine ⟨'\n' :: blanks, returned', ?_, ?_⟩
        · exact List.forall_mem_cons.2 ⟨by decide, hblanks⟩
        · rw [uncomment_plain_cons (by decide) (by decide), heq, List.cons_append]
      · split
        · exact ih false
        · obtain ⟨blanks, returned', hblanks, heq⟩ := ih false
          have hquote : c ≠ '"' := by
            rintro rfl
            exact absurd hc (by decide)
          have hslash : c ≠ '/' := by
            rintro rfl
            exact absurd hc (by decide)
          refine ⟨c :: blanks, returned', List.forall_mem_cons.2 ⟨hc, hblanks⟩, ?_⟩
          rw [uncomment_plain_cons hquote hslash, heq, List.cons_append]
  | @line content c gap hcontent hc _ ih =>
      obtain ⟨returned₁, hending⟩ : ∃ returned₁, unifyBehind false (c :: (gap ++ t)) =
          '\n' :: unifyBehind returned₁ (gap ++ t) := by
        rcases hc with rfl | rfl
        · exact ⟨false, rfl⟩
        · exact ⟨true, rfl⟩
      obtain ⟨blanks, returned', hblanks, heq⟩ := ih returned₁
      refine ⟨'\n' :: blanks, returned', List.forall_mem_cons.2 ⟨by decide, hblanks⟩, ?_⟩
      rw [List.cons_append, List.cons_append, unifyBehind_cons_of_ne (by decide) (by decide),
        unifyBehind_cons_of_ne (by decide) (by decide), uncomment, List.append_assoc,
        List.cons_append, unifyBehind_append hcontent, hending,
        uncomment_line_append fun x hx => (hcontent x hx).1, heq, List.cons_append]
  | @block content gap hcontent _ ih =>
      obtain ⟨blanks, returned', hblanks, heq⟩ := ih false
      refine ⟨blanks, returned', hblanks, ?_⟩
      rw [List.cons_append, List.cons_append, unifyBehind_cons_of_ne (by decide) (by decide),
        unifyBehind_cons_of_ne (by decide) (by decide), uncomment, List.append_assoc,
        List.cons_append, List.cons_append, uncomment_block_append hcontent, heq]

theorem uncomment_plain_append {s : List Char} (h : ∀ c ∈ s, c ≠ '"' ∧ c ≠ '/') (t : List Char) :
    uncomment .plain (s ++ t) = s ++ uncomment .plain t := by
  induction s with
  | nil => rfl
  | cons c s ih =>
      obtain ⟨hquote, hslash⟩ := h c List.mem_cons_self
      rw [List.cons_append, uncomment_plain_cons hquote hslash,
        ih fun x hx => h x (List.mem_cons_of_mem c hx), List.cons_append]

theorem uncomment_quoted_append {s : List Char} (h : ∀ c ∈ s, c ≠ '"' ∧ c ≠ '\\') (t : List Char) :
    uncomment .quoted (s ++ t) = s ++ uncomment .quoted t := by
  induction s with
  | nil => rfl
  | cons c s ih =>
      obtain ⟨hquote, hslash⟩ := h c List.mem_cons_self
      rw [List.cons_append, uncomment, ih fun x hx => h x (List.mem_cons_of_mem c hx),
        List.cons_append]
      · exact fun d ds hc _ => hslash hc
      · exact hquote

namespace Glyph

theorem ne_lineEnd (g : Glyph) : ∀ c ∈ g.chars, c ≠ '\n' ∧ c ≠ '\r' := by
  have hhex : ∀ (h : Hex), ∀ c ∈ h.chars, c ≠ '\n' ∧ c ≠ '\r' := fun h c hc =>
    ⟨Hex.ne_of_mem_chars hc (by decide), Hex.ne_of_mem_chars hc (by decide)⟩
  cases g with
  | plain c h =>
      rw [chars, List.forall_mem_singleton]
      constructor
      · rintro rfl
        exact absurd h.1 (by decide)
      · rintro rfl
        exact absurd h.1 (by decide)
  | escape letter c h =>
      simp only [chars, List.forall_mem_cons]
      exact ⟨by decide, ⟨ne_of_escape h (by decide), ne_of_escape h (by decide)⟩, by simp⟩
  | code hex h =>
      simp only [chars, List.forall_mem_cons]
      exact ⟨by decide, by decide, hhex hex⟩
  | pair high low h =>
      simp only [chars, List.forall_mem_cons, List.forall_mem_append]
      exact ⟨by decide, by decide, hhex high, by decide, by decide, hhex low⟩

theorem uncomment_chars (g : Glyph) (t : List Char) :
    uncomment .quoted (g.chars ++ t) = g.chars ++ uncomment .quoted t := by
  have hhex : ∀ (h : Hex), ∀ c ∈ h.chars, c ≠ '"' ∧ c ≠ '\\' := fun h c hc =>
    ⟨Hex.ne_of_mem_chars hc (by decide), Hex.ne_of_mem_chars hc (by decide)⟩
  cases g with
  | plain c h =>
      exact uncomment_quoted_append (s := [c]) (by simpa using h.2) t
  | escape letter c h => simp [chars, uncomment]
  | code hex h => simp [chars, uncomment, uncomment_quoted_append (hhex hex)]
  | pair high low h =>
      simp [chars, uncomment, uncomment_quoted_append (hhex high),
        uncomment_quoted_append (hhex low)]

theorem uncomment_spell (gs : List Glyph) (t : List Char) :
    uncomment .quoted (spell gs ++ '"' :: t) = spell gs ++ '"' :: uncomment .plain t := by
  induction gs with
  | nil => rw [spell_nil, List.nil_append, uncomment, List.nil_append]
  | cons g gs ih => rw [spell_cons, List.append_assoc, uncomment_chars, ih, List.append_assoc]

end Glyph

theorem Glyph.ne_lineEnd_of_mem_spell {gs : List Glyph} :
    ∀ c ∈ Glyph.spell gs, c ≠ '\n' ∧ c ≠ '\r' := by
  intro c hc
  obtain ⟨g, -, hg⟩ := List.mem_flatMap.1 hc
  exact g.ne_lineEnd c hg

theorem Token.ne_lineEnd (t : Token) : ∀ c ∈ t.chars, c ≠ '\n' ∧ c ≠ '\r' := by
  cases t with
  | comma => exact List.forall_mem_singleton.2 (by decide)
  | string gs =>
      rw [chars, List.forall_mem_cons, List.forall_mem_append, List.forall_mem_singleton]
      exact ⟨by decide, Glyph.ne_lineEnd_of_mem_spell, by decide⟩
  | _ =>
      intro c hc
      have hbare := isBare_chars ⟨by simp, by simp⟩ c hc
      exact ⟨ne_of_isBare hbare (by decide), ne_of_isBare hbare (by decide)⟩

theorem uncomment_token (t : Token) (returned : Bool) (s : List Char) :
    uncomment .plain (unifyBehind returned (t.chars ++ s)) =
      t.chars ++ uncomment .plain (unifyBehind false s) := by
  have hunify : unifyBehind returned (t.chars ++ s) = t.chars ++ unifyBehind false s := by
    have hflush := t.ne_lineEnd
    cases hchars : t.chars with
    | nil => exact absurd hchars t.chars_ne_nil
    | cons c cs =>
        rw [hchars, List.forall_mem_cons] at hflush
        rw [List.cons_append, unifyBehind_cons_of_ne hflush.1.1 hflush.1.2,
          unifyBehind_append hflush.2, List.cons_append]
  rw [hunify]
  cases t with
  | comma => exact uncomment_plain_cons (by decide) (by decide) _
  | string gs =>
      rw [Token.chars, List.cons_append, List.append_assoc, List.singleton_append, uncomment,
        Glyph.uncomment_spell, List.cons_append, List.append_assoc, List.singleton_append]
  | _ =>
      refine uncomment_plain_append (fun c hc => ?_) _
      have hbare := Token.isBare_chars ⟨by simp, by simp⟩ c hc
      exact ⟨ne_of_isBare hbare (by decide), ne_of_isBare hbare (by decide)⟩

/-- Where tokens stand apart by blanks and comments, blanks stay without the comments. -/
theorem lays_uncomment {ts : List Token} {s : List Char} (h : Lays Gap ts s) :
    Lays Blanks ts (uncomment .plain (unifyLineEnds s)) := by
  rw [unifyLineEnds_eq]
  -- A gap may end behind a carriage return, so the induction is for both values of the flag.
  generalize false = returned
  induction h generalizing returned with
  | @nil gap hgap =>
      obtain ⟨blanks, returned', hblanks, heq⟩ := uncomment_gap hgap returned []
      rw [List.append_nil] at heq
      rw [heq, unifyBehind, uncomment_nil, List.append_nil]
      exact .nil hblanks
  | @cons gap s t ts hgap _ ih =>
      obtain ⟨blanks, returned', hblanks, heq⟩ := uncomment_gap hgap returned (t.chars ++ s)
      rw [heq, uncomment_token]
      exact .cons hblanks (ih false)

end Json

end DeclBundle
