import DeclBundle.Proofs.Spelling

/-!
# Texts without trailing commas

`untrail` drops each comma before a closing bracket, whether it is a token or stands in a string. Of
a text that consists of tokens and blanks the tokens that stay are `untrailTokens` (`lays_untrail`), and
these are the tokens of the spelling without its trailing commas and with shortened strings
(`Spelling.untrailTokens_tokens`). A string stays as it is exactly if it is `Intact`: no comma in it
has a closing bracket behind it with nothing but white space between them.
-/

namespace DeclBundle.Json

@[simp] theorem closes_nil : closes [] = false := rfl

theorem closes_cons (c : Char) (s : List Char) :
    closes (c :: s) = if Text.isBlank c = true then closes s else c == '\x7d' || c == ']' := by
  unfold closes Text.trimLeft
  by_cases h : Text.isBlank c = true
  · rw [List.dropWhile_cons, if_pos h, if_pos h]
  · rw [List.dropWhile_cons, if_neg h, if_neg h]

theorem isBlank_of_isGap {c : Char} (h : isGap c = true) : Text.isBlank c = true := by
  simp only [isGap, Bool.or_eq_true, beq_iff_eq] at h
  rcases h with ((rfl | rfl) | rfl) | rfl <;> decide

theorem closes_blanks_append {gap : List Char} (h : Blanks gap) (s : List Char) :
    closes (gap ++ s) = closes s := by
  induction gap with
  | nil => rfl
  | cons c gap ih =>
      obtain ⟨hc, hgap⟩ := List.forall_mem_cons.1 h
      rw [List.cons_append, closes_cons, if_pos (isBlank_of_isGap hc), ih hgap]

theorem closes_append_quote (s t : List Char) : closes (s ++ '"' :: t) = closes s := by
  induction s with
  | nil =>
      rw [List.nil_append, closes_cons, closes_nil]
      exact if_neg (by decide)
  | cons c s ih => rw [List.cons_append, closes_cons, closes_cons, ih]

theorem untrail_comma (s : List Char) :
    untrail (',' :: s) = if closes s = true then untrail s else ',' :: untrail s := by
  rw [untrail]
  rfl

theorem untrail_append {s : List Char} (h : ∀ c ∈ s, c ≠ ',') (t : List Char) :
    untrail (s ++ t) = s ++ untrail t := by
  induction s with
  | nil => rfl
  | cons c s ih =>
      obtain ⟨hc, hs⟩ := List.forall_mem_cons.1 h
      rw [List.cons_append, untrail, if_neg (by simp [hc]), ih hs, List.cons_append]

theorem Blanks.ne_comma {gap : List Char} (h : Blanks gap) : ∀ c ∈ gap, c ≠ ',' := by
  rintro c hc rfl
  exact absurd (h ',' hc) (by decide)

namespace Glyph

/-- What is left of a string: the commas go before which only white space and a closing bracket
stands. -/
def shorten : List Glyph → List Glyph
  | [] => []
  | g :: gs => if g.chars = [','] ∧ closes (spell gs) = true then shorten gs else g :: shorten gs

/-- No comma of a string has a closing bracket behind it with nothing but white space between them. -/
def Intact (gs : List Glyph) : Prop :=
  ∀ before after, spell gs = before ++ ',' :: after → closes after = false

theorem chars_eq_or (g : Glyph) : g.chars = [','] ∨ ∀ c ∈ g.chars, c ≠ ',' := by
  have hhex : ∀ (h : Hex), ∀ c ∈ h.chars, c ≠ ',' := fun h c hc => Hex.ne_of_mem_chars hc (by decide)
  cases g with
  | plain c h =>
      by_cases hc : c = ','
      · exact Or.inl (by rw [chars, hc])
      · exact Or.inr (by simpa [chars] using hc)
  | escape letter c h =>
      refine Or.inr ?_
      simp only [chars, List.forall_mem_cons]
      exact ⟨by decide, ne_of_escape h (by decide), by simp⟩
  | code hex h =>
      refine Or.inr ?_
      simp only [chars, List.forall_mem_cons]
      exact ⟨by decide, by decide, hhex hex⟩
  | pair high low h =>
      refine Or.inr ?_
      simp only [chars, List.forall_mem_cons, List.forall_mem_append]
      exact ⟨by decide, by decide, hhex high, by decide, by decide, hhex low⟩

theorem untrail_spell (gs : List Glyph) (t : List Char) :
    untrail (spell gs ++ '"' :: t) = spell (shorten gs) ++ '"' :: untrail t := by
  induction gs with
  | nil => exact untrail_append (List.forall_mem_singleton.2 (by decide)) t
  | cons g gs ih =>
      rw [spell_cons, List.append_assoc, shorten]
      rcases g.chars_eq_or with hg | hg
      · rw [hg, List.singleton_append, untrail_comma, closes_append_quote]
        by_cases hcloses : closes (spell gs) = true
        · rw [if_pos hcloses, if_pos ⟨rfl, hcloses⟩, ih]
        · rw [if_neg hcloses, if_neg (fun h => hcloses h.2), spell_cons, hg, ih]
          rfl
      · have hne : ¬ (g.chars = [','] ∧ closes (spell gs) = true) := fun h =>
          hg ',' (by simp [h.1]) rfl
        rw [if_neg hne, untrail_append hg, ih, spell_cons, List.append_assoc]

theorem intact_cons (g : Glyph) (gs : List Glyph) :
    Intact (g :: gs) ↔ (g.chars = [','] → closes (spell gs) = false) ∧ Intact gs := by
  constructor
  · intro h
    constructor
    · intro hg
      exact h [] (spell gs) (by rw [spell_cons, hg]; rfl)
    · intro before after heq
      exact h (g.chars ++ before) after (by rw [spell_cons, heq, List.append_assoc])
  · rintro ⟨hg, hgs⟩ before after heq
    rw [spell_cons] at heq
    rcases List.append_eq_append_iff.1 heq with ⟨more, -, hmore⟩ | ⟨more, hchars, hmore⟩
    · exact hgs more after hmore
    · cases more with
      | nil => exact hgs [] after hmore.symm
      | cons c more =>
          obtain ⟨rfl, hafter⟩ := List.cons.inj hmore
          rcases g.chars_eq_or with hcomma | hne
          · have hlength := congrArg List.length (hchars.symm.trans hcomma)
            have hnil : more = [] := by
              rw [List.length_append, List.length_cons, List.length_singleton] at hlength
              exact List.eq_nil_of_length_eq_zero (by omega)
            rw [hafter, hnil]
            exact hg hcomma
          · exact absurd rfl (hne ',' (by simp [hchars]))

theorem shorten_of_intact {gs : List Glyph} (h : Intact gs) : shorten gs = gs := by
  induction gs with
  | nil => rfl
  | cons g gs ih =>
      obtain ⟨hg, hgs⟩ := (intact_cons g gs).1 h
      rw [shorten, if_neg (fun hne => by simp [hg hne.1] at hne), ih hgs]

theorem length_shorten_le (gs : List Glyph) : (shorten gs).length ≤ gs.length := by
  induction gs with
  | nil => exact Nat.le_refl 0
  | cons g gs ih =>
      rw [shorten]
      split
      · rw [List.length_cons]
        omega
      · rw [List.length_cons, List.length_cons]
        omega

theorem length_shorten_lt {gs : List Glyph} (h : ¬ Intact gs) : (shorten gs).length < gs.length := by
  induction gs with
  | nil => exact absurd (fun before after heq => by simp at heq) h
  | cons g gs ih =>
      have hle := length_shorten_le gs
      rw [shorten]
      split
      case isTrue =>
        rw [List.length_cons]
        omega
      case isFalse hkeep =>
        have hgs : ¬ Intact gs := fun hgs => h ((intact_cons g gs).2
          ⟨fun hg => by simpa [hg] using hkeep, hgs⟩)
        have hlt := ih hgs
        rw [List.length_cons, List.length_cons]
        omega

end Glyph

def closesNext : List Token → Bool
  | t :: _ => t.isClosing
  | [] => false

def Token.shorten : Token → Token
  | .string gs => .string (Glyph.shorten gs)
  | t => t

def untrailTokens : List Token → List Token
  | [] => []
  | .comma :: ts => if closesNext ts = true then untrailTokens ts else .comma :: untrailTokens ts
  | t :: ts => t.shorten :: untrailTokens ts

theorem Numeral.exists_cons (n : Numeral) :
    ∃ c cs, n.chars = c :: cs ∧ (c = '-' ∨ c.isDigit = true) := by
  obtain ⟨d, ds, hwhole⟩ : ∃ d ds, n.whole = d :: ds := by
    rcases n.whole_eq with h | ⟨h, -⟩
    · exact ⟨'0', [], h⟩
    · exact List.exists_cons_of_ne_nil h
  have hd := n.isDigit_whole d (by simp [hwhole])
  rw [chars, hwhole]
  cases n.negative with
  | true => exact ⟨'-', _, rfl, Or.inl rfl⟩
  | false => exact ⟨d, _, rfl, Or.inr hd⟩

theorem isBlank_of_isDigit {c : Char} (h : c.isDigit = true) : Text.isBlank c = false := by
  have hrange : 48 ≤ c.toNat ∧ c.toNat ≤ 57 := by
    simpa [Char.isDigit, UInt32.le_iff_toNat_le] using h
  simp only [Text.isBlank, Bool.or_eq_false_iff, Bool.and_eq_false_iff, decide_eq_false_iff_not,
    beq_eq_false_iff_ne]
  omega

theorem closes_token (t : Token) (s : List Char) : closes (t.chars ++ s) = t.isClosing := by
  have hfirst : ∀ c cs, Text.isBlank c = false → closes ((c :: cs) ++ s) = (c == '\x7d' || c == ']') :=
    fun c cs hc => (closes_cons c (cs ++ s)).trans (if_neg (by simp [hc]))
  cases t with
  | number n =>
      obtain ⟨c, cs, hchars, hc⟩ := n.exists_cons
      have hplain : Text.isBlank c = false ∧ (c == '\x7d' || c == ']') = false := by
        rcases hc with rfl | hdigit
        · decide
        · have hne : ∀ x : Char, x.isDigit = false → (c == x) = false := fun x hx =>
            beq_eq_false_iff_ne.2 fun heq => by simp [heq, hx] at hdigit
          exact ⟨isBlank_of_isDigit hdigit, by rw [hne _ (by decide), hne _ (by decide)]; rfl⟩
      rw [Token.chars, hchars, hfirst c cs hplain.1, hplain.2]
      rfl
  | word w =>
      cases w with
      | null => exact hfirst 'n' ['u', 'l', 'l'] (by decide)
      | bool b =>
          cases b with
          | true => exact hfirst 't' ['r', 'u', 'e'] (by decide)
          | false => exact hfirst 'f' ['a', 'l', 's', 'e'] (by decide)
  | string gs => exact hfirst '"' _ (by decide)
  | _ => exact hfirst _ [] (by decide)

theorem closes_lays {ts : List Token} {s : List Char} (h : Lays Blanks ts s) :
    closes s = closesNext ts := by
  cases h with
  | nil hgap =>
      have hs := closes_blanks_append hgap []
      rwa [List.append_nil] at hs
  | cons hgap _ => rw [closes_blanks_append hgap, closes_token, closesNext]

/-- Where tokens stand apart by blanks, those that stay do so without the trailing commas. -/
theorem lays_untrail {ts : List Token} {s : List Char} (h : Lays Blanks ts s) :
    Lays Blanks (untrailTokens ts) (untrail s) := by
  induction h with
  | @nil gap hgap =>
      have hs := untrail_append hgap.ne_comma []
      rw [List.append_nil, untrail_nil, List.append_nil] at hs
      rw [hs]
      exact .nil hgap
  | @cons gap s t ts hgap hrest ih =>
      rw [untrail_append hgap.ne_comma]
      cases t with
      | comma =>
          rw [Token.chars, List.singleton_append, untrail_comma, closes_lays hrest, untrailTokens]
          by_cases hnext : closesNext ts = true
          · rw [if_pos hnext, if_pos hnext]
            exact ih.prepend (fun _ _ => Blanks.append) hgap
          · rw [if_neg hnext, if_neg hnext]
            exact .cons hgap ih
      | string gs =>
          have hspell := Glyph.untrail_spell gs s
          have hquote : untrail ('"' :: (Glyph.spell gs ++ '"' :: s)) =
              '"' :: untrail (Glyph.spell gs ++ '"' :: s) :=
            untrail_append (List.forall_mem_singleton.2 (by decide)) _
          rw [Token.chars, List.cons_append, List.append_assoc, List.singleton_append, hquote, hspell]
          have hcons := Lays.cons (t := .string (Glyph.shorten gs)) hgap ih
          rw [Token.chars, List.cons_append, List.append_assoc, List.singleton_append] at hcons
          exact hcons
      | _ =>
          rw [untrail_append fun c hc =>
            ne_of_isBare (Token.isBare_chars ⟨by simp, by simp⟩ c hc) (by decide)]
          exact .cons hgap ih

namespace Spelling

mutual

/-- The spelling without its trailing commas and with what is left of its strings. -/
def shorten : Spelling → Spelling
  | word w => .word w
  | number n => .number n
  | string gs => .string (Glyph.shorten gs)
  | list items _ => .list (shortenItems items) false
  | map members _ => .map (shortenMembers members) false

/-- The items without their trailing commas and with what is left of their strings. -/
def shortenItems : List Spelling → List Spelling
  | [] => []
  | d :: ds => shorten d :: shortenItems ds

/-- The members without their trailing commas and with what is left of their strings. -/
def shortenMembers : List (List Glyph × Spelling) → List (List Glyph × Spelling)
  | [] => []
  | (key, d) :: ms => (Glyph.shorten key, shorten d) :: shortenMembers ms

end

theorem closesNext_tokens (d : Spelling) (ts : List Token) : closesNext (d.tokens ++ ts) = false := by
  cases d with
  | list items trailing => cases items <;> simp [tokens, closesNext, Token.isClosing]
  | map members trailing => cases members <;> simp [tokens, closesNext, Token.isClosing]
  | _ => simp [tokens, closesNext, Token.isClosing]

theorem untrailTokens_ending (trailing : Bool) {bracket : Token} (h : bracket.isClosing = true)
    (ts : List Token) :
    untrailTokens (ending trailing bracket ++ ts) = ending false bracket ++ untrailTokens ts := by
  have hbracket : untrailTokens (bracket :: ts) = bracket :: untrailTokens ts := by
    cases bracket <;> first | rfl | simp [Token.isClosing] at h
  cases trailing with
  | false => exact hbracket
  | true =>
      have hcomma : untrailTokens (.comma :: bracket :: ts) = untrailTokens (bracket :: ts) :=
        if_pos h
      exact hcomma.trans hbracket

mutual

theorem untrailTokens_tokens :
    ∀ (d : Spelling) (ts : List Token),
      untrailTokens (d.tokens ++ ts) = d.shorten.tokens ++ untrailTokens ts
  | word w, ts => by simp [tokens, shorten, untrailTokens, Token.shorten]
  | number n, ts => by simp [tokens, shorten, untrailTokens, Token.shorten]
  | string gs, ts => by simp [tokens, shorten, untrailTokens, Token.shorten]
  | list [] trailing, ts => by
    simp [tokens, shorten, shortenItems, untrailTokens, Token.shorten]
  | list (d :: ds) trailing, ts => by
    simp [tokens, shorten, shortenItems, untrailTokens, Token.shorten, untrailTokens_tokens d,
      untrailTokens_moreItems trailing ds]
  | map [] trailing, ts => by
    simp [tokens, shorten, shortenMembers, untrailTokens, Token.shorten]
  | map ((key, d) :: ms) trailing, ts => by
    simp [tokens, shorten, shortenMembers, untrailTokens, Token.shorten, untrailTokens_tokens d,
      untrailTokens_moreMembers trailing ms]

theorem untrailTokens_moreItems (trailing : Bool) :
    ∀ (ds : List Spelling) (ts : List Token),
      untrailTokens (moreItems trailing ds ++ ts) =
        moreItems false (shortenItems ds) ++ untrailTokens ts
  | [], ts => untrailTokens_ending trailing rfl ts
  | d :: ds, ts => by
    simp [moreItems, shortenItems, untrailTokens, closesNext_tokens d, untrailTokens_tokens d,
      untrailTokens_moreItems trailing ds]

theorem untrailTokens_moreMembers (trailing : Bool) :
    ∀ (ms : List (List Glyph × Spelling)) (ts : List Token),
      untrailTokens (moreMembers trailing ms ++ ts) =
        moreMembers false (shortenMembers ms) ++ untrailTokens ts
  | [], ts => untrailTokens_ending trailing rfl ts
  | (key, d) :: ms, ts => by
    simp [moreMembers, shortenMembers, untrailTokens, closesNext, Token.isClosing, Token.shorten,
      untrailTokens_tokens d, untrailTokens_moreMembers trailing ms]

end

end Spelling

end DeclBundle.Json
