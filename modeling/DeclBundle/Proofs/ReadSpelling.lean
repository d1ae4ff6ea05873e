import DeclBundle.Proofs.TrailingComma

/-!
# Reading spellings

What `readDocument` makes of a text that consists of the tokens of a spelling and blanks: the value, if
no trailing comma stands in it (`readDocument_lays`). The counter of `readValue` is no hindrance, since
there are no more tokens than characters.
-/

namespace DeclBundle.Json

namespace Hex

theorem fourHex?_chars (h : Hex) (c : Char) (rest : List Char) :
    fourHex? (h.chars ++ c :: rest) = some (h.number, c :: rest) := by
  obtain ⟨a, b, c', d, n, hn⟩ := h
  simp only [hexOf?, bind, Option.bind_eq_some_iff] at hn
  obtain ⟨w, hw, x, hx, y, hy, z, hz, hn⟩ := hn
  simp only [pure, Option.some.injEq] at hn
  simp [fourHex?, chars, hw, hx, hy, hz, hn]

end Hex

/-- The number of a character that is no half of a surrogate pair stands for it. -/
theorem readUnicode_code (hex : Hex)
    (h : isHighHalf hex.number = false ∧ isLowHalf hex.number = false) (c : Char) (rest : List Char) :
    readUnicode ('u' :: (hex.chars ++ c :: rest)) = .ok (Char.ofNat hex.number, c :: rest) := by
  have hchar : charOf hex.number = Char.ofNat hex.number := by simp [charOf, h.1, h.2]
  rw [readUnicode, List.tail_cons, hex.fourHex?_chars]
  simp only [h.1, Bool.false_and, Bool.false_eq_true, if_false, hchar]
  split <;> rfl

theorem readUnicode_pair (high low : Hex)
    (h : isHighHalf high.number = true ∧ isLowHalf low.number = true) (c : Char) (rest : List Char) :
    readUnicode ('u' :: (high.chars ++ '\\' :: 'u' :: (low.chars ++ c :: rest))) =
      .ok (Char.ofNat (0x10000 + (high.number - 0xd800) * 0x400 + (low.number - 0xdc00)), c :: rest) := by
  have hlength : 4 < (low.chars ++ c :: rest).length := by
    simp [Hex.chars]
  rw [readUnicode, List.tail_cons, high.fourHex?_chars]
  simp only [h.1, hlength, decide_true, Bool.and_self, if_true, low.fourHex?_chars, h.2]

theorem readString_quote (start fuel : Nat) (t : List Char) :
    readString start (fuel + 1) ('"' :: t) = .ok ([], t) := by
  rw [readString]
  exact Nat.succ_ne_zero fuel

/-- What is read of a string in front of the characters that are read next. -/
theorem readString_chars (start fuel : Nat) (g : Glyph) (c : Char) (rest : List Char) :
    readString start (fuel + 1) (g.chars ++ c :: rest) =
      (readString start fuel (c :: rest)).map fun r => (g.char :: r.1, r.2) := by
  cases g with
  | plain d h =>
      have hcontrol : ¬ d.toNat < 0x20 := Nat.not_lt.2 h.1
      simp [Glyph.chars, Glyph.char, readString, hcontrol, h.2]
  | escape letter d h =>
      have hletter : letter ≠ 'u' := Glyph.ne_of_escape h (by decide)
      rw [Glyph.chars, List.cons_append, List.singleton_append, readString, h]
      · rfl
      · simpa using hletter
  | code hex h =>
      simp [Glyph.chars, Glyph.char, readString, readUnicode_code hex h]
  | pair high low h =>
      simp [Glyph.chars, Glyph.char, readString, readUnicode_pair high low h]

theorem readString_spell (start : Nat) (gs : List Glyph) {fuel : Nat} (h : gs.length < fuel)
    (t : List Char) :
    readString start fuel (Glyph.spell gs ++ '"' :: t) = .ok (gs.map Glyph.char, t) := by
  induction gs generalizing fuel with
  | nil =>
      obtain ⟨fuel, rfl⟩ := Nat.exists_eq_succ_of_ne_zero (Nat.ne_of_gt h)
      exact readString_quote start fuel t
  | cons g gs ih =>
      obtain ⟨fuel, rfl⟩ := Nat.exists_eq_succ_of_ne_zero (Nat.ne_of_gt (Nat.zero_lt_of_lt h))
      have hlength : gs.length < fuel := Nat.lt_of_succ_lt_succ h
      have hgs := ih hlength
      obtain ⟨c, rest, hrest⟩ : ∃ c rest, Glyph.spell gs ++ '"' :: t = c :: rest := by
        cases hspell : Glyph.spell gs with
        | nil => exact ⟨'"', t, rfl⟩
        | cons c cs => exact ⟨c, cs ++ '"' :: t, rfl⟩
      rw [hrest] at hgs
      rw [Glyph.spell_cons, List.append_assoc, hrest, readString_chars, hgs]
      rfl

theorem length_le_length_spell (gs : List Glyph) : gs.length ≤ (Glyph.spell gs).length := by
  induction gs with
  | nil => exact Nat.le_refl 0
  | cons g gs ih =>
      have hg : g.chars ≠ [] := by cases g <;> simp [Glyph.chars]
      have hpos := List.length_pos_iff.2 hg
      rw [Glyph.spell_cons, List.length_append, List.length_cons]
      omega

/-! ### Numbers -/

def EndsNumber (t : List Char) : Prop :=
  ∀ c, t.head? = some c → c.isDigit = false ∧ c ≠ '.' ∧ c ≠ 'e' ∧ c ≠ 'E'

theorem spanDigits_append {ds t : List Char} (hds : ∀ c ∈ ds, c.isDigit = true)
    (ht : ∀ c, t.head? = some c → c.isDigit = false) : spanDigits (ds ++ t) = (ds, t) := by
  have htake : t.takeWhile Char.isDigit = [] ∧ t.dropWhile Char.isDigit = t := by
    cases t with
    | nil => exact ⟨rfl, rfl⟩
    | cons c cs => simp [ht c rfl]
  rw [spanDigits, List.takeWhile_append_of_pos hds, List.dropWhile_append_of_pos hds, htake.1, htake.2,
    List.append_nil]

theorem takeSign_digits (e : Exponent) (t : List Char) :
    Decimal.takeSign (e.sign ++ (e.digits ++ t)) = (decide (e.sign = ['-']), e.digits ++ t) := by
  obtain ⟨d, ds, hdigits⟩ := List.exists_cons_of_ne_nil e.digits_ne
  have hd := e.isDigit_digits d (by simp [hdigits])
  have hne : ∀ c : Char, c.isDigit = false → d ≠ c := fun c hc heq => by simp [heq, hc] at hd
  rcases e.sign_eq with hsign | hsign | hsign
  · rw [hsign, hdigits, List.nil_append, List.cons_append, Decimal.takeSign]
    · rfl
    · exact fun _ heq => hne '-' (by decide) (List.cons.inj heq).1
    · exact fun _ heq => hne '+' (by decide) (List.cons.inj heq).1
  · rw [hsign, List.singleton_append, Decimal.takeSign]
    rfl
  · rw [hsign, List.singleton_append, Decimal.takeSign]
    rfl

theorem readExponent_chars (e : Exponent) {t : List Char} (ht : EndsNumber t) :
    readExponent (e.chars ++ t) = (some e.number, t) := by
  have hspan := spanDigits_append e.isDigit_digits fun c hc => (ht c hc).1
  have hempty : e.digits.isEmpty = false := List.isEmpty_eq_false_iff.2 e.digits_ne
  rw [Exponent.chars, List.cons_append, List.append_assoc, readExponent, if_pos e.letter_eq,
    takeSign_digits]
  simp only [hspan, hempty, Bool.false_eq_true, if_false, Exponent.number, decide_eq_true_eq]

theorem readExponent_of_endsNumber {t : List Char} (ht : EndsNumber t) :
    readExponent t = (none, t) := by
  cases t with
  | nil => rfl
  | cons c cs =>
      obtain ⟨-, -, he, hE⟩ := ht c rfl
      rw [readExponent, if_neg (by simp [he, hE])]

/-- What stands behind the whole part of a number, and what is read of it. -/
theorem readTail (n : Numeral) {t : List Char} (ht : EndsNumber t) :
    ∃ rest, readFraction (n.tail ++ t) = (n.fraction, rest) ∧
      readExponent rest = (n.exponent.map Exponent.number, t) := by
  let behind := n.exponent.elim [] Exponent.chars ++ t
  have hexponent : readExponent behind = (n.exponent.map Exponent.number, t) := by
    cases he : n.exponent with
    | none => simpa [behind, he] using readExponent_of_endsNumber ht
    | some e => simpa [behind, he] using readExponent_chars e ht
  have hbehind : ∀ c, behind.head? = some c → c.isDigit = false ∧ c ≠ '.' := by
    intro c hc
    cases he : n.exponent with
    | none =>
        have hend := ht c (by simpa [behind, he] using hc)
        exact ⟨hend.1, hend.2.1⟩
    | some e =>
        have hletter : e.letter = c := by simpa [behind, he, Exponent.chars] using hc
        rcases e.letter_eq with h | h
        · rw [← hletter, h]
          decide
        · rw [← hletter, h]
          decide
  refine ⟨behind, ?_, hexponent⟩
  by_cases hfraction : n.fraction = []
  · have htail : n.tail ++ t = behind := by simp [Numeral.tail, hfraction, behind]
    rw [htail, hfraction]
    cases hcs : behind with
    | nil => rfl
    | cons c cs =>
        have hdot := (hbehind c (by rw [hcs]; rfl)).2
        rw [readFraction]
        exact fun _ heq => hdot (List.cons.inj heq).1
  · have htail : n.tail ++ t = '.' :: (n.fraction ++ behind) := by
      simp [Numeral.tail, hfraction, behind]
    have hspan := spanDigits_append n.isDigit_fraction fun c hc => (hbehind c hc).1
    rw [htail, readFraction, hspan, if_neg (by simpa using hfraction)]

theorem Numeral.endsWhole (n : Numeral) {t : List Char} (ht : EndsNumber t) :
    ∀ c, (n.tail ++ t).head? = some c → c.isDigit = false := by
  intro c hc
  by_cases hfraction : n.fraction = []
  · cases he : n.exponent with
    | none => exact (ht c (by simpa [Numeral.tail, hfraction, he] using hc)).1
    | some e =>
        have hletter : e.letter = c := by
          simpa [Numeral.tail, hfraction, he, Exponent.chars] using hc
        rcases e.letter_eq with h | h
        · rw [← hletter, h]
          decide
        · rw [← hletter, h]
          decide
  · have hdot : '.' = c := by simpa [Numeral.tail, hfraction] using hc
    rw [← hdot]
    decide

theorem readWhole_whole (n : Numeral) {t : List Char} (ht : EndsNumber t) :
    readWhole (n.whole ++ (n.tail ++ t)) = (n.whole, n.tail ++ t) := by
  rcases n.whole_eq with h | ⟨hne, hzero⟩
  · rw [h]
    rfl
  · have hspan := spanDigits_append n.isDigit_whole (n.endsWhole ht)
    obtain ⟨d, ds, hwhole⟩ := List.exists_cons_of_ne_nil hne
    have hd : d ≠ '0' := by simpa [hwhole] using hzero
    rw [hwhole, List.cons_append] at hspan ⊢
    rw [readWhole, hspan]
    exact fun _ heq => hd (List.cons.inj heq).1

theorem readNumber_chars (n : Numeral) {t : List Char} (ht : EndsNumber t) :
    readNumber (n.chars ++ t) = .ok (n.value, t) := by
  obtain ⟨rest, hfraction, hexponent⟩ := readTail n ht
  have hwhole : n.whole.isEmpty = false := by
    rcases n.whole_eq with h | ⟨h, -⟩
    · rw [h]
      rfl
    · exact List.isEmpty_eq_false_iff.2 h
  obtain ⟨d, ds, hd⟩ := List.exists_cons_of_ne_nil (List.isEmpty_eq_false_iff.1 hwhole)
  have hminus : d ≠ '-' := by
    have hdigit := n.isDigit_whole d (by simp [hd])
    rintro rfl
    exact absurd hdigit (by decide)
  unfold readNumber
  split
  next x negative body hsign =>
    have hbody : (negative, body) = (n.negative, n.whole ++ (n.tail ++ t)) := by
      rw [← hsign, Numeral.chars]
      cases n.negative with
      | true => simp
      | false =>
          rw [if_neg (by simp), List.nil_append, hd]
          simp only [List.cons_append]
          split
          case h_1 heq => exact absurd (List.cons.inj heq).1 hminus
          case h_2 => simp
    obtain ⟨rfl, rfl⟩ := Prod.mk.inj hbody
    simp only [readWhole_whole n ht, hfraction, hexponent, hwhole, Bool.false_eq_true, if_false]
    by_cases h : n.fraction = [] ∧ n.exponent.isNone = true
    · have hlength := Nat.not_lt.2 (n.length_le h.1 (Option.isNone_iff_eq_none.1 h.2))
      rw [if_pos (by simpa using h), if_neg hlength, Numeral.value, if_pos h]
    · rw [if_neg (by simpa using h), Numeral.value, if_neg h]

/-! ### Values -/

theorem words_eq : words = [
    (['n', 'u', 'l', 'l'], .null), (['t', 'r', 'u', 'e'], .bool true),
    (['f', 'a', 'l', 's', 'e'], .bool false),
    (['N', 'a', 'N'], .float (Float.ofBits 0x7ff8000000000000)),
    (['I', 'n', 'f', 'i', 'n', 'i', 't', 'y'], .float (Float.ofBits 0x7ff0000000000000)),
    (['-', 'I', 'n', 'f', 'i', 'n', 'i', 't', 'y'], .float (Float.ofBits 0xfff0000000000000))] := rfl

theorem readWord?_word (w : Word) (t : List Char) :
    readWord? (w.chars ++ t) = some (w.value, t) := by
  rw [readWord?, words_eq]
  cases w with
  | null => simp [Word.chars, Word.value]
  | bool b => cases b <;> simp [Word.chars, Word.value]

theorem readWord?_number (n : Numeral) (t : List Char) : readWord? (n.chars ++ t) = none := by
  have hwhole : n.whole ≠ [] := by
    rcases n.whole_eq with h | ⟨h, -⟩
    · simp [h]
    · exact h
  obtain ⟨d, ds, hd⟩ := List.exists_cons_of_ne_nil hwhole
  have hdigit := n.isDigit_whole d (by simp [hd])
  have hne : ∀ c : Char, c.isDigit = false → ¬ c = d := fun c hc heq => by
    simp [← heq, hc] at hdigit
  rw [readWord?, words_eq, Numeral.chars, hd]
  cases n.negative with
  | true => simp [hne 'I' (by decide)]
  | false =>
      simp [hne 'n' (by decide), hne 't' (by decide), hne 'f' (by decide), hne 'N' (by decide),
        hne 'I' (by decide), hne '-' (by decide)]

/-- What does not begin with a quote or an opening bracket is a word or a number. -/
theorem readValue_other {s : List Char}
    (h : ∀ c, s.head? = some c → c ≠ '"' ∧ c ≠ '[' ∧ c ≠ '\x7b') (fuel : Nat) :
    readValue (fuel + 1) s = (readWord? s).elim (readNumber s) .ok := by
  have hne : ∀ c : Char, (∀ cs, s = c :: cs → c ≠ '"' ∧ c ≠ '[' ∧ c ≠ '\x7b') := by
    rintro c cs rfl
    exact h c rfl
  rw [readValue]
  · cases readWord? s <;> rfl
  · exact fun cs heq => (hne _ cs heq).1 rfl
  · exact fun cs heq => (hne _ cs heq).2.1 rfl
  · exact fun cs heq => (hne _ cs heq).2.2 rfl

theorem readValue_word (w : Word) (fuel : Nat) (t : List Char) :
    readValue (fuel + 1) (w.chars ++ t) = .ok (w.value, t) := by
  rw [readValue_other, readWord?_word, Option.elim_some]
  intro c hc
  cases w with
  | null =>
      obtain rfl : 'n' = c := Option.some.inj hc
      decide
  | bool b =>
      cases b with
      | true =>
          obtain rfl : 't' = c := Option.some.inj hc
          decide
      | false =>
          obtain rfl : 'f' = c := Option.some.inj hc
          decide

theorem readValue_number (n : Numeral) (fuel : Nat) {t : List Char} (ht : EndsNumber t) :
    readValue (fuel + 1) (n.chars ++ t) = .ok (n.value, t) := by
  rw [readValue_other, readWord?_number, Option.elim_none]
  · exact readNumber_chars n ht
  · intro c hc
    obtain ⟨d, ds, hchars, hd⟩ := n.exists_cons
    obtain rfl : d = c := by simpa [hchars] using hc
    rcases hd with rfl | hdigit
    · decide
    · refine ⟨?_, ?_, ?_⟩ <;> rintro rfl <;> exact absurd hdigit (by decide)

theorem readValue_string (gs : List Glyph) (fuel : Nat) (t : List Char) :
    readValue (fuel + 1) ('"' :: (Glyph.spell gs ++ '"' :: t)) = .ok (.text (Glyph.text gs), t) := by
  have hlength : gs.length < ('"' :: (Glyph.spell gs ++ '"' :: t)).length := by
    have hspell := length_le_length_spell gs
    rw [List.length_cons, List.length_append]
    omega
  rw [readValue, readString_spell _ gs hlength]
  rfl

/-! ### Tokens -/

theorem skipGap_append {gap : List Char} (h : Blanks gap) (s : List Char) :
    skipGap (gap ++ s) = skipGap s :=
  List.dropWhile_append_of_pos h

theorem Token.exists_cons (t : Token) :
    ∃ c cs, t.chars = c :: cs ∧ (c = ',' ∨ c = '"' ∨ isBare c = true) := by
  obtain ⟨c, cs, hchars⟩ := List.exists_cons_of_ne_nil t.chars_ne_nil
  refine ⟨c, cs, hchars, ?_⟩
  have hmem : c ∈ t.chars := by simp [hchars]
  cases t with
  | comma => exact Or.inl (List.cons.inj hchars).1.symm
  | string gs => exact Or.inr (Or.inl (List.cons.inj hchars).1.symm)
  | _ => exact Or.inr (Or.inr (isBare_chars ⟨by simp, by simp⟩ c hmem))

theorem isGap_of_isBare {c : Char} (h : isBare c = true) : isGap c = false := by
  refine Bool.eq_false_iff.2 fun hgap => ?_
  simp only [isGap, Bool.or_eq_true, beq_iff_eq] at hgap
  rcases hgap with ((rfl | rfl) | rfl) | rfl <;> exact absurd h (by decide)

theorem skipGap_token (t : Token) (s : List Char) : skipGap (t.chars ++ s) = t.chars ++ s := by
  obtain ⟨c, cs, hchars, hc⟩ := t.exists_cons
  have hgap : isGap c = false := by
    rcases hc with rfl | rfl | hbare
    · decide
    · decide
    · exact isGap_of_isBare hbare
  rw [hchars, skipGap, List.cons_append, List.dropWhile_cons, if_neg (by simp [hgap])]

theorem skipGap_lays {t : Token} {ts : List Token} {s : List Char} (h : Lays Blanks (t :: ts) s) :
    ∃ s', skipGap s = t.chars ++ s' ∧ Lays Blanks ts s' := by
  cases h with
  | cons hgap hrest => exact ⟨_, (skipGap_append hgap _).trans (skipGap_token t _), hrest⟩

theorem skipGap_lays_nil {s : List Char} (h : Lays Blanks [] s) : skipGap s = [] := by
  cases h with
  | nil hgap =>
      have hs := skipGap_append hgap []
      rwa [List.append_nil] at hs

theorem closes_eq_of_skipGap {c : Char} {s r : List Char} (h : skipGap s = c :: r) :
    closes s = closes (c :: r) := by
  have hs : s = s.takeWhile isGap ++ c :: r := by
    rw [← h, skipGap, List.takeWhile_append_dropWhile]
  have hgap : Blanks (s.takeWhile isGap) := List.all_eq_true.1 List.all_takeWhile
  rw [hs, closes_blanks_append hgap]

def EndsValue (ts : List Token) : Prop :=
  ∀ t, ts.head? = some t → t = .comma ∨ t.isClosing = true

theorem endsNumber_of_lays {ts : List Token} {s : List Char} (hts : EndsValue ts)
    (h : Lays Blanks ts s) : EndsNumber s := by
  have hgap : ∀ c, isGap c = true → c.isDigit = false ∧ c ≠ '.' ∧ c ≠ 'e' ∧ c ≠ 'E' := by
    intro c hc
    simp only [isGap, Bool.or_eq_true, beq_iff_eq] at hc
    rcases hc with ((rfl | rfl) | rfl) | rfl <;> decide
  intro c hc
  cases h with
  | nil hblanks => exact hgap c (hblanks c (List.mem_of_head? hc))
  | @cons gap s t ts hblanks _ =>
      cases gap with
      | cons d gap =>
          obtain rfl : d = c := Option.some.inj hc
          exact hgap d (hblanks d List.mem_cons_self)
      | nil =>
          rcases hts t rfl with rfl | hclosing
          · obtain rfl : ',' = c := Option.some.inj hc
            decide
          · cases t with
            | closeList =>
                obtain rfl : ']' = c := Option.some.inj hc
                decide
            | closeMap =>
                obtain rfl : '\x7d' = c := Option.some.inj hc
                decide
            | _ => simp [Token.isClosing] at hclosing

theorem readItems_last {fuel : Nat} {s rest r : List Char} {v : Value}
    (hv : readValue fuel s = .ok (v, rest)) (hr : skipGap rest = ']' :: r) :
    readItems (fuel + 1) s = .ok ([v], r) := by
  rw [readItems, hv]
  simp only [hr]

theorem readItems_more {fuel : Nat} {s rest r : List Char} {v : Value}
    (hv : readValue fuel s = .ok (v, rest)) (hr : skipGap rest = ',' :: r) :
    readItems (fuel + 1) s = (readItems fuel (skipGap r)).map fun x => (v :: x.1, x.2) := by
  rw [readItems, hv]
  simp only [hr]

theorem readMembers_key (key : List Glyph) {fuel : Nat} {t r rest : List Char} {v : Value}
    (ht : skipGap t = ':' :: r) (hv : readValue fuel (skipGap r) = .ok (v, rest)) :
    readMembers (fuel + 1) ('"' :: (Glyph.spell key ++ '"' :: t)) =
      match skipGap rest with
      | '\x7d' :: rest => .ok ([(.text (Glyph.text key), v)], rest)
      | ',' :: rest => (readMembers fuel (skipGap rest)).map fun x =>
        ((.text (Glyph.text key), v) :: x.1, x.2)
      | rest => .error (.fault .noComma rest.length) := by
  have hlength : key.length < ('"' :: (Glyph.spell key ++ '"' :: t)).length := by
    have hspell := length_le_length_spell key
    rw [List.length_cons, List.length_append]
    omega
  rw [readMembers, readString_spell _ key hlength]
  simp only [ht, hv]
  rfl

namespace Spelling

mutual

def Strict : Spelling → Prop
  | list items trailing => trailing = false ∧ StrictItems items
  | map members trailing => trailing = false ∧ StrictMembers members
  | _ => True

def StrictItems : List Spelling → Prop
  | [] => True
  | d :: ds => Strict d ∧ StrictItems ds

def StrictMembers : List (List Glyph × Spelling) → Prop
  | [] => True
  | (_, d) :: ms => Strict d ∧ StrictMembers ms

end

/-- The tokens behind the opening bracket of a list that is not empty. -/
def itemTokens : List Spelling → List Token
  | [] => []
  | d :: ds => d.tokens ++ moreItems false ds

/-- The tokens behind the opening bracket of an object that is not empty. -/
def memberTokens : List (List Glyph × Spelling) → List Token
  | [] => []
  | (key, d) :: ms => .string key :: .colon :: (d.tokens ++ moreMembers false ms)

theorem endsValue_moreItems (ds : List Spelling) (ts : List Token) :
    EndsValue (moreItems false ds ++ ts) := by
  intro t ht
  cases ds with
  | nil => exact Or.inr (by obtain rfl : Token.closeList = t := Option.some.inj ht; rfl)
  | cons d ds => exact Or.inl (by rw [moreItems] at ht; exact (Option.some.inj ht).symm)

theorem endsValue_moreMembers (ms : List (List Glyph × Spelling)) (ts : List Token) :
    EndsValue (moreMembers false ms ++ ts) := by
  intro t ht
  cases ms with
  | nil => exact Or.inr (by obtain rfl : Token.closeMap = t := Option.some.inj ht; rfl)
  | cons m ms => exact Or.inl (by rw [moreMembers] at ht; exact (Option.some.inj ht).symm)

mutual

/-- A value is read off its tokens, and what stands behind them is left. -/
theorem readValue_lays : ∀ (d : Spelling) {ts : List Token} {s : List Char} {fuel : Nat},
    d.Strict → d.tokens.length ≤ fuel → EndsValue ts → Lays Blanks (d.tokens ++ ts) s →
      ∃ rest, readValue fuel (skipGap s) = .ok (d.value, rest) ∧ Lays Blanks ts rest
  | word w, ts, s, fuel, _, hfuel, _, h => by
    obtain ⟨s', hs, hrest⟩ := skipGap_lays h
    obtain ⟨fuel, rfl⟩ := Nat.exists_eq_succ_of_ne_zero (Nat.ne_of_gt hfuel)
    exact ⟨s', by rw [hs]; exact readValue_word w fuel s', hrest⟩
  | number n, ts, s, fuel, _, hfuel, hts, h => by
    obtain ⟨s', hs, hrest⟩ := skipGap_lays h
    obtain ⟨fuel, rfl⟩ := Nat.exists_eq_succ_of_ne_zero (Nat.ne_of_gt hfuel)
    exact ⟨s', by rw [hs]; exact readValue_number n fuel (endsNumber_of_lays hts hrest), hrest⟩
  | string gs, ts, s, fuel, _, hfuel, _, h => by
    obtain ⟨s', hs, hrest⟩ := skipGap_lays h
    obtain ⟨fuel, rfl⟩ := Nat.exists_eq_succ_of_ne_zero (Nat.ne_of_gt hfuel)
    refine ⟨s', ?_, hrest⟩
    rw [hs, Token.chars, List.cons_append, List.append_assoc, List.singleton_append]
    exact readValue_string gs fuel s'
  | list [] trailing, ts, s, fuel, _, hfuel, _, h => by
    obtain ⟨s₁, hs, h₁⟩ := skipGap_lays h
    obtain ⟨s₂, hs₁, h₂⟩ := skipGap_lays h₁
    obtain ⟨fuel, rfl⟩ := Nat.exists_eq_succ_of_ne_zero (Nat.ne_of_gt (Nat.zero_lt_of_lt hfuel))
    refine ⟨s₂, ?_, h₂⟩
    rw [hs, Token.chars, List.singleton_append, readValue, hs₁]
    rfl
  | list (d :: ds) trailing, ts, s, fuel, hstrict, hfuel, _, h => by
    obtain ⟨rfl, hitems⟩ := hstrict
    obtain ⟨s₁, hs, h₁⟩ := skipGap_lays h
    obtain ⟨fuel, rfl⟩ := Nat.exists_eq_succ_of_ne_zero (Nat.ne_of_gt (Nat.zero_lt_of_lt hfuel))
    obtain ⟨rest, hread, hrest⟩ := readItems_lays (d :: ds) (List.cons_ne_nil d ds) hitems
      (Nat.le_of_succ_le_succ hfuel) h₁
    -- A value begins otherwise than with the bracket that would end an empty list.
    have hopen : ∀ r, skipGap s₁ ≠ ']' :: r := by
      intro r hr
      have htokens : Lays Blanks (d.tokens ++ (moreItems false ds ++ ts)) s₁ := by
        rw [← List.append_assoc]
        exact h₁
      have hcloses := closes_lays htokens
      have hbracket : closes (']' :: r) = true := closes_token .closeList r
      rw [closes_eq_of_skipGap hr, closesNext_tokens, hbracket] at hcloses
      cases hcloses
    refine ⟨rest, ?_, hrest⟩
    rw [hs, Token.chars, List.singleton_append, readValue]
    split
    case h_1 r hr => exact absurd hr (hopen r)
    case h_2 => rw [hread]; rfl
  | map [] trailing, ts, s, fuel, _, hfuel, _, h => by
    obtain ⟨s₁, hs, h₁⟩ := skipGap_lays h
    obtain ⟨s₂, hs₁, h₂⟩ := skipGap_lays h₁
    obtain ⟨fuel, rfl⟩ := Nat.exists_eq_succ_of_ne_zero (Nat.ne_of_gt (Nat.zero_lt_of_lt hfuel))
    refine ⟨s₂, ?_, h₂⟩
    rw [hs, Token.chars, List.singleton_append, readValue, hs₁]
    rfl
  | map ((key, d) :: ms) trailing, ts, s, fuel, hstrict, hfuel, _, h => by
    obtain ⟨rfl, hmembers⟩ := hstrict
    obtain ⟨s₁, hs, h₁⟩ := skipGap_lays h
    obtain ⟨fuel, rfl⟩ := Nat.exists_eq_succ_of_ne_zero (Nat.ne_of_gt (Nat.zero_lt_of_lt hfuel))
    obtain ⟨rest, hread, hrest⟩ := readMembers_lays ((key, d) :: ms) (List.cons_ne_nil _ ms) hmembers
      (Nat.le_of_succ_le_succ hfuel) h₁
    obtain ⟨s₂, hkey, -⟩ := skipGap_lays h₁
    refine ⟨rest, ?_, hrest⟩
    rw [hs, Token.chars, List.singleton_append, readValue]
    split
    case h_1 r hr =>
      rw [hkey] at hr
      exact absurd (List.cons.inj hr).1 (by decide)
    case h_2 => rw [hread]; rfl

theorem readItems_lays : ∀ (ds : List Spelling) {ts : List Token} {s : List Char} {fuel : Nat},
    ds ≠ [] → StrictItems ds → (itemTokens ds).length ≤ fuel → Lays Blanks (itemTokens ds ++ ts) s →
      ∃ rest, readItems fuel (skipGap s) = .ok (values ds, rest) ∧ Lays Blanks ts rest
  | [], _, _, _, hne, _, _, _ => absurd rfl hne
  | d :: ds, ts, s, fuel, _, hstrict, hfuel, h => by
    rw [itemTokens, List.append_assoc] at h
    rw [itemTokens, List.length_append] at hfuel
    obtain ⟨hd, hds⟩ := hstrict
    cases ds with
    | nil =>
        obtain ⟨fuel, rfl⟩ := Nat.exists_eq_succ_of_ne_zero (Nat.ne_of_gt (Nat.zero_lt_of_lt hfuel))
        obtain ⟨rest, hread, hrest⟩ :=
          readValue_lays d hd (Nat.le_of_succ_le_succ hfuel) (endsValue_moreItems [] ts) h
        obtain ⟨s', hs', h'⟩ := skipGap_lays hrest
        exact ⟨s', readItems_last hread hs', h'⟩
    | cons e ds =>
        rw [moreItems, List.length_cons] at hfuel
        obtain ⟨fuel, rfl⟩ := Nat.exists_eq_succ_of_ne_zero (Nat.ne_of_gt (Nat.zero_lt_of_lt hfuel))
        have hfirst : d.tokens.length ≤ fuel := by omega
        have hmore : (itemTokens (e :: ds)).length ≤ fuel := by
          rw [itemTokens]
          omega
        obtain ⟨rest, hread, hrest⟩ :=
          readValue_lays d hd hfirst (endsValue_moreItems (e :: ds) ts) h
        obtain ⟨s', hs', h'⟩ := skipGap_lays hrest
        obtain ⟨rest', hread', hrest'⟩ :=
          readItems_lays (e :: ds) (List.cons_ne_nil e ds) hds hmore h'
        have hcomma : skipGap rest = ',' :: s' := hs'
        refine ⟨rest', ?_, hrest'⟩
        rw [readItems_more hread hcomma, hread']
        rfl

theorem readMembers_lays : ∀ (ms : List (List Glyph × Spelling)) {ts : List Token} {s : List Char}
    {fuel : Nat}, ms ≠ [] → StrictMembers ms → (memberTokens ms).length ≤ fuel →
      Lays Blanks (memberTokens ms ++ ts) s →
      ∃ rest, readMembers fuel (skipGap s) = .ok (entries ms, rest) ∧ Lays Blanks ts rest
  | [], _, _, _, hne, _, _, _ => absurd rfl hne
  | (key, d) :: ms, ts, s, fuel, _, hstrict, hfuel, h => by
    obtain ⟨hd, hms⟩ := hstrict
    rw [memberTokens, List.cons_append, List.cons_append, List.append_assoc] at h
    obtain ⟨s₁, hs, h₁⟩ := skipGap_lays h
    obtain ⟨s₂, hs₁, h₂⟩ := skipGap_lays h₁
    rw [memberTokens, List.length_cons, List.length_cons, List.length_append] at hfuel
    obtain ⟨fuel, rfl⟩ := Nat.exists_eq_succ_of_ne_zero (Nat.ne_of_gt (Nat.zero_lt_of_lt hfuel))
    have hfirst : d.tokens.length ≤ fuel := by omega
    obtain ⟨rest, hread, hrest⟩ :=
      readValue_lays d hd hfirst (endsValue_moreMembers ms ts) h₂
    have hkey := readMembers_key key hs₁ hread
    rw [hs, Token.chars, List.cons_append, List.append_assoc, List.singleton_append, hkey]
    cases ms with
    | nil =>
        obtain ⟨s', hs', h'⟩ := skipGap_lays hrest
        exact ⟨s', by rw [hs']; rfl, h'⟩
    | cons m ms =>
        obtain ⟨s', hs', h'⟩ := skipGap_lays hrest
        have hmore : (memberTokens (m :: ms)).length ≤ fuel := by
          simp only [moreMembers, memberTokens, List.length_cons] at hfuel ⊢
          omega
        obtain ⟨rest', hread', hrest'⟩ :=
          readMembers_lays (m :: ms) (List.cons_ne_nil m ms) hms hmore h'
        refine ⟨rest', ?_, hrest'⟩
        rw [hs', Token.chars, List.singleton_append]
        simp only [hread']
        rfl

end

end Spelling

theorem length_le_of_lays {G : List Char → Prop} {ts : List Token} {s : List Char}
    (h : Lays G ts s) : ts.length ≤ s.length := by
  induction h with
  | nil => exact Nat.zero_le _
  | @cons gap s t ts _ _ ih =>
      have hpos := List.length_pos_iff.2 t.chars_ne_nil
      rw [List.length_cons, List.length_append, List.length_append]
      omega

theorem head?_ne_mark_of_lays {ts : List Token} {s : List Char} (h : Lays Blanks ts s) :
    s.head? ≠ some '\uFEFF' := by
  intro hmark
  have hgap : skipGap s = s := by
    cases s with
    | nil => rfl
    | cons c cs =>
        obtain rfl : c = '\uFEFF' := Option.some.inj hmark
        rfl
  cases ts with
  | nil =>
      rw [skipGap_lays_nil h] at hgap
      rw [← hgap] at hmark
      cases hmark
  | cons t ts =>
      obtain ⟨s', hs, -⟩ := skipGap_lays h
      obtain ⟨c, cs, hchars, hc⟩ := t.exists_cons
      rw [hgap] at hs
      rw [hs, hchars] at hmark
      obtain rfl : c = '\uFEFF' := Option.some.inj hmark
      revert hc
      decide

/-- The value of a spelling without trailing commas is read off its text. -/
theorem readDocument_lays {d : Spelling} {s : List Char} (hstrict : d.Strict)
    (h : Lays Blanks d.tokens s) : readDocument s = .ok d.value := by
  have hlength := length_le_of_lays h
  have htokens : Lays Blanks (d.tokens ++ []) s := by rwa [List.append_nil]
  have hfuel : d.tokens.length ≤ 2 * s.length + 2 := by omega
  obtain ⟨rest, hread, hrest⟩ := d.readValue_lays hstrict hfuel (fun t ht => by simp at ht) htokens
  have hmark := head?_ne_mark_of_lays h
  rw [readDocument]
  · simp only [hread, skipGap_lays_nil hrest]
  · rintro cs rfl
    exact hmark rfl

end DeclBundle.Json
