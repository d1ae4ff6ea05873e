import DeclBundle.Json.Comment
import DeclBundle.Json.Reader

/-!
# Spellings of values

A JSON value can be written in many ways. A `Spelling` is one of them: it says how each character of a
string is written, how each number, and behind which items and members a trailing comma stands, which
JSON itself does not have. `Spelling.value` is the value, `Spelling.tokens` the row of tokens, and
`chars` of anything is what is written. Half of a surrogate pair alone is no character and is left out.

`Lays G ts s` says that a text consists of tokens with a gap before each and one at the end. A gap is a
row of `Blanks`, or a `Gap`, in which comments may stand as well.
-/

namespace DeclBundle.Json

def hexOf? (a b c d : Char) : Option Nat := do
  let w ← hexValue? a
  let x ← hexValue? b
  let y ← hexValue? c
  let z ← hexValue? d
  pure (((w * 16 + x) * 16 + y) * 16 + z)

/-- Four hexadecimal digits and the number that they write. -/
structure Hex where
  first : Char
  second : Char
  third : Char
  fourth : Char
  number : Nat
  number_eq : hexOf? first second third fourth = some number

def Hex.chars (h : Hex) : List Char := [h.first, h.second, h.third, h.fourth]

/-- A character of a string as it is written: itself, a backslash and a letter, a backslash and the
number of the character, or the two halves of a surrogate pair. -/
inductive Glyph where
  | plain (c : Char) (h : 0x20 ≤ c.toNat ∧ c ≠ '"' ∧ c ≠ '\\')
  | escape (letter c : Char) (h : escapeOf? letter = some c)
  | code (hex : Hex) (h : isHighHalf hex.number = false ∧ isLowHalf hex.number = false)
  | pair (high low : Hex) (h : isHighHalf high.number = true ∧ isLowHalf low.number = true)

namespace Glyph

def chars : Glyph → List Char
  | plain c _ => [c]
  | escape letter _ _ => ['\\', letter]
  | code hex _ => '\\' :: 'u' :: hex.chars
  | pair high low _ => '\\' :: 'u' :: (high.chars ++ '\\' :: 'u' :: low.chars)

def char : Glyph → Char
  | plain c _ => c
  | escape _ c _ => c
  | code hex _ => Char.ofNat hex.number
  | pair high low _ =>
    Char.ofNat (0x10000 + (high.number - 0xd800) * 0x400 + (low.number - 0xdc00))

def spell (gs : List Glyph) : List Char := gs.flatMap chars

def text (gs : List Glyph) : String := String.ofList (gs.map char)

@[simp] theorem spell_nil : spell [] = [] := rfl

@[simp] theorem spell_cons (g : Glyph) (gs : List Glyph) : spell (g :: gs) = g.chars ++ spell gs := by
  simp [spell]

end Glyph

structure Exponent where
  letter : Char
  sign : List Char
  digits : List Char
  letter_eq : letter = 'e' ∨ letter = 'E'
  sign_eq : sign = [] ∨ sign = ['+'] ∨ sign = ['-']
  digits_ne : digits ≠ []
  isDigit_digits : ∀ c ∈ digits, c.isDigit = true

namespace Exponent

def chars (e : Exponent) : List Char := e.letter :: (e.sign ++ e.digits)

def number (e : Exponent) : Int :=
  let n : Int := Text.naturalOf e.digits
  if e.sign = ['-'] then -n else n

end Exponent

/-- A number as it is written. The digits of a whole number are not more than may be read. -/
structure Numeral where
  negative : Bool
  whole : List Char
  fraction : List Char
  exponent : Option Exponent
  whole_eq : whole = ['0'] ∨ whole ≠ [] ∧ whole.head? ≠ some '0'
  isDigit_whole : ∀ c ∈ whole, c.isDigit = true
  isDigit_fraction : ∀ c ∈ fraction, c.isDigit = true
  length_le : fraction = [] → exponent = none → whole.length ≤ Text.digitLimit

namespace Numeral

def tail (n : Numeral) : List Char :=
  (if n.fraction = [] then [] else '.' :: n.fraction) ++ n.exponent.elim [] Exponent.chars

def chars (n : Numeral) : List Char := (if n.negative then ['-'] else []) ++ (n.whole ++ n.tail)

/-- The value: a whole number, or the binary fraction next to the decimal one. -/
def value (n : Numeral) : Value :=
  if n.fraction = [] ∧ n.exponent.isNone then
    let whole : Int := Text.naturalOf n.whole
    .int (if n.negative then -whole else whole)
  else
    let exponent : Int := (n.exponent.map Exponent.number).getD 0
    .float (Decimal.signed n.negative
      (Decimal.toFloat (Text.naturalOf (n.whole ++ n.fraction)) (exponent - n.fraction.length)))

end Numeral

/-- The words that stand for values. -/
inductive Word where
  | null
  | bool (b : Bool)

namespace Word

def chars : Word → List Char
  | null => ['n', 'u', 'l', 'l']
  | bool true => ['t', 'r', 'u', 'e']
  | bool false => ['f', 'a', 'l', 's', 'e']

def value : Word → Value
  | null => .null
  | bool b => .bool b

end Word

inductive Token where
  | openList
  | closeList
  | openMap
  | closeMap
  | comma
  | colon
  | word (w : Word)
  | number (n : Numeral)
  | string (gs : List Glyph)

namespace Token

def chars : Token → List Char
  | openList => ['[']
  | closeList => [']']
  | openMap => ['\x7b']
  | closeMap => ['\x7d']
  | comma => [',']
  | colon => [':']
  | word w => w.chars
  | number n => n.chars
  | string gs => '"' :: (Glyph.spell gs ++ ['"'])

def isClosing : Token → Bool
  | closeList => true
  | closeMap => true
  | _ => false

end Token

/-- A value as it is written. Lists and objects say whether a trailing comma stands in them, which
counts only behind an item or a member. -/
inductive Spelling where
  | word (w : Word)
  | number (n : Numeral)
  | string (gs : List Glyph)
  | list (items : List Spelling) (trailing : Bool)
  | map (members : List (List Glyph × Spelling)) (trailing : Bool)

namespace Spelling

/-- A closing bracket with or without a trailing comma. -/
def ending (trailing : Bool) (bracket : Token) : List Token :=
  if trailing then [.comma, bracket] else [bracket]

mutual

def value : Spelling → Value
  | word w => w.value
  | number n => n.value
  | string gs => .text (Glyph.text gs)
  | list items _ => .list (values items)
  | map members _ => .map (Record.ofEntries (entries members))

def values : List Spelling → List Value
  | [] => []
  | d :: ds => value d :: values ds

def entries : List (List Glyph × Spelling) → List (Value × Value)
  | [] => []
  | (key, d) :: ms => (.text (Glyph.text key), value d) :: entries ms

end

mutual

def tokens : Spelling → List Token
  | word w => [.word w]
  | number n => [.number n]
  | string gs => [.string gs]
  | list [] _ => [.openList, .closeList]
  | list (d :: ds) trailing => .openList :: (tokens d ++ moreItems trailing ds)
  | map [] _ => [.openMap, .closeMap]
  | map ((key, d) :: ms) trailing =>
    .openMap :: .string key :: .colon :: (tokens d ++ moreMembers trailing ms)

def moreItems (trailing : Bool) : List Spelling → List Token
  | [] => ending trailing .closeList
  | d :: ds => .comma :: (tokens d ++ moreItems trailing ds)

def moreMembers (trailing : Bool) : List (List Glyph × Spelling) → List Token
  | [] => ending trailing .closeMap
  | (key, d) :: ms => .comma :: .string key :: .colon :: (tokens d ++ moreMembers trailing ms)

end

end Spelling

def Blanks (s : List Char) : Prop := ∀ c ∈ s, isGap c = true

/-- A gap of white space and comments, those up to the end of the line being ended. -/
inductive Gap : List Char → Prop
  | nil : Gap []
  | blank {c : Char} {s : List Char} : isGap c = true → Gap s → Gap (c :: s)
  | line {content : List Char} {c : Char} {s : List Char} :
      (∀ x ∈ content, x ≠ '\n' ∧ x ≠ '\r') → c = '\n' ∨ c = '\r' → Gap s →
        Gap ('/' :: '/' :: (content ++ c :: s))
  | block {content s : List Char} :
      ¬ ['*', '/'] <:+: content → Gap s → Gap ('/' :: '*' :: (content ++ '*' :: '/' :: s))

/-- A text consists of tokens with gaps between them. -/
inductive Lays (G : List Char → Prop) : List Token → List Char → Prop
  | nil {gap : List Char} : G gap → Lays G [] gap
  | cons {gap s : List Char} {t : Token} {ts : List Token} :
      G gap → Lays G ts s → Lays G (t :: ts) (gap ++ (t.chars ++ s))

theorem Lays.prepend {G : List Char → Prop} (hG : ∀ g g', G g → G g' → G (g ++ g'))
    {ts : List Token} {gap s : List Char} (hgap : G gap) (h : Lays G ts s) : Lays G ts (gap ++ s) := by
  cases h with
  | nil hs => exact .nil (hG _ _ hgap hs)
  | cons hs htail =>
      rw [← List.append_assoc]
      exact .cons (hG _ _ hgap hs) htail

theorem Blanks.append {s t : List Char} (hs : Blanks s) (ht : Blanks t) : Blanks (s ++ t) :=
  List.forall_mem_append.2 ⟨hs, ht⟩

/-- The characters of the tokens that are neither strings nor commas. -/
def isBare (c : Char) : Bool :=
  c.isDigit || ['-', '+', '.', 'e', 'E', 'n', 'u', 'l', 't', 'r', 'a', 'f', 's', '[', ']', '\x7b',
    '\x7d', ':'].contains c

theorem ne_of_isBare {c x : Char} (h : isBare c = true) (hx : isBare x = false) : c ≠ x := by
  rintro rfl
  rw [h] at hx
  cases hx

theorem isBare_of_isDigit {c : Char} (h : c.isDigit = true) : isBare c = true := by
  rw [isBare, h, Bool.true_or]

namespace Hex

theorem isSome_hexValue? (h : Hex) : ∀ c ∈ h.chars, (hexValue? c).isSome = true := by
  obtain ⟨a, b, c, d, n, hn⟩ := h
  simp only [hexOf?, bind, Option.bind_eq_some_iff] at hn
  obtain ⟨w, hw, x, hx, y, hy, z, hz, -⟩ := hn
  simp [chars, hw, hx, hy, hz]

theorem ne_of_mem_chars {h : Hex} {c x : Char} (hc : c ∈ h.chars) (hx : hexValue? x = none) :
    c ≠ x := by
  rintro rfl
  have hsome := h.isSome_hexValue? c hc
  rw [hx] at hsome
  cases hsome

end Hex

theorem Glyph.ne_of_escape {letter c x : Char} (h : escapeOf? letter = some c)
    (hx : escapeOf? x = none) : letter ≠ x := by
  rintro rfl
  rw [h] at hx
  cases hx

namespace Numeral

theorem isBare_exponent (e : Exponent) : ∀ c ∈ e.chars, isBare c = true := by
  have hletter : isBare e.letter = true := by
    rcases e.letter_eq with h | h
    · rw [h]
      decide
    · rw [h]
      decide
  have hsign : ∀ c ∈ e.sign, isBare c = true := by
    rcases e.sign_eq with h | h | h
    · simp [h]
    · rw [h, List.forall_mem_singleton]
      decide
    · rw [h, List.forall_mem_singleton]
      decide
  rw [Exponent.chars, List.forall_mem_cons, List.forall_mem_append]
  exact ⟨hletter, hsign, fun c hc => isBare_of_isDigit (e.isDigit_digits c hc)⟩

theorem isBare_tail (n : Numeral) : ∀ c ∈ n.tail, isBare c = true := by
  rw [tail, List.forall_mem_append]
  constructor
  · split
    · simp
    · rw [List.forall_mem_cons]
      exact ⟨by decide, fun c hc => isBare_of_isDigit (n.isDigit_fraction c hc)⟩
  · cases n.exponent with
    | none => simp
    | some e => exact isBare_exponent e

theorem isBare_chars (n : Numeral) : ∀ c ∈ n.chars, isBare c = true := by
  rw [chars, List.forall_mem_append, List.forall_mem_append]
  refine ⟨?_, fun c hc => isBare_of_isDigit (n.isDigit_whole c hc), n.isBare_tail⟩
  split
  · exact List.forall_mem_singleton.2 (by decide)
  · simp

end Numeral

namespace Token

def IsBare (t : Token) : Prop := t ≠ .comma ∧ ∀ gs, t ≠ .string gs

theorem isBare_chars {t : Token} (h : t.IsBare) : ∀ c ∈ t.chars, isBare c = true := by
  cases t with
  | comma => exact absurd rfl h.1
  | string gs => exact absurd rfl (h.2 gs)
  | number n => exact n.isBare_chars
  | word w =>
      cases w with
      | null => exact List.all_eq_true.1 rfl
      | bool b =>
          cases b with
          | true => exact List.all_eq_true.1 rfl
          | false => exact List.all_eq_true.1 rfl
  | _ => exact List.all_eq_true.1 rfl

theorem chars_ne_nil (t : Token) : t.chars ≠ [] := by
  cases t with
  | number n =>
      have hwhole : n.whole ≠ [] := by
        rcases n.whole_eq with h | ⟨h, -⟩
        · simp [h]
        · exact h
      simp [chars, Numeral.chars, hwhole]
  | word w =>
      cases w with
      | null => decide
      | bool b =>
          cases b with
          | true => decide
          | false => decide
  | _ => simp [chars]

end Token

end DeclBundle.Json
