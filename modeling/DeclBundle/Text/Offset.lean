/-!
# Byte offsets and character offsets

A parser of source text counts bytes, a text is cut at characters. `charIndex? s b` is the index of
the character of `s` that byte `b` belongs to, and the length of `s` at its end; further on there is
no character. `place?` takes the same step at once for a text of one-byte characters, in which the two
counts agree; there an offset behind the end stays as it is.
-/

namespace DeclBundle.Text

def byteLength : List Char → Nat
  | [] => 0
  | c :: cs => c.utf8Size + byteLength cs

def charIndex? : List Char → Nat → Option Nat
  | [], 0 => some 0
  | [], _ + 1 => none
  | c :: cs, b => if b < c.utf8Size then some 0 else (charIndex? cs (b - c.utf8Size)).map (· + 1)

def place? (s : List Char) (b : Nat) : Option Nat :=
  if byteLength s = s.length then some b else charIndex? s b

/-- The character offset for a byte offset, the end of the text standing in for those behind it. -/
def place (s : List Char) (b : Nat) : Nat := (place? s b).getD s.length

@[simp] theorem byteLength_nil : byteLength [] = 0 := rfl

@[simp] theorem byteLength_cons (c : Char) (cs : List Char) :
    byteLength (c :: cs) = c.utf8Size + byteLength cs := rfl

theorem byteLength_append (s t : List Char) :
    byteLength (s ++ t) = byteLength s + byteLength t := by
  induction s with
  | nil => simp
  | cons c cs ih => simp [ih, Nat.add_assoc]

theorem length_le_byteLength (s : List Char) : s.length ≤ byteLength s := by
  induction s with
  | nil => simp
  | cons c cs ih =>
    have := Char.utf8Size_pos c
    simp only [List.length_cons, byteLength_cons]
    omega

theorem charIndex?_zero (s : List Char) : charIndex? s 0 = some 0 := by
  cases s with
  | nil => rfl
  | cons c cs => simp [charIndex?, Char.utf8Size_pos c]

/-- The byte behind a beginning of the text belongs to the character behind it. -/
theorem charIndex?_byteLength_append (s t : List Char) :
    charIndex? (s ++ t) (byteLength s) = some s.length := by
  induction s with
  | nil => simpa using charIndex?_zero t
  | cons c cs ih =>
    have h : ¬ c.utf8Size + byteLength cs < c.utf8Size := by omega
    simp [charIndex?, h, ih]

end DeclBundle.Text
