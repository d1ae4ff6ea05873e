import DeclBundle.Data.Value
import DeclBundle.Decimal.Literal
import DeclBundle.Json.Fault
import DeclBundle.Text.Encoding

/-!
# Reading JSON

`Json.read` reads one value that takes up a whole text. A number without point and exponent is a whole
number of any size up to the limit of digits; every other number, and the words for infinity and for a
value that is none, are binary fractions. Of two members of an object with one key the later counts, in
the place of the earlier. Half a surrogate pair stands for the replacement character.

The functions below read from the front of the rest of a text and return what is left. A fault is noted
with the number of characters that were left, which `read` turns into an offset.
-/

namespace DeclBundle.Json

inductive Stop where
  | fault (cause : Cause) (left : Nat)
  | longNumber (digits : Nat)
deriving DecidableEq, Repr

/-- A reading of a part: its value and the rest of the text. -/
abbrev Reading (α : Type) := Except Stop (α × List Char)

def isGap (c : Char) : Bool := c == ' ' || c == '\t' || c == '\n' || c == '\r'

def skipGap (s : List Char) : List Char := s.dropWhile isGap

/-! ### Strings -/

def escapeOf? : Char → Option Char
  | '"' => some '"'
  | '\\' => some '\\'
  | '/' => some '/'
  | 'b' => some '\x08'
  | 'f' => some '\x0c'
  | 'n' => some '\n'
  | 'r' => some '\r'
  | 't' => some '\t'
  | _ => none

def hexValue? (c : Char) : Option Nat :=
  if '0' ≤ c ∧ c ≤ '9' then some (c.toNat - 48)
  else if 'a' ≤ c ∧ c ≤ 'f' then some (c.toNat - 87)
  else if 'A' ≤ c ∧ c ≤ 'F' then some (c.toNat - 55)
  else none

/-- The number that the first four characters write, if more than four are left. -/
def fourHex? : List Char → Option (Nat × List Char)
  | a :: b :: c :: d :: e :: rest => do
    let w ← hexValue? a
    let x ← hexValue? b
    let y ← hexValue? c
    let z ← hexValue? d
    pure (((w * 16 + x) * 16 + y) * 16 + z, e :: rest)
  | _ => none

def isHighHalf (n : Nat) : Bool := 0xd800 ≤ n && n < 0xdc00

def isLowHalf (n : Nat) : Bool := 0xdc00 ≤ n && n < 0xe000

/-- The character with a code point, or the replacement character. -/
def charOf (n : Nat) : Char := if isHighHalf n || isLowHalf n then '\uFFFD' else Char.ofNat n

/-- The character of a numeric escape, the letter of which is in front. -/
def readUnicode (s : List Char) : Reading Char :=
  match fourHex? s.tail with
  | none => .error (.fault .badUnicodeEscape s.length)
  | some (high, rest) =>
    match rest with
    | '\\' :: 'u' :: more =>
      if isHighHalf high && 4 < more.length then
        match fourHex? more with
        | none => .error (.fault .badUnicodeEscape (more.length + 1))
        | some (low, rest') =>
          if isLowHalf low then
            .ok (Char.ofNat (0x10000 + (high - 0xd800) * 0x400 + (low - 0xdc00)), rest')
          else .ok (charOf high, rest)
      else .ok (charOf high, rest)
    | _ => .ok (charOf high, rest)

/-- The characters of a string up to its closing quote; `start` is the number of characters that were
left at its opening quote and the counter bounds the number of characters. -/
def readString (start : Nat) : Nat → List Char → Reading (List Char)
  | 0, _ => .error (.fault .openString start)
  | _, [] => .error (.fault .openString start)
  | _, '"' :: cs => .ok ([], cs)
  | _, ['\\'] => .error (.fault .openString start)
  | fuel + 1, '\\' :: 'u' :: cs =>
    match readUnicode ('u' :: cs) with
    | .error e => .error e
    | .ok (c, rest) => (readString start fuel rest).map fun r => (c :: r.1, r.2)
  | fuel + 1, '\\' :: e :: cs =>
    match escapeOf? e with
    | none => .error (.fault .badEscape (cs.length + 2))
    | some c => (readString start fuel cs).map fun r => (c :: r.1, r.2)
  | fuel + 1, c :: cs =>
    if c.toNat < 0x20 then .error (.fault .controlCharacter (cs.length + 1))
    else (readString start fuel cs).map fun r => (c :: r.1, r.2)

/-! ### Numbers -/

def spanDigits (s : List Char) : List Char × List Char :=
  (s.takeWhile Char.isDigit, s.dropWhile Char.isDigit)

def readFraction (s : List Char) : List Char × List Char :=
  match s with
  | '.' :: cs => if (spanDigits cs).1.isEmpty then ([], s) else spanDigits cs
  | _ => ([], s)

def readExponent (s : List Char) : Option Int × List Char :=
  match s with
  | c :: cs =>
    if c = 'e' ∨ c = 'E' then
      let (negative, cs) := Decimal.takeSign cs
      let (ds, rest) := spanDigits cs
      if ds.isEmpty then (none, s)
      else
        let n : Int := Text.naturalOf ds
        (some (if negative then -n else n), rest)
    else (none, s)
  | [] => (none, s)

/-- The whole part of a number: a zero, or digits that do not begin with one. -/
def readWhole (s : List Char) : List Char × List Char :=
  match s with
  | '0' :: cs => (['0'], cs)
  | _ => spanDigits s

def readNumber (s : List Char) : Reading Value :=
  let (negative, body) :=
    match s with
    | '-' :: cs => (true, cs)
    | _ => (false, s)
  let (whole, rest) := readWhole body
  if whole.isEmpty then .error (.fault .noValue s.length)
  else
    let (fraction, rest) := readFraction rest
    let (exponent, rest) := readExponent rest
    if fraction.isEmpty && exponent.isNone then
      if Text.digitLimit < whole.length then .error (.longNumber whole.length)
      else
        let n : Int := Text.naturalOf whole
        .ok (.int (if negative then -n else n), rest)
    else
      let x := Decimal.toFloat (Text.naturalOf (whole ++ fraction))
        (exponent.getD 0 - fraction.length)
      .ok (.float (Decimal.signed negative x), rest)

/-! ### Values -/

def words : List (List Char × Value) := [
  ("null".toList, .null), ("true".toList, .bool true), ("false".toList, .bool false),
  ("NaN".toList, .float (Float.ofBits 0x7ff8000000000000)),
  ("Infinity".toList, .float (Float.ofBits 0x7ff0000000000000)),
  ("-Infinity".toList, .float (Float.ofBits 0xfff0000000000000))
]

def readWord? (s : List Char) : Option (Value × List Char) :=
  words.findSome? fun w => if w.1.isPrefixOf s then some (w.2, s.drop w.1.length) else none

mutual

def readValue : Nat → List Char → Reading Value
  | 0, s => .error (.fault .noValue s.length)
  | fuel + 1, s =>
    match s with
    | '"' :: cs => (readString s.length s.length cs).map fun r => (.text (String.ofList r.1), r.2)
    | '[' :: cs =>
      match skipGap cs with
      | ']' :: rest => .ok (.list [], rest)
      | rest => (readItems fuel rest).map fun r => (.list r.1, r.2)
    | '{' :: cs =>
      match skipGap cs with
      | '}' :: rest => .ok (.map [], rest)
      | rest => (readMembers fuel rest).map fun r => (.map (Record.ofEntries r.1), r.2)
    | _ =>
      match readWord? s with
      | some r => .ok r
      | none => readNumber s

def readItems : Nat → List Char → Reading (List Value)
  | 0, s => .error (.fault .noValue s.length)
  | fuel + 1, s =>
    match readValue fuel s with
    | .error e => .error e
    | .ok (v, rest) =>
      match skipGap rest with
      | ']' :: rest => .ok ([v], rest)
      | ',' :: rest => (readItems fuel (skipGap rest)).map fun r => (v :: r.1, r.2)
      | rest => .error (.fault .noComma rest.length)

def readMembers : Nat → List Char → Reading (List (Value × Value))
  | 0, s => .error (.fault .noName s.length)
  | fuel + 1, s =>
    match s with
    | '"' :: cs =>
      match readString s.length s.length cs with
      | .error e => .error e
      | .ok (name, rest) =>
        match skipGap rest with
        | ':' :: rest =>
          match readValue fuel (skipGap rest) with
          | .error e => .error e
          | .ok (v, rest) =>
            let member := (Value.text (String.ofList name), v)
            match skipGap rest with
            | '}' :: rest => .ok ([member], rest)
            | ',' :: rest => (readMembers fuel (skipGap rest)).map fun r => (member :: r.1, r.2)
            | rest => .error (.fault .noComma rest.length)
        | rest => .error (.fault .noColon rest.length)
    | _ => .error (.fault .noName s.length)

end

def readDocument (s : List Char) : Except Stop Value :=
  match s with
  | '\uFEFF' :: _ => .error (.fault .byteOrderMark s.length)
  | _ =>
    match readValue (2 * s.length + 2) (skipGap s) with
    | .error e => .error e
    | .ok (v, rest) =>
      match skipGap rest with
      | [] => .ok v
      | rest => .error (.fault .extraData rest.length)

def read (text : String) : Except Refusal Value :=
  let s := text.toList
  match readDocument s with
  | .ok v => .ok v
  | .error (.fault cause left) => .error (.fault (Fault.at s cause (s.length - left)))
  | .error (.longNumber digits) => .error (.longNumber digits)

end DeclBundle.Json
