import DeclBundle.Text.Blank
import DeclBundle.Text.Digit

/-!
# Reading numbers

`toFloat` is the binary fraction nearest to `mantissa * 10 ^ exponent`, found without building powers
that no such number can have. `floatOf?` reads the free form of a number on a command line: white space
around it, an optional sign, digits of any script with single underscores between two of them, a point,
an exponent, or one of the words for infinity and for a value that is none.
-/

namespace DeclBundle.Decimal

def toFloat (mantissa : Nat) (exponent : Int) : Float :=
  let digits := (Nat.toDigits 10 mantissa).length
  if mantissa = 0 then 0
  else if 400 < exponent + digits then Float.ofBits 0x7ff0000000000000
  else if exponent + digits < -400 then 0
  else if 0 ≤ exponent then Float.ofScientific mantissa false exponent.toNat
  else Float.ofScientific mantissa true (-exponent).toNat

def signed (negative : Bool) (x : Float) : Float := if negative then -x else x

def takeSign : List Char → Bool × List Char
  | '-' :: cs => (true, cs)
  | '+' :: cs => (false, cs)
  | cs => (false, cs)

/-- A row of digits in which a single underscore may stand between two digits; the digits and the
rest. The flag says that a digit has just been read. -/
def takeDigits : Bool → List Char → List Char × List Char
  | afterDigit, c :: cs =>
    if Text.isDecimalDigit c then
      let (ds, rest) := takeDigits true cs
      (c :: ds, rest)
    else
      match c, cs with
      | '_', d :: _ =>
        if afterDigit && Text.isDecimalDigit d then takeDigits false cs else ([], c :: cs)
      | _, _ => ([], c :: cs)
  | _, [] => ([], [])

def exponentOf? : List Char → Option Int
  | [] => some 0
  | c :: cs =>
    if c = 'e' ∨ c = 'E' then
      let (negative, cs) := takeSign cs
      match takeDigits false cs with
      | ([], _) => none
      | (ds, []) =>
        let n : Int := Text.naturalOf ds
        some (if negative then -n else n)
      | _ => none
    else none

/-- A number of digits, a point and an exponent, without its sign. -/
def unsignedOf? (s : List Char) : Option Float :=
  let (whole, rest) := takeDigits false s
  let (fraction, rest) :=
    match rest with
    | '.' :: cs => takeDigits false cs
    | _ => ([], rest)
  if whole.isEmpty && fraction.isEmpty then none
  else
    (exponentOf? rest).map fun e =>
      toFloat (Text.naturalOf (whole ++ fraction)) (e - fraction.length)

/-- White space around a number; the information separators do not count. -/
def isMargin (c : Char) : Bool := Text.isBlank c && !(0x1c ≤ c.toNat && c.toNat ≤ 0x1f)

def withoutMargins (s : List Char) : List Char :=
  ((s.dropWhile isMargin).reverse.dropWhile isMargin).reverse

def floatOf? (s : String) : Option Float :=
  let (negative, body) := takeSign (withoutMargins s.toList)
  let word := String.ofList (body.map Char.toLower)
  if word = "inf" ∨ word = "infinity" then
    some (signed negative (Float.ofBits 0x7ff0000000000000))
  else if word = "nan" then some (Float.ofBits 0x7ff8000000000000)
  else (unsignedOf? body).map (signed negative)

end DeclBundle.Decimal
