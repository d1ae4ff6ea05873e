import DeclBundle.Decimal.Literal
import DeclBundle.Failure
import DeclBundle.Yaml.Fault

/-!
# Plain scalars

A scalar without quotes stands for the absent value, a truth value, a number or a date if it has the form
of one, and for itself otherwise. A whole number may be written with underscores, in base two, eight or
sixteen, or with colons in base sixty; a fraction has a point, and an exponent only with a sign. A date is a
year of four digits, a month and a day of two.
-/

namespace DeclBundle.Yaml

inductive Stop where
  | fault (f : Fault)
  | badValue (b : BadValue)

def nullWords : List String := ["", "~", "null", "Null", "NULL"]

def trueWords : List String := ["yes", "Yes", "YES", "true", "True", "TRUE", "on", "On", "ON"]

def falseWords : List String := ["no", "No", "NO", "false", "False", "FALSE", "off", "Off", "OFF"]

def infinityWords : List String := [".inf", ".Inf", ".INF"]

def nanWords : List String := [".nan", ".NaN", ".NAN"]

def isDigitOf (base : Nat) (c : Char) : Bool :=
  c == '_' || (c.isDigit && c.toNat - 48 < base) ||
    (base == 16 && (('a' ≤ c && c ≤ 'f') || ('A' ≤ c && c ≤ 'F')))

def digitOf (c : Char) : Nat :=
  if c.isDigit then c.toNat - 48
  else if 'a' ≤ c then c.toNat - 87
  else c.toNat - 55

def inBase (base : Nat) (s : List Char) : Nat :=
  (s.filter (· != '_')).foldl (fun n c => base * n + digitOf c) 0

def isSixtieth (s : List Char) : Bool :=
  match s with
  | [c] => c.isDigit
  | [c, d] => '0' ≤ c && c ≤ '5' && d.isDigit
  | _ => false

/-- The digits of a number that begins with a digit that is no zero. -/
def isCounting (s : List Char) : Bool :=
  match s with
  | c :: cs => '1' ≤ c && c ≤ '9' && cs.all (isDigitOf 10)
  | [] => false

/-- The digits with underscores of a number that begins with a digit. -/
def isDigits (s : List Char) : Bool :=
  match s with
  | c :: cs => c.isDigit && cs.all (isDigitOf 10)
  | [] => false

def sixties (parts : List (List Char)) : Nat :=
  parts.foldl (fun n p => 60 * n + inBase 10 p) 0

/-- A whole number without its sign: its value, and the digits of one in base ten. -/
def wholeOf? (s : List Char) : Option (Nat × Nat) :=
  match s with
  | '0' :: 'b' :: cs => if !cs.isEmpty && cs.all (isDigitOf 2) then some (inBase 2 cs, 0) else none
  | '0' :: 'x' :: cs => if !cs.isEmpty && cs.all (isDigitOf 16) then some (inBase 16 cs, 0) else none
  | '0' :: cs => if cs.all (isDigitOf 8) then some (inBase 8 cs, 0) else none
  | _ =>
    match s.splitOn ':' with
    | [digits] =>
      if isCounting digits then some (inBase 10 digits, (digits.filter (· != '_')).length) else none
    | first :: more =>
      if isCounting first && more.all isSixtieth then some (sixties (first :: more), 0) else none
    | [] => none

def exponentOf? (s : List Char) : Option Int :=
  match s with
  | [] => some 0
  | e :: sign :: digits =>
    if (e = 'e' ∨ e = 'E') ∧ (sign = '-' ∨ sign = '+') ∧ digits ≠ [] ∧ digits.all Char.isDigit then
      let n : Int := inBase 10 digits
      some (if sign = '-' then -n else n)
    else none
  | _ => none

def fractionOf? (signedForm : Bool) (s : List Char) : Option Float :=
  let whole := s.takeWhile (· != '.')
  match s.dropWhile (· != '.') with
  | '.' :: rest =>
    let digits := rest.takeWhile (isDigitOf 10)
    let tail := rest.dropWhile (isDigitOf 10)
    let ok := if whole.isEmpty then !signedForm && isDigits digits else isDigits whole
    if ok then
      (exponentOf? tail).map fun e =>
        Decimal.toFloat (inBase 10 (whole ++ digits)) (e - (digits.filter (· != '_')).length)
    else none
  | _ => none

def daysOf (year month : Nat) : Nat :=
  if month = 2 then if (4 ∣ year ∧ ¬ 100 ∣ year) ∨ 400 ∣ year then 29 else 28
  else if month ∈ [4, 6, 9, 11] then 30
  else 31

def date (text : String) (year month day : Nat) : Except Stop Value :=
  if year = 0 then .error (.badValue (.date "year 0 is out of range"))
  else if month = 0 ∨ 12 < month then .error (.badValue (.date "month must be in 1..12"))
  else if day = 0 ∨ daysOf year month < day then
    .error (.badValue (.date "day is out of range for month"))
  else .ok (.other ⟨s!"datetime.date({year}, {month}, {day})", text, true, none⟩)

def dateOf? : List Char → Option (Nat × Nat × Nat)
  | [a, b, c, d, '-', e, f, '-', g, h] =>
    if [a, b, c, d, e, f, g, h].all Char.isDigit then
      some (inBase 10 [a, b, c, d], inBase 10 [e, f], inBase 10 [g, h])
    else none
  | _ => none

def plain (s : String) : Except Stop Value :=
  let (negative, body) := Decimal.takeSign s.toList
  let signedForm := body.length < s.length
  if s ∈ nullWords then .ok .null
  else if s ∈ trueWords then .ok (.bool true)
  else if s ∈ falseWords then .ok (.bool false)
  else if String.ofList body ∈ infinityWords then
    .ok (.float (Decimal.signed negative (Float.ofBits 0x7ff0000000000000)))
  else if s ∈ nanWords then .ok (.float (Float.ofBits 0x7ff8000000000000))
  else
    match wholeOf? body, fractionOf? signedForm body, dateOf? s.toList with
    | some (n, digits), _, _ =>
      if Text.digitLimit < digits then .error (.badValue (.longNumber digits))
      else .ok (.int (if negative then -n else n))
    | none, some x, _ => .ok (.float (Decimal.signed negative x))
    | none, none, some (year, month, day) => date s year month day
    | none, none, none => .ok (.text s)

end DeclBundle.Yaml
