/-!
# The shortest decimal form of a binary fraction

A finite number `m * 2 ^ q` stands for every real that rounds to it. `Span` is that interval in exact
natural arithmetic: the value and the two ends as fractions over one denominator, the ends included
exactly if `m` is even. `Span.hit?` looks at the two neighbours of the value on the grid of `n` digits
and takes the nearer one that lies inside, the even one of two equally near; `shortest` takes the first
`n` that has a hit. `render` writes the digits: positionally from one ten-thousandth up to ten to the
sixteenth, with a fraction of at least one digit, otherwise with an exponent of at least two digits.
-/

namespace DeclBundle.Decimal

/-- The reals that round to one binary fraction, as numerators over one denominator. -/
structure Span where
  low : Nat
  value : Nat
  high : Nat
  unit : Nat
  closed : Bool

/-- Digits with the exponent of the power of ten that they count. -/
structure Digits where
  mantissa : Nat
  exponent : Int
deriving DecidableEq, Repr

/-- The interval of `m * 2 ^ q`; below a power of two the gap to the lower neighbour is half as wide. -/
def Span.ofBinary (m : Nat) (q : Int) (narrow : Bool) : Span :=
  let below := if narrow then 1 else 2
  let scale := if 0 ≤ q then Nat.pow 2 q.toNat else 1
  let unit := 4 * (if 0 ≤ q then 1 else Nat.pow 2 (-q).toNat)
  ⟨(4 * m - below) * scale, 4 * m * scale, (4 * m + 2) * scale, unit, m % 2 == 0⟩

def Span.scale (s : Span) (e : Int) : Span :=
  if 0 ≤ e then
    let f := Nat.pow 10 e.toNat
    { s with low := s.low * f, value := s.value * f, high := s.high * f }
  else { s with unit := s.unit * Nat.pow 10 (-e).toNat }

def Span.holds (s : Span) (d : Nat) : Bool :=
  let n := d * s.unit
  if s.closed then s.low ≤ n && n ≤ s.high else s.low < n && n < s.high

/-- The whole number in the interval that is next to the value, if there is one. -/
def Span.hit? (s : Span) : Option Nat :=
  let d := s.value / s.unit
  let down := s.value - d * s.unit
  let up := (d + 1) * s.unit - s.value
  match s.holds d, s.holds (d + 1) with
  | false, false => none
  | true, false => some d
  | false, true => some (d + 1)
  | true, true =>
    if down < up then some d else if up < down then some (d + 1)
    else some (if d % 2 == 0 then d else d + 1)

def leadingZeros (value unit : Nat) : Nat → Nat → Nat
  | 0, k => k
  | fuel + 1, k => if unit ≤ value * Nat.pow 10 k then k else leadingZeros value unit fuel (k + 1)

def Span.magnitude (s : Span) : Int :=
  if s.unit ≤ s.value then (Nat.toDigits 10 (s.value / s.unit)).length - 1
  else -(leadingZeros s.value s.unit 400 0 : Nat)

def Span.search (s : Span) (first : Int) : Nat → Nat → Digits
  | 0, n => ⟨s.value / s.unit, first - n⟩
  | fuel + 1, n =>
    let last := first - n
    match (s.scale (-last)).hit? with
    | some d => ⟨d, last⟩
    | none => s.search first fuel (n + 1)

/-- The fewest digits that read back as the value, the nearest of those. -/
def shortest (s : Span) : Digits := s.search s.magnitude 18 0

def Digits.strip : Nat → Digits → Digits
  | 0, d => d
  | fuel + 1, d =>
    if d.mantissa ≠ 0 ∧ d.mantissa % 10 = 0 then strip fuel ⟨d.mantissa / 10, d.exponent + 1⟩ else d

def natural (n : Nat) : List Char := Nat.toDigits 10 n

/-- The digits of a value written out, in one of the two layouts. -/
def Digits.render (d : Digits) : List Char :=
  let digits := natural d.mantissa
  let lead := d.exponent + (digits.length - 1 : Nat)
  if -4 ≤ lead ∧ lead < 16 then
    if lead < 0 then '0' :: '.' :: List.replicate (-lead - 1).toNat '0' ++ digits
    else
      let whole := lead.toNat + 1
      let padded := digits ++ List.replicate (whole - digits.length) '0'
      let fraction := padded.drop whole
      padded.take whole ++ '.' :: (if fraction.isEmpty then ['0'] else fraction)
  else
    let exponent := natural lead.natAbs
    let mantissa :=
      match digits with
      | [] => []
      | [c] => [c]
      | c :: cs => c :: '.' :: cs
    mantissa ++ 'e' :: (if lead < 0 then '-' else '+') ::
      (if exponent.length < 2 then '0' :: exponent else exponent)

/-- The spellings of the numbers that have no digits. -/
structure Spelling where
  nan : String
  infinity : String

/-- The text of a number with the given spellings of the extreme ones. -/
def ofFloat (w : Spelling) (x : Float) : String :=
  let bits := x.toBits.toNat
  let hidden := Nat.pow 2 52
  let sign := if bits / Nat.pow 2 63 = 1 then "-" else ""
  let field := bits / hidden % Nat.pow 2 11
  let fraction := bits % hidden
  if field = Nat.pow 2 11 - 1 then
    if fraction = 0 then sign ++ w.infinity else w.nan
  else if field = 0 ∧ fraction = 0 then sign ++ "0.0"
  else
    let m := if field = 0 then fraction else hidden + fraction
    let q : Int := (if field = 0 then 1 else field : Nat) - 1075
    let narrow := fraction = 0 && field > 1
    sign ++ String.ofList ((shortest (Span.ofBinary m q narrow)).strip 20).render

end DeclBundle.Decimal
