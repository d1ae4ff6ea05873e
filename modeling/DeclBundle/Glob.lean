/-!
# Globs

A glob is a row of tests for single characters, cut into segments by stars. `Glob.ofChars` reads one: a
star stands for any text, a question mark for any character, and brackets for one character of a class;
brackets that are not closed, and everything else, stand for themselves. `Glob.accepts` matches a whole
text: the first segment at its beginning, the last one at its end, and each segment between at the first
place where it fits. No character is special in the text, slashes and line ends included.
-/

namespace DeclBundle

inductive Glob.Test where
  | just (c : Char)
  | any
  | never
  /-- A character in one of the ranges, or one in none of them. -/
  | oneOf (negated : Bool) (ranges : List (Char × Char))
deriving DecidableEq, Repr

/-- Segments of tests; a star stands before each of the later ones. -/
structure Glob where
  head : List Glob.Test
  tails : List (List Glob.Test)
deriving DecidableEq, Repr

namespace Glob

def Test.accepts : Test → Char → Bool
  | just d, c => c == d
  | any, _ => true
  | never, _ => false
  | oneOf negated ranges, c =>
    (ranges.any fun r => r.1.toNat ≤ c.toNat && c.toNat ≤ r.2.toNat) != negated

/-! ### Classes -/

/-- A member of a class before its ranges are formed: a character, or the hyphen of a range. -/
inductive Member where
  | char (c : Char)
  | hyphen
deriving DecidableEq, Repr

/-- The stretches of a class between the hyphens that form ranges: the first hyphen counts from the
second character on, and another one not before the third character behind the last. The counter is the
number of characters that cannot be such a hyphen. -/
def chunks : Nat → List Char → List (List Char)
  | _, [] => [[]]
  | 0, '-' :: cs => [] :: chunks 2 cs
  | wait, c :: cs =>
    match chunks (wait - 1) cs with
    | [] => [[c]]
    | p :: ps => (c :: p) :: ps

def closeChunks : List (List Char) → List (List Char)
  | [] => []
  | [p, []] => [p ++ ['-']]
  | p :: ps => p :: closeChunks ps

/-- Ranges whose ends are the wrong way round lose both ends, from the last range to the first. -/
def dropReversed : List (List Char) → List (List Char)
  | [] => []
  | p :: ps =>
    match dropReversed ps with
    | [] => [p]
    | q :: qs =>
      match p.getLast?, q with
      | some a, b :: q' => if b.toNat < a.toNat then (p.dropLast ++ q') :: qs else p :: q :: qs
      | _, _ => p :: q :: qs

def membersOf : List (List Char) → List Member
  | [] => []
  | [p] => p.map .char
  | p :: q :: ps => p.map .char ++ .hyphen :: membersOf (q :: ps)

/-- The ranges of a class; a hyphen that has no end before or behind it stands for itself. -/
def rangesOf : List Member → List (Char × Char)
  | [] => []
  | .char a :: .hyphen :: .char b :: ms => (a, b) :: rangesOf ms
  | .char a :: ms => (a, a) :: rangesOf ms
  | .hyphen :: ms => ('-', '-') :: rangesOf ms

/-- The test for the text between brackets. A class without members accepts nothing, and one that only
negates accepts everything. -/
def classOf (s : List Char) : Test :=
  let wait := if s.head? = some '!' then 2 else 1
  match membersOf (dropReversed (closeChunks (chunks wait s))) with
  | [] => .never
  | [.char '!'] => .any
  | .char '!' :: ms => .oneOf true (rangesOf ms)
  | ms => .oneOf false (rangesOf ms)

/-! ### Reading -/

/-- The text of a class and what follows its bracket. A bracket that comes first, or behind the sign of
negation, is a member. -/
def splitClass? (s : List Char) : Option (List Char × List Char) :=
  let sign := if s.head? = some '!' then 1 else 0
  let first := if (s.drop sign).head? = some ']' then sign + 1 else sign
  let body := (s.drop first).takeWhile (· != ']')
  match (s.drop first).dropWhile (· != ']') with
  | [] => none
  | _ :: rest => some (s.take first ++ body, rest)

def test (t : Test) (g : Glob) : Glob := { g with head := t :: g.head }

def star (g : Glob) : Glob := ⟨[], g.head :: g.tails⟩

/-- Reads a glob; the counter bounds the number of tests and stars. -/
def read : Nat → List Char → Glob
  | 0, _ => ⟨[], []⟩
  | _, [] => ⟨[], []⟩
  | fuel + 1, '*' :: cs => (read fuel cs).star
  | fuel + 1, '?' :: cs => (read fuel cs).test .any
  | fuel + 1, '[' :: cs =>
    match splitClass? cs with
    | none => (read fuel cs).test (.just '[')
    | some (s, rest) => (read fuel rest).test (classOf s)
  | fuel + 1, c :: cs => (read fuel cs).test (.just c)

def ofChars (s : List Char) : Glob := read s.length s

/-! ### Matching -/

def pass? : List Test → List Char → Option (List Char)
  | [], s => some s
  | _ :: _, [] => none
  | t :: ts, c :: cs => if t.accepts c then pass? ts cs else none

/-- What is left of a text behind the first place where a segment fits. -/
def seek? (segment : List Test) : List Char → Option (List Char)
  | [] => pass? segment []
  | c :: cs =>
    match pass? segment (c :: cs) with
    | some rest => some rest
    | none => seek? segment cs

def endsWith (segment : List Test) (s : List Char) : Bool :=
  segment.length ≤ s.length && pass? segment (s.drop (s.length - segment.length)) == some []

/-- Whether a text is taken up by segments with a star before each of them. -/
def acceptsTails : List (List Test) → List Char → Bool
  | [], s => s.isEmpty
  | [last], s => endsWith last s
  | segment :: next :: more, s =>
    match seek? segment s with
    | none => false
    | some rest => acceptsTails (next :: more) rest

def accepts (g : Glob) (s : List Char) : Bool :=
  match pass? g.head s with
  | none => false
  | some rest => acceptsTails g.tails rest

end Glob

end DeclBundle
