import DeclBundle.Data.Value
import DeclBundle.Decimal.Shortest
import DeclBundle.Text.Digit
import DeclBundle.Text.Quoted

/-!
# Writing JSON

`Json.write` writes a value in ASCII, each member of a list or an object on a line of its own, indented
by two spaces for each level; an empty list or object stays on its line. Every other character is
escaped, by its letter if it has one and by the numbers of its UTF-16 units otherwise. A whole number with
too many digits is not written, and neither is a foreign value; a `Writing` ends where one stands.
-/

namespace DeclBundle.Json

def spelling : Decimal.Spelling := ⟨"NaN", "Infinity"⟩

def unitEscape (n : Nat) : List Char := '\\' :: 'u' :: Text.hexDigits 4 n

def escapeChar (c : Char) : List Char :=
  if c = '"' ∨ c = '\\' then ['\\', c]
  else if c = '\n' then ['\\', 'n']
  else if c = '\r' then ['\\', 'r']
  else if c = '\t' then ['\\', 't']
  else if c = '\x0c' then ['\\', 'f']
  else if c = '\x08' then ['\\', 'b']
  else if ' ' ≤ c ∧ c ≤ '~' then [c]
  else if c.toNat < 0x10000 then unitEscape c.toNat
  else
    let n := c.toNat - 0x10000
    unitEscape (0xd800 + n / 0x400) ++ unitEscape (0xdc00 + n % 0x400)

def renderText (s : String) : String :=
  String.ofList ('"' :: s.toList.flatMap escapeChar ++ ['"'])

def newLine (level : Nat) : String := "\n" ++ String.ofList (List.replicate (2 * level) ' ')

inductive Obstacle where
  | longNumber
  | foreign
deriving DecidableEq, Repr

/-- What is written of a value, and what stands in the way of the rest. -/
structure Writing where
  text : String
  obstacle : Option Obstacle
deriving DecidableEq, Repr

namespace Writing

def ofText (s : String) : Writing := ⟨s, none⟩

def ofObstacle (o : Obstacle) : Writing := ⟨"", some o⟩

instance : Append Writing where
  append d e := if d.obstacle.isSome then d else ⟨d.text ++ e.text, e.obstacle⟩

@[simp] theorem ofText_append (s : String) (d : Writing) : ofText s ++ d = ⟨s ++ d.text, d.obstacle⟩ := rfl

theorem obstacle_append (d e : Writing) : (d ++ e).obstacle = d.obstacle.or e.obstacle := by
  change (if d.obstacle.isSome then d else ⟨d.text ++ e.text, e.obstacle⟩ : Writing).obstacle = _
  split
  · next h => rw [Option.or_of_isSome h]
  · next h => rw [Option.not_isSome_iff_eq_none.1 h, Option.none_or]

end Writing

def isLong (n : Int) : Bool := Nat.pow 10 Text.digitLimit ≤ n.natAbs

def writeScalar : Value → Writing
  | .null => .ofText "null"
  | .bool b => .ofText (if b then "true" else "false")
  | .int n => if isLong n then .ofObstacle .longNumber else .ofText (toString n)
  | .float x => .ofText (Decimal.ofFloat spelling x)
  | .text s => .ofText (renderText s)
  | .list _ => .ofText "[]"
  | .map _ => .ofText "\x7b\x7d"
  | .other _ => .ofObstacle .foreign

/-- A key; one that is no text is written as the text of its value. -/
def writeKey : Value → Writing
  | .text s => .ofText (renderText s)
  | k => { writeScalar k with text := renderText (writeScalar k).text }

/-- An item behind what stands before it. A number and what stands before it are written at once, or
neither of them is. -/
def writeBehind (before : String) (v : Value) (d : Writing) : Writing :=
  match v, d.obstacle with
  | .int _, some o => .ofObstacle o
  | _, _ => .ofText before ++ d

/-- A member behind what stands before it; its key is looked at before anything of it is written. -/
def writeMember (before : String) (key : Value) (d : Writing) : Writing :=
  match (writeKey key).obstacle with
  | some o => .ofObstacle o
  | none => .ofText before ++ writeKey key ++ .ofText ": " ++ d

mutual

def writeAt (level : Nat) : Value → Writing
  | .list (x :: xs) =>
    writeBehind ("[" ++ newLine (level + 1)) x (writeAt (level + 1) x) ++ writeItems (level + 1) xs ++
      .ofText (newLine level ++ "]")
  | .map ((k, v) :: es) =>
    .ofText ("\x7b" ++ newLine (level + 1)) ++ writeMember "" k (writeAt (level + 1) v) ++
      writeEntries (level + 1) es ++ .ofText (newLine level ++ "\x7d")
  | v => writeScalar v

def writeItems (level : Nat) : List Value → Writing
  | [] => .ofText ""
  | x :: xs => writeBehind ("," ++ newLine level) x (writeAt level x) ++ writeItems level xs

def writeEntries (level : Nat) : List (Value × Value) → Writing
  | [] => .ofText ""
  | (k, v) :: es =>
    writeMember ("," ++ newLine level) k (writeAt level v) ++ writeEntries level es

end

def write (v : Value) : Writing := writeAt 0 v

end DeclBundle.Json
