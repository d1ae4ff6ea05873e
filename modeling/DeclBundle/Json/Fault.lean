/-!
# Faults of a JSON text

A text that is not JSON is refused at its first fault. A fault has a cause and the offset of the
character where it shows; its wording gives the offset also as a line and a column, both counted from
one. `Refusal` adds the whole numbers that have more digits than may be read.
-/

namespace DeclBundle.Json

inductive Cause where
  | noValue
  | noName
  | noColon
  /-- Neither a comma nor the closing bracket stands behind a member. -/
  | noComma
  | extraData
  | openString
  | controlCharacter
  /-- The character behind a backslash has no meaning there. -/
  | badEscape
  | badUnicodeEscape
  | byteOrderMark
deriving DecidableEq, Repr

def Cause.message : Cause → String
  | noValue => "Expecting value"
  | noName => "Expecting property name enclosed in double quotes"
  | noColon => "Expecting ':' delimiter"
  | noComma => "Expecting ',' delimiter"
  | extraData => "Extra data"
  | openString => "Unterminated string starting at"
  | controlCharacter => "Invalid control character at"
  | badEscape => "Invalid \\escape"
  | badUnicodeEscape => "Invalid \\uXXXX escape"
  | byteOrderMark => "Unexpected UTF-8 BOM (decode using utf-8-sig)"

/-- A cause and the place where it shows. -/
structure Fault where
  cause : Cause
  offset : Nat
  line : Nat
  column : Nat
deriving DecidableEq, Repr

def Fault.at (text : List Char) (cause : Cause) (offset : Nat) : Fault :=
  let before := text.take offset
  { cause, offset
    line := before.count '\n' + 1
    column := (before.reverse.takeWhile (· != '\n')).length + 1 }

def Fault.message (f : Fault) : String :=
  s!"{f.cause.message}: line {f.line} column {f.column} (char {f.offset})"

inductive Refusal where
  | fault (f : Fault)
  | longNumber (digits : Nat)
deriving DecidableEq, Repr

end DeclBundle.Json
