import DeclBundle.Data.Value
import DeclBundle.Decimal.Shortest
import DeclBundle.Text.Quoted

/-!
# Values in messages

`Value.shown` is the text of a value inside another one or between marks of a message: texts are quoted,
lists stand in square and maps in curly brackets. `Value.display` is the text of a value where a text is
expected; it differs for a text, which stands for itself, and may differ for a foreign value. Both are
total: a whole number is shown however many digits it has, where the program that prints one with more than
`Text.digitLimit` digits would fail.
-/

namespace DeclBundle.Value

def spelling : Decimal.Spelling := ⟨"nan", "inf"⟩

mutual

def shown : Value → String
  | null => "None"
  | bool b => if b then "True" else "False"
  | int n => toString n
  | float x => Decimal.ofFloat spelling x
  | text s => Text.quote s
  | list xs => "[" ++ showItems xs ++ "]"
  | map es => "\x7b" ++ showEntries es ++ "\x7d"
  | other x => Foreign.shown x

def showItems : List Value → String
  | [] => ""
  | [x] => x.shown
  | x :: y :: xs => x.shown ++ ", " ++ showItems (y :: xs)

def showEntries : List (Value × Value) → String
  | [] => ""
  | [(k, v)] => k.shown ++ ": " ++ v.shown
  | (k, v) :: e :: es => k.shown ++ ": " ++ v.shown ++ ", " ++ showEntries (e :: es)

end

def display : Value → String
  | text s => s
  | other x => x.display
  | v => v.shown

@[simp] theorem display_text (s : String) : display (text s) = s := rfl

end DeclBundle.Value
