import DeclBundle.Text.Blank

/-!
# Comments and trailing commas

A settings file may hold comments and a comma before a closing bracket. `withoutComments` drops what
stands between `//` and the end of the line, the line feed excluded, and between `/*` and the next `*/`,
unless it stands in a string; a comment or a string that is not closed goes on to the end.
`withoutTrailingCommas` then drops each comma before a closing bracket, whatever white space stands
between them; it does not look whether the comma stands in a string.
-/

namespace DeclBundle.Json

inductive Mode where
  | plain
  | quoted
  | line
  | block
deriving DecidableEq, Repr

def uncomment : Mode → List Char → List Char
  | _, [] => []
  | .plain, '"' :: cs => '"' :: uncomment .quoted cs
  | .plain, '/' :: '/' :: cs => uncomment .line cs
  | .plain, '/' :: '*' :: cs => uncomment .block cs
  | .plain, c :: cs => c :: uncomment .plain cs
  | .quoted, '\\' :: c :: cs => '\\' :: c :: uncomment .quoted cs
  | .quoted, '"' :: cs => '"' :: uncomment .plain cs
  | .quoted, c :: cs => c :: uncomment .quoted cs
  | .line, '\n' :: cs => '\n' :: uncomment .plain cs
  | .line, _ :: cs => uncomment .line cs
  | .block, '*' :: '/' :: cs => uncomment .plain cs
  | .block, _ :: cs => uncomment .block cs

/-- Whether the next character that is not blank closes a list or an object. -/
def closes (s : List Char) : Bool :=
  match Text.trimLeft s with
  | c :: _ => c == '}' || c == ']'
  | [] => false

def untrail : List Char → List Char
  | [] => []
  | c :: cs => if c == ',' && closes cs then untrail cs else c :: untrail cs

def withoutComments (s : String) : String := String.ofList (uncomment .plain s.toList)

/-- A text without the commas before closing brackets. -/
def withoutTrailingCommas (s : String) : String := String.ofList (untrail s.toList)

@[simp] theorem uncomment_nil (m : Mode) : uncomment m [] = [] := by cases m <;> rfl

theorem uncomment_plain_cons {c : Char} (hquote : c ≠ '"') (hslash : c ≠ '/') (cs : List Char) :
    uncomment .plain (c :: cs) = c :: uncomment .plain cs := by
  rw [uncomment]
  · exact hquote
  · exact fun ds hc _ => hslash hc
  · exact fun ds hc _ => hslash hc

theorem uncomment_block_cons {c : Char} {cs : List Char} (h : c = '*' → cs.head? ≠ some '/') :
    uncomment .block (c :: cs) = uncomment .block cs := by
  rw [uncomment]
  rintro ds rfl rfl
  exact h rfl rfl

@[simp] theorem untrail_nil : untrail [] = [] := rfl

end DeclBundle.Json
