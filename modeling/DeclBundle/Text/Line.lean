/-!
# Lines

`lines` cuts a text into its lines. A line ends at a line feed, a carriage return, the two of them
together, a vertical tab, a form feed, one of the information separators four to two, the next-line
mark, or the line or paragraph separator of Unicode; the text after the last line end is a line only
if it is not empty. `unifyLineEnds` turns the three classical line ends into line feeds, which is how
a settings file is read.
-/

namespace DeclBundle.Text

def isLineEnd (c : Char) : Bool :=
  let n := c.toNat
  (0xa ≤ n && n ≤ 0xd) || (0x1c ≤ n && n ≤ 0x1e) || n == 0x85 || n == 0x2028 || n == 0x2029

def prependTo (c : Char) : List (List Char) → List (List Char)
  | [] => [[c]]
  | l :: ls => (c :: l) :: ls

def lines : List Char → List (List Char)
  | [] => []
  | '\r' :: '\n' :: cs => [] :: lines cs
  | c :: cs => if isLineEnd c then [] :: lines cs else prependTo c (lines cs)

/-- Carriage returns, alone or before a line feed, become line feeds. -/
def unifyLineEnds : List Char → List Char
  | [] => []
  | '\r' :: '\n' :: cs => '\n' :: unifyLineEnds cs
  | '\r' :: cs => '\n' :: unifyLineEnds cs
  | c :: cs => c :: unifyLineEnds cs

@[simp] theorem lines_nil : lines [] = [] := by simp [lines]

@[simp] theorem unifyLineEnds_nil : unifyLineEnds [] = [] := by simp [unifyLineEnds]

theorem lines_cons_of_not_lineEnd {c : Char} (h : isLineEnd c = false) (cs : List Char) :
    lines (c :: cs) = prependTo c (lines cs) := by
  have hr : c ≠ '\r' := by rintro rfl; simp [isLineEnd] at h
  rw [lines, if_neg (by simp [h])]
  intro _ hc
  exact absurd hc hr

theorem lines_append_newline {s : List Char} (h : ∀ c ∈ s, isLineEnd c = false)
    (rest : List Char) : lines (s ++ '\n' :: rest) = s :: lines rest := by
  induction s with
  | nil => simp [lines, isLineEnd]
  | cons c cs ih =>
    rw [List.cons_append, lines_cons_of_not_lineEnd (h c (by simp)),
      ih (fun x hx => h x (by simp [hx]))]
    rfl

end DeclBundle.Text
