/-!
# White space

`isBlank` is the white space class used for trimming a line, for telling an indented line from a
flush one and for the gaps inside a cleaned settings file: the tabs and line breaks of ASCII, the
four information separators, the next-line mark, and the space separators and line and paragraph
separators of Unicode. `trim` drops such characters at both ends.
-/

namespace DeclBundle.Text

/-- White space in the wide, Unicode-aware sense. -/
def isBlank (c : Char) : Bool :=
  let n := c.toNat
  (0x9 ≤ n && n ≤ 0xd) || (0x1c ≤ n && n ≤ 0x20) || n == 0x85 || n == 0xa0 || n == 0x1680 ||
    (0x2000 ≤ n && n ≤ 0x200a) || n == 0x2028 || n == 0x2029 || n == 0x202f || n == 0x205f ||
    n == 0x3000

def trimLeft (s : List Char) : List Char := s.dropWhile isBlank

def trimRight (s : List Char) : List Char := (s.reverse.dropWhile isBlank).reverse

def trim (s : List Char) : List Char := trimRight (trimLeft s)

@[simp] theorem trimLeft_nil : trimLeft [] = [] := rfl

@[simp] theorem trimRight_nil : trimRight [] = [] := rfl

@[simp] theorem trim_nil : trim [] = [] := rfl

end DeclBundle.Text
