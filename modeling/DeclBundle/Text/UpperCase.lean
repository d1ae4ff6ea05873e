/-!
# Upper case within ASCII

The upper case of a text as far as it lies in ASCII: small letters have capitals, and so have ten
characters outside, one of them being two or three letters in one sign. All others stay as they are.
-/

namespace DeclBundle.Text

def foreignCapitals : List (Char × List Char) := [
  ('\u00df', ['S', 'S']), ('\u0131', ['I']), ('\u017f', ['S']), ('\ufb00', ['F', 'F']),
  ('\ufb01', ['F', 'I']), ('\ufb02', ['F', 'L']), ('\ufb03', ['F', 'F', 'I']),
  ('\ufb04', ['F', 'F', 'L']), ('\ufb05', ['S', 'T']), ('\ufb06', ['S', 'T'])
]

def capital (c : Char) : List Char := (foreignCapitals.lookup c).getD [c.toUpper]

def upper (s : List Char) : List Char := s.flatMap capital

@[simp] theorem upper_nil : upper [] = [] := rfl

end DeclBundle.Text
