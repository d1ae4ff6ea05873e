/-!
# Encoded text

File contents are bytes. `decode?` reads them as UTF-8 and refuses every malformed sequence;
`decodeMarked?` also drops one byte order mark at the beginning. A file that ends inside the mark has
no text in it yet, so it reads as empty.
-/

namespace DeclBundle.Text

def byteOrderMark : Char := '\uFEFF'

def decode? (bytes : ByteArray) : Option String := String.fromUTF8? bytes

def dropMark : List Char → List Char
  | [] => []
  | c :: cs => if c = byteOrderMark then cs else c :: cs

/-- The text whose UTF-8 form is given, with or without a byte order mark. -/
def decodeMarked? (bytes : ByteArray) : Option String :=
  if bytes.toList = [0xef] ∨ bytes.toList = [0xef, 0xbb] then some ""
  else (decode? bytes).map fun s => String.ofList (dropMark s.toList)

def encode (s : String) : ByteArray := s.toUTF8

theorem decode?_encode (s : String) : decode? (encode s) = some s := by
  simp only [decode?, encode, String.toUTF8_eq_toByteArray, String.fromUTF8?, s.isValidUTF8, dite_true]
  rfl

theorem encode_of_decode? {bytes : ByteArray} {s : String} (h : decode? bytes = some s) :
    encode s = bytes := by
  rw [decode?, String.fromUTF8?] at h
  split at h
  · cases h
    rfl
  · cases h

@[simp] theorem dropMark_nil : dropMark [] = [] := rfl

@[simp] theorem dropMark_mark (cs : List Char) : dropMark (byteOrderMark :: cs) = cs := by
  simp [dropMark]

theorem dropMark_of_ne {c : Char} (h : c ≠ byteOrderMark) (cs : List Char) :
    dropMark (c :: cs) = c :: cs := by
  simp [dropMark, h]

end DeclBundle.Text
