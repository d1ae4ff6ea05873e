import DeclBundle.Data.Value

/-!
# Values given to options

An option that a call names has a value, or it is named in vain: the marker `--`, attached in place of a
value, is taken away and leaves nothing, as earlier releases of the argument parser have it; later ones keep
it for a text. Such an option is neither absent nor a text. It counts as an empty list wherever values are
compared, so that `Given.toValue_blank` is never the absent value.
-/

namespace DeclBundle.CommandLine

/-- What a call gives to an option that it names. -/
inductive Given (α : Type) where
  | blank
  | value (a : α)
deriving DecidableEq, Repr

namespace Given

variable {α β ε : Type}

def value? : Given α → Option α
  | blank => none
  | value a => some a

/-- The value read by a reader that may fail. -/
def read (f : α → Except ε β) : Given α → Except ε (Given β)
  | blank => .ok blank
  | value a => (f a).map value

def toValue (f : α → Value) : Given α → Value
  | blank => .list []
  | value a => f a

@[simp] theorem value?_blank : (blank : Given α).value? = none := rfl

@[simp] theorem value?_value (a : α) : (value a).value? = some a := rfl

@[simp] theorem read_blank (f : α → Except ε β) : blank.read f = .ok blank := rfl

@[simp] theorem read_value (f : α → Except ε β) (a : α) :
    (value a).read f = (f a).map value := rfl

@[simp] theorem toValue_blank (f : α → Value) : blank.toValue f = .list [] := rfl

@[simp] theorem toValue_value (f : α → Value) (a : α) : (value a).toValue f = f a := rfl

end Given

end DeclBundle.CommandLine
