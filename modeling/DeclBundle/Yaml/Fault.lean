/-!
# Faults of a YAML text

Why a text is not read as a document.
-/

namespace DeclBundle.Yaml

inductive Fault where
  | badCharacter (c : Char)
  | entryNotAllowed
  | keyNotAllowed
  | valueNotAllowed
  | noColon
  | openQuote
  | badEscape
  | markInQuotes
  | noToken (c : Char)
  | misplaced
  | unknownAlias
  | badKey
  | manyDocuments
deriving DecidableEq, Repr

def Fault.message : Fault → String
  | badCharacter _ => "special characters are not allowed"
  | entryNotAllowed => "sequence entries are not allowed here"
  | keyNotAllowed => "mapping keys are not allowed here"
  | valueNotAllowed => "mapping values are not allowed here"
  | noColon => "could not find expected ':'"
  | openQuote => "found unexpected end of stream"
  | badEscape => "found unknown escape character"
  | markInQuotes => "found unexpected document separator"
  | noToken _ => "found character that cannot start any token"
  | misplaced => "found unexpected part"
  | unknownAlias => "found undefined alias"
  | badKey => "found unhashable key"
  | manyDocuments => "expected a single document in the stream"

end DeclBundle.Yaml
