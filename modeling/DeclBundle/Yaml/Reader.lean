import DeclBundle.Failure

/-!
# Readers of YAML

Documents in YAML are read by a library. A `Yaml.Reader` is what the program relies on of it: the bytes of a
file have a value, or the reader says what is wrong with the document, or it fails for a reason of its own,
as it does for bytes that are no text or a date that is none. It knows nothing of options and opens no files,
so it blames no file itself; the name of the file is for what it says. A value that holds itself, which a
document can describe, is none of its values.
-/

namespace DeclBundle.Yaml

/-- Why bytes are not read as a document. -/
inductive Refusal where
  /-- They are no document, for a reason that the reader words. -/
  | fault (message : String)
  | failure (e : Failure)

structure Reader where
  read : String → ByteArray → Except Refusal Value
  not_configuration : ∀ {name bytes e}, read name bytes = .error (.failure e) → ∀ p, e ≠ .configuration p
  not_system : ∀ {name bytes e}, read name bytes = .error (.failure e) → ∀ f, e ≠ .system f
  read_renamed : ∀ {name bytes v}, read name bytes = .ok v → ∀ name', read name' bytes = .ok v

end DeclBundle.Yaml
