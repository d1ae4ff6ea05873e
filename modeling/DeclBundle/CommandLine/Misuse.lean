import DeclBundle.CommandLine.Switch
import DeclBundle.Text.Quoted

/-!
# Misuse of the command line

What may be wrong with the arguments of a call, and the wording of it.
-/

namespace DeclBundle.CommandLine

inductive Misuse where
  | ambiguous (argument : String) (candidates : List String)
  | noValue (s : Switch)
  | strayValue (s : Switch) (value : String)
  | badTimeout (value : String)
  | badIndent (value : String)
  | badEol (value : String)
  | unrecognized (arguments : List String)
deriving DecidableEq, Repr

namespace Misuse

def switch? : Misuse → Option Switch
  | noValue s => some s
  | strayValue s _ => some s
  | badTimeout _ => some .timeout
  | badIndent _ => some .indent
  | badEol _ => some .eol
  | ambiguous _ _ => none
  | unrecognized _ => none

def complaint : Misuse → String
  | ambiguous argument candidates =>
    s!"ambiguous option: {argument} could match " ++ ", ".intercalate candidates
  | noValue _ => "expected one argument"
  | strayValue _ value => "ignored explicit argument " ++ Text.quote value
  | badTimeout value => "invalid float value: " ++ Text.quote value
  | badIndent value => "invalid _indent value: " ++ Text.quote value
  | badEol value => "invalid choice: " ++ Text.quote value ++ " (choose from 'crlf', 'lf')"
  | unrecognized arguments => "unrecognized arguments: " ++ " ".intercalate arguments

def message (m : Misuse) : String :=
  match m.switch? with
  | some s => s!"argument {s.title}: " ++ m.complaint
  | none => m.complaint

end Misuse

end DeclBundle.CommandLine
