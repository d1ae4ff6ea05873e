import DeclBundle.Action
import DeclBundle.Syntax.Parsed
import DeclBundle.Yaml.Reader

/-!
# Sites

What a run depends on besides its options and the files: where it takes place, the names that it gets for
what is temporary, the variables of its environment, what the compiler answers to a call, and how texts are
parsed. Every run gets names of its own (`Site.named`).
-/

namespace DeclBundle

/-- What comes of a call of the compiler. -/
inductive CallOutcome where
  /-- It ended with a status, having printed texts and written files below the directory for
  declarations; a path without content is a directory. -/
  | finished (output errors : String) (status : Int) (written : List (String × Option ByteArray))
  /-- It was given up, having written files below that directory. -/
  | timedOut (written : List (String × Option ByteArray) := [])
  | refused (code : Int) (text : String)

/-- The parts of the names of what is temporary that tell it apart, one for each name that is asked for in
a run. -/
structure Tokens where
  directory : String
  configuration : String
deriving DecidableEq, Repr

structure Site where
  cwd : String
  temporary : String
  tokens : Tokens
  environment : List (String × String)
  installed : Option String
  answer : CompilerCall → CallOutcome
  tree : String → SyntaxTree
  yaml : Yaml.Reader

namespace Site

/-- A site at which what is temporary gets other names. -/
def named (s : Site) (t : Tokens) : Site := { s with tokens := t }

section named

variable (s : Site) (t : Tokens)

@[simp] theorem named_cwd : (s.named t).cwd = s.cwd := rfl

@[simp] theorem named_temporary : (s.named t).temporary = s.temporary := rfl

@[simp] theorem named_tokens : (s.named t).tokens = t := rfl

@[simp] theorem named_environment : (s.named t).environment = s.environment := rfl

@[simp] theorem named_installed : (s.named t).installed = s.installed := rfl

@[simp] theorem named_answer : (s.named t).answer = s.answer := rfl

@[simp] theorem named_tree : (s.named t).tree = s.tree := rfl

end named

def valueOf? (s : Site) (name : String) : Option String := s.environment.lookup name

end Site

end DeclBundle
