import DeclBundle.Text.Quoted

/-!
# Faults of file operations

A file operation that fails tells why and for which path, the path being the one it was given. The
wording has the number of the cause, its text and the quoted path.
-/

namespace DeclBundle.FileSystem

inductive Cause where
  | missing
  | taken
  /-- A step of the path leads through something that is no directory. -/
  | notDirectory
  | isDirectory
  | longName
  | noFreeName
  | nullCharacter
  | other (code : Int) (text : String)
deriving DecidableEq, Repr

namespace Cause

def code : Cause → Int
  | missing => 2
  | taken => 17
  | notDirectory => 20
  | isDirectory => 21
  | longName => 36
  | noFreeName => 17
  | nullCharacter => 0
  | other code _ => code

def text : Cause → String
  | missing => "No such file or directory"
  | taken => "File exists"
  | notDirectory => "Not a directory"
  | isDirectory => "Is a directory"
  | longName => "File name too long"
  | noFreeName => "No usable temporary file name found"
  | nullCharacter => "embedded null byte"
  | other _ text => text

/-- The name of the kind of fault that a cause makes. -/
def name : Cause → String
  | missing => "FileNotFoundError"
  | taken => "FileExistsError"
  | notDirectory => "NotADirectoryError"
  | isDirectory => "IsADirectoryError"
  | longName => "OSError"
  | noFreeName => "FileExistsError"
  | nullCharacter => "ValueError"
  | other _ _ => "OSError"

end Cause

structure Fault where
  cause : Cause
  path : Option String
deriving DecidableEq, Repr

namespace Fault

def isRefusal (f : Fault) : Bool := f.cause != .nullCharacter

def message (f : Fault) : String :=
  if f.isRefusal then
    s!"[Errno {f.cause.code}] {f.cause.text}" ++
      match f.path with
      | some p => ": " ++ Text.quote p
      | none => ""
  else f.cause.text

end Fault

end DeclBundle.FileSystem
