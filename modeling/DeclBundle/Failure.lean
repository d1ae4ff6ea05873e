import DeclBundle.Data.Display
import DeclBundle.Diagnostic
import DeclBundle.FileSystem.Fault
import DeclBundle.Json.Fault
import DeclBundle.ShellWord
import DeclBundle.Text.Digit

/-!
# Failures

Why a run ends early. `Problem` are the ways in which options, settings or the set-up of the compiler are
wrong, each with its wording and with the file that is to blame. `Failure` adds the failures of the
compiler, of file operations and of values that are used as something that they are not.
-/

namespace DeclBundle

/-- What is wrong with options, settings or the set-up of the compiler. -/
inductive Problem where
  | missingOption (key : String)
  | notTexts (key : String)
  | badEol (eol : Value)
  | badTimeout (timeout : Value)
  | unreadableOptions (path : String) (fault : FileSystem.Fault)
  | malformedOptions (path : String) (fault : Json.Fault)
  /-- An options file that is not YAML, as its reader says. -/
  | malformedYaml (path message : String)
  | optionsNotMap (path : String)
  /-- A settings file that was named and does not exist. -/
  | noSettings (path : String)
  | unreadableSettings (path : String) (fault : FileSystem.Fault)
  | malformedSettings (path : String) (fault : Json.Fault)
  | settingsNotMap (path : String)
  /-- A settings file whose compiler options are no object. -/
  | compilerOptionsNotMap (path : String)
  | noCompiler
  /-- The compiler reported errors of the program as a whole. -/
  | compilerErrors (path : String) (errors : List Diagnostic)

namespace Problem

def message : Problem → String
  | missingOption key => s!"Missing required option '{key}'"
  | notTexts key => s!"Option '{key}' must be a list of strings"
  | badEol eol => "Unsupported eol " ++ eol.shown ++ "; use '\\n' or '\\r\\n'"
  | badTimeout timeout =>
    "Option 'timeout' must be a positive number of seconds, got " ++ timeout.shown
  | unreadableOptions path fault => s!"Failed to load config file {path}: {fault.message}"
  | malformedOptions path fault => s!"Failed to parse config file {path}: {fault.message}"
  | malformedYaml path message => s!"Failed to parse config file {path}: {message}"
  | optionsNotMap path => s!"Config file {path} must contain a mapping"
  | noSettings path => s!"Project file not found: {path}"
  | unreadableSettings path fault => s!"Failed to read {path}: {fault.message}"
  | malformedSettings path fault => s!"Failed to parse {path}: {fault.message}"
  | settingsNotMap path => s!"{path} must contain a JSON object"
  | compilerOptionsNotMap _ => "compilerOptions must be an object"
  | noCompiler => "TypeScript compiler not found; install typescript or set DTS_BUNDLER_TSC"
  | compilerErrors _ errors => "\n".intercalate (errors.map Diagnostic.unlocated)

def file? : Problem → Option String
  | unreadableOptions path _ => some path
  | malformedOptions path _ => some path
  | malformedYaml path _ => some path
  | optionsNotMap path => some path
  | noSettings path => some path
  | unreadableSettings path _ => some path
  | malformedSettings path _ => some path
  | settingsNotMap path => some path
  | compilerOptionsNotMap path => some path
  | compilerErrors path _ => some path
  | _ => none

end Problem

/-- A value that cannot be used, being of the right kind. -/
inductive BadValue where
  | longNumber (digits : Nat)
  /-- A whole number with too many digits to be written. -/
  | unwritableNumber
  | date (message : String)
  | command (fault : ShellWord.Fault)
  | level (text : String)
deriving DecidableEq, Repr

/-- The wording of a value that cannot be used. -/
def BadValue.message : BadValue → String
  | longNumber digits =>
    s!"Exceeds the limit ({Text.digitLimit} digits) for integer string conversion: value has " ++
      s!"{digits} digits; use sys.set_int_max_str_digits() to increase the limit"
  | unwritableNumber =>
    s!"Exceeds the limit ({Text.digitLimit} digits) for integer string conversion; " ++
      "use sys.set_int_max_str_digits() to increase the limit"
  | date message => message
  | command fault => fault.message
  | level text => "Unknown level: " ++ Text.quote text

inductive Failure where
  /-- Options, settings or the set-up of the compiler are wrong. -/
  | configuration (problem : Problem)
  /-- A file has no declarations, or the compiler found fault with it. -/
  | compilation (file : String) (diagnostics : List Diagnostic)
  /-- The compiler could not be run, or ended with a status of its own. -/
  | invocation (command : List String) (reason : String) (status : Option Int)
  | system (fault : FileSystem.Fault)
  | badValue (value : BadValue)
  | wrongKind
  | noSuchMember
  | undecodable
  | outside
  | overlong
  | reader (kind : String)

namespace Failure

def compilationMessage (diagnostics : List Diagnostic) : String :=
  "\n".intercalate ("Declaration generation failed" :: diagnostics.map Diagnostic.located)

def invocationMessage (command : List String) (reason : String) : String :=
  "Failed to run " ++ " ".intercalate command ++ ": " ++ reason

def message : Failure → String
  | configuration p => p.message
  | compilation _ ds => compilationMessage ds
  | invocation command reason _ => invocationMessage command reason
  | system f => f.message
  | badValue b => b.message
  | wrongKind => "a value is of the wrong kind"
  | noSuchMember => "a value lacks what is asked of it"
  | undecodable => "the bytes of a file are no text"
  | outside => "an offset of a tree lies outside its text"
  | overlong => "a text would be too long"
  | reader kind => kind

end Failure

end DeclBundle
