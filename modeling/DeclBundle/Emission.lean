import DeclBundle.Module.Id
import DeclBundle.Splice
import DeclBundle.Syntax.Mark

/-!
# Emission

`emission` is the text of a declaration file in the bundle. A script is copied. A module is wrapped in a
block that declares it under its id: in its text, the word that makes a declaration ambient is dropped and
relative specifiers become ids (`replacement`), and every line behind the first is indented by one unit
(`nest`), but for empty lines and the empty rest behind the last line end.
-/

namespace DeclBundle

structure Layout where
  cwd : String
  baseDir : String
  name : String
  eol : String
  indent : String
deriving DecidableEq, Repr

namespace Layout

def idOf (l : Layout) (path : String) : String := Module.idOf l.cwd l.baseDir path l.name

end Layout

namespace Emission

def isRelative (specifier : String) : Bool :=
  match specifier.toList with
  | '.' :: _ => true
  | _ => false

def specifier? (n : Node) : Option String := n.label.literal.filter isRelative

def bearsSpecifier (parent : Option Node) : Bool :=
  match parent with
  | some p => p.kind == .importDeclaration || p.kind == .exportDeclaration
  | none => false

/-- What stands for a node in the module with an id. -/
def replacement (id : String) (parent : Option Node) (n : Node) : Option String :=
  match n.kind with
  | .externalModuleReference =>
    ((n.findChild? .stringLiteral).bind specifier?).map fun s =>
      "require('" ++ Module.resolveId id s ++ "')"
  | .declareKeyword => some ""
  | .stringLiteral =>
    if bearsSpecifier parent then
      (specifier? n).map fun s => "'" ++ Module.resolveId id s ++ "'"
    else none
  | _ => none

/-- Whether a text begins with a line end behind which the line is not empty. -/
def breaks (eol s : List Char) : Bool :=
  match Text.after? eol s with
  | none => false
  | some rest => !rest.isEmpty && (Text.after? eol rest).isNone

/-- A text with an indent behind each line end that a line with content follows. The counter is the
number of characters of such a line end that are still to be copied. -/
def nestFrom (eol indent : List Char) : Nat → List Char → List Char
  | _, [] => []
  | k, c :: cs =>
    let ahead := if k = 0 ∧ breaks eol (c :: cs) then eol.length else k
    c :: ((if ahead = 1 then indent else []) ++ nestFrom eol indent (ahead - 1) cs)

/-- A text with each line behind the first indented by one unit, unless it is empty. -/
def nest (eol indent : String) (text : String) : String :=
  String.ofList (nestFrom eol.toList indent.toList 0 text.toList)

def body (id : String) (f : ParsedFile) : String := f.root.splice f.text (replacement id)

def block (l : Layout) (id : String) (f : ParsedFile) : String :=
  l.eol ++ "declare module '" ++ id ++ "' \x7b" ++ l.eol ++ l.indent ++
    nest l.eol l.indent (body id f) ++ l.eol ++ "\x7d" ++ l.eol

end Emission

/-- The text of a declaration file in the bundle. -/
def Layout.emission (l : Layout) (f : ParsedFile) : String :=
  if f.isModule then Emission.block l (l.idOf f.path) f else f.text

namespace Emission

@[simp] theorem breaks_nil (s : List Char) : breaks [] s = false := by
  simp [breaks, Text.after?]

end Emission

end DeclBundle
