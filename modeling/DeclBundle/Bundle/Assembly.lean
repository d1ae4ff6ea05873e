import DeclBundle.Bundle.Fragment
import DeclBundle.Compiler.Program
import DeclBundle.Emission
import DeclBundle.FileSystem.Access
import DeclBundle.Module.Selection
import DeclBundle.Text.Encoding

/-!
# Assembly

A bundle consists of a banner, a line for each path that it refers to, the fragments of the files of a
program in its order, and a block that makes one of the modules stand for the package, if one is chosen.
A file outside the base directory has an empty fragment, and so has an excluded one, of which it is told.
A declaration file is read from the disk, any other file is represented by the declarations that the
compiler made of it. A file that has none is passed over in silence if it is not written in TypeScript and
the compiler has nothing to say about it; otherwise it ends the bundle.
-/

namespace DeclBundle

structure Assembly where
  cwd : String
  baseDir : String
  name : String
  eol : String
  indent : Option String
  excludes : List String
  externs : List String
  main : Option String
  tree : String → SyntaxTree

namespace Assembly

def layout (a : Assembly) (indent : String) : Layout :=
  ⟨a.cwd, a.baseDir, a.name, a.eol, indent⟩

def bannerLines : List String := ["//", "// Auto-generated by dts-bundler", "//"]

def banner (a : Assembly) : Fragment :=
  .ofText (a.eol.intercalate bannerLines ++ a.eol ++ a.eol)

def reference (a : Assembly) (path : String) : Fragment :=
  ⟨"/// <reference path=\"" ++ path ++ "\" />" ++ a.eol,
    [.progress ("Writing external dependency " ++ path)], none⟩

def emissionEntry (a : Assembly) (f : ParsedFile) : Event :=
  if f.isModule then
    let id := Module.idOf a.cwd a.baseDir f.path a.name
    .entry .debug ("Wrapping " ++ f.path ++ " as module '" ++ id ++ "'")
  else .entry .debug (f.path ++ " is an ambient declaration file")

/-- The fragment of a parsed file; a module needs a unit of indentation. -/
def emission (a : Assembly) (f : ParsedFile) : Fragment :=
  let told := [a.emissionEntry f]
  match a.indent with
  | some i => ⟨(a.layout i).emission f, told, none⟩
  | none => if f.isModule then ⟨"", told, some .wrongKind⟩ else ⟨f.text, told, none⟩

def syntaxEntry (path : String) : Event :=
  .entry .warning ("Syntax errors in " ++ path ++ "; bundling its text as parsed")

def parsed (a : Assembly) (path text : String) : Fragment :=
  match ParsedFile.ofCst? path text (a.tree text) with
  | none => .ofFailure .outside
  | some f =>
    (Fragment.ofEvents (if f.hasErrors then [syntaxEntry path] else [])).followedBy (a.emission f)

def sourceText (fs : FileSystem) (cwd path : String) : Except Failure String :=
  match fs.read cwd path with
  | .error f => .error (.system f)
  | .ok bytes =>
    match Text.decodeMarked? bytes with
    | none => .error .undecodable
    | some text => .ok text

def declared (a : Assembly) (fs : FileSystem) (path : String) : Fragment :=
  match sourceText fs a.cwd path with
  | .error e => .ofFailure e
  | .ok text => a.parsed (Path.normalize path) text

/-- The fragment of a file without declarations, or one that the compiler found fault with. -/
def failed (path : String) (diagnostics : List Diagnostic) : Fragment :=
  if diagnostics.isEmpty && !Module.isTypeScript path then
    .ofEvents [.entry .debug ("No declarations emitted for " ++ path)]
  else
    ⟨"", [.entry .error
      s!"Declaration emit failed for {path} with {diagnostics.length} diagnostics"],
      some (.compilation path diagnostics)⟩

/-- The fragment of a file that the compiler made declarations of. -/
def compiled (a : Assembly) (p : Program) (path : String) : Fragment :=
  let e := p.emitted path
  match e.text with
  | some text =>
    if e.diagnostics.isEmpty then a.parsed e.path text
    else failed (Path.normalize path) (Diagnostic.distinct (e.diagnostics ++ p.diagnosticsOf path))
  | none =>
    failed (Path.normalize path) (Diagnostic.distinct (e.diagnostics ++ p.diagnosticsOf path))

def belowBase (a : Assembly) (path : String) : String :=
  Path.relative a.cwd (Path.normalize path) a.baseDir

def isExcluded (a : Assembly) (path : String) : Bool :=
  !a.excludes.isEmpty && Module.isExcluded (a.belowBase path) a.excludes

def fragment (a : Assembly) (fs : FileSystem) (p : Program) (path : String) : Fragment :=
  let file := Path.normalize path
  if !Path.isUnder a.baseDir file then .empty
  else if a.isExcluded path then
    .ofEvents [.excluded (Module.idOf a.cwd a.baseDir file a.name),
      .progress ("Excluding " ++ a.belowBase path)]
  else
    (Fragment.ofEvents [.progress ("Processing " ++ path)]).followedBy
      (if Module.isDeclaration path then a.declared fs path else a.compiled p path)

def mainBlock (a : Assembly) : Fragment :=
  match a.main with
  | none => .empty
  | some m =>
    let opening := a.eol ++ "declare module '" ++ a.name ++ "' \x7b" ++ a.eol
    match a.indent with
    | none => ⟨opening, [], some .wrongKind⟩
    | some i =>
      ⟨opening ++ i ++ "export * from '" ++ m ++ "';" ++ a.eol ++ "\x7d" ++ a.eol,
        [.progress ("Aliased main module " ++ a.name ++ " to " ++ m)], none⟩

def bundle (a : Assembly) (fs : FileSystem) (p : Program) : Fragment :=
  a.banner.followedBy ((Fragment.chain a.reference a.externs).followedBy
    ((Fragment.chain (a.fragment fs p) p.files).followedBy a.mainBlock))

end Assembly

end DeclBundle
