import DeclBundle.Syntax.Parsed

/-!
# Modules and scripts

A file is a module if one of its statements imports or exports something, and a script for the global
scope otherwise. `Mark` is what this is judged by: the kind of a statement, whether it is exported, and
the kind of what an import with an equals sign refers to.
-/

namespace DeclBundle

/-- What tells of a statement whether it makes its file a module. -/
structure Mark where
  kind : Kind
  exported : Bool
  reference : Option Kind
deriving DecidableEq, Repr

namespace Mark

def isModular (m : Mark) : Bool :=
  m.exported ||
    match m.kind with
    | .importDeclaration => true
    | .exportAssignment => true
    | .exportDeclaration => true
    | .importEquals => m.reference == some .externalModuleReference
    | _ => false

/-- Whether a file whose statements have these marks is a module. -/
def isModule (marks : List Mark) : Bool := marks.any isModular

@[simp] theorem isModule_nil : isModule [] = false := rfl

@[simp] theorem isModule_cons (m : Mark) (marks : List Mark) :
    isModule (m :: marks) = (m.isModular || isModule marks) := rfl

end Mark

def Node.mark (n : Node) : Mark := ⟨n.kind, n.label.exported, n.reference?.map Node.kind⟩

def ParsedFile.isModule (f : ParsedFile) : Bool := Mark.isModule (f.statements.map Node.mark)

end DeclBundle
