import DeclBundle.Module.Extension
import DeclBundle.Path.Relative

/-!
# Module ids

The id of a file is the package name, a slash, and the way from the base directory to the file without
its extension. `resolveId` walks a relative specifier from the directory part of the id of the importing
module.
-/

namespace DeclBundle.Module

/-- The id of a file under a base directory. -/
def idOf (cwd baseDir p name : String) : String :=
  name ++ "/" ++ stripExtension
    (Path.relative cwd (Path.normalize p) (Path.normalize baseDir))

/-- The id that a relative specifier stands for in a module. -/
def resolveId (source specifier : String) : String :=
  Path.normalize (Path.join (Path.directory source) specifier)

end DeclBundle.Module
