import DeclBundle.FileSystem.Basic
import DeclBundle.FileSystem.Fault
import DeclBundle.Path.Relative
import DeclBundle.Path.Tidy

/-!
# Access to files

A path is followed step by step from the root or the working directory: every step needs a directory to
go on from, and a step up leads to the parent. `place` is where it leads; at its last step nothing need
lie yet. The operations below follow the paths that they are given and name them in their faults.
-/

namespace DeclBundle.FileSystem

def nameLimit : Nat := 255

def follow (fs : FileSystem) : Place → List String → Except Cause Place
  | here, [] => .ok here
  | here, s :: steps =>
    match fs.get? here with
    | none => .error .missing
    | some (.file _) => .error .notDirectory
    | some .directory =>
      if s = "" ∨ s = "." then follow fs here steps
      else if s = ".." then follow fs here.dropLast steps
      else if nameLimit < s.utf8ByteSize then .error .longName
      else follow fs (here ++ [s]) steps

def steps (p : String) : List String := (Text.pieces '/' p.toList).map String.ofList

def placeOf (p : String) : Place := (Path.stepsOf p.toList).map String.ofList

def place (fs : FileSystem) (cwd p : String) : Except Cause Place :=
  if p.toList.contains '\x00' then .error .nullCharacter
  else if p = "" then .error .missing
  else fs.follow [] (steps (Path.join cwd p))

def find? (fs : FileSystem) (cwd p : String) : Option Entry :=
  match fs.place cwd p with
  | .ok l => fs.get? l
  | .error _ => none

def isFile (fs : FileSystem) (cwd p : String) : Bool :=
  match fs.find? cwd p with
  | some (.file _) => true
  | _ => false

def isDirectory (fs : FileSystem) (cwd p : String) : Bool :=
  match fs.find? cwd p with
  | some .directory => true
  | _ => false

/-- Whether something lies at the end of a path; a step that is too long is a fault. -/
def isTaken (fs : FileSystem) (cwd p : String) : Except Fault Bool :=
  match fs.place cwd p with
  | .ok l => .ok (fs.get? l).isSome
  | .error .longName => .error ⟨.longName, some p⟩
  | .error _ => .ok false

def read (fs : FileSystem) (cwd p : String) : Except Fault ByteArray :=
  match fs.place cwd p with
  | .error c => .error ⟨c, some p⟩
  | .ok l =>
    match fs.get? l with
    | none => .error ⟨.missing, some p⟩
    | some .directory => .error ⟨.isDirectory, some p⟩
    | some (.file content) => .ok content

def writable (fs : FileSystem) (cwd p : String) : Except Fault Place :=
  match fs.place cwd p with
  | .error c => .error ⟨c, some p⟩
  | .ok l => if fs.get? l = some .directory then .error ⟨.isDirectory, some p⟩ else .ok l

/-- The file system with a content for the file at the end of a path. -/
def write (fs : FileSystem) (cwd p : String) (content : ByteArray) : Except Fault FileSystem :=
  (fs.writable cwd p).map fun l => fs.put l (.file content)

/-- The file system with a content behind that of the file at the end of a path. -/
def append (fs : FileSystem) (cwd p : String) (content : ByteArray) : Except Fault FileSystem :=
  (fs.writable cwd p).map fun l =>
    match fs.get? l with
    | some (.file old) => fs.put l (.file (old ++ content))
    | _ => fs.put l (.file content)

def makeDirectory (fs : FileSystem) (cwd p : String) : Except Fault FileSystem :=
  match fs.place cwd p with
  | .error c => .error ⟨c, some p⟩
  | .ok l => if (fs.get? l).isSome then .error ⟨.taken, some p⟩ else .ok (fs.put l .directory)

/-- The file system in which a directory lies at the end of a path whose parent exists. -/
def ensureDirectory (fs : FileSystem) (cwd p : String) : Except Fault FileSystem :=
  match fs.makeDirectory cwd p with
  | .ok fs => .ok fs
  | .error f => if fs.isDirectory cwd p then .ok fs else .error f

/-- Whether a directory cannot be made at the end of a path because something above it is missing. -/
def lacksParent (fs : FileSystem) (cwd p : String) : Bool :=
  match fs.makeDirectory cwd p with
  | .ok _ => false
  | .error f => f.cause == .missing

/-- The file system in which an entry lies at a place and directories above it. -/
def plant (fs : FileSystem) (p : Place) (e : Entry) : FileSystem :=
  let above := (List.range p.length).foldl (fun fs n =>
    if (fs.get? (p.take n)).isSome then fs else fs.put (p.take n) .directory) fs
  if p = [] then fs else above.put p e

end DeclBundle.FileSystem
