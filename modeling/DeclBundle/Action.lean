import DeclBundle.Failure
import DeclBundle.FileSystem.Basic

/-!
# Actions

A run reads and changes files, tells what it does, and ends with a value or a failure. An `Action` is a
function from the files to all of that; what was done before a failure stays done and told. `Event` is
what a run tells: an entry of the journal, a message on its progress, a file that it leaves out, or a call
of the compiler.
-/

namespace DeclBundle

/-- How important an entry of the journal is. -/
inductive Level where
  | debug
  | info
  | warning
  | error
deriving DecidableEq, Repr

namespace Level

def rank : Level → Nat
  | debug => 10
  | info => 20
  | warning => 30
  | error => 40

def name : Level → String
  | debug => "DEBUG"
  | info => "INFO"
  | warning => "WARNING"
  | error => "ERROR"

end Level

structure CompilerCall where
  command : List String
  directory : String
  config : String
  timeout : Value

inductive Event where
  | entry (level : Level) (text : String)
  | progress (text : String)
  /-- A file is left out, the module of which has an id. -/
  | excluded (id : String)
  | call (c : CompilerCall)

structure Effect (α : Type) where
  files : FileSystem
  events : List Event
  result : Except Failure α

def Action (α : Type) : Type := FileSystem → Effect α

namespace Action

variable {α β : Type}

protected def pure (a : α) : Action α := fun fs => ⟨fs, [], .ok a⟩

/-- Goes on with the value of an action, unless it failed. -/
protected def bind (x : Action α) (f : α → Action β) : Action β := fun fs =>
  let first := x fs
  match first.result with
  | .error e => ⟨first.files, first.events, .error e⟩
  | .ok a =>
    let rest := f a first.files
    ⟨rest.files, first.events ++ rest.events, rest.result⟩

instance : Monad Action where
  pure := Action.pure
  bind := Action.bind

def fail (e : Failure) : Action α := fun fs => ⟨fs, [], .error e⟩

def ofExcept (x : Except Failure α) : Action α := fun fs => ⟨fs, [], x⟩

def tell (e : Event) : Action Unit := fun fs => ⟨fs, [e], .ok ()⟩

def note (level : Level) (text : String) : Action Unit := tell (.entry level text)

def files : Action FileSystem := fun fs => ⟨fs, [], .ok fs⟩

def change (f : FileSystem → Except FileSystem.Fault FileSystem) : Action Unit := fun fs =>
  match f fs with
  | .ok fs => ⟨fs, [], .ok ()⟩
  | .error fault => ⟨fs, [], .error (.system fault)⟩

/-- Does something and tidies up afterwards, whether it failed or not. -/
def tidying (x : Action α) (tidy : FileSystem → FileSystem) : Action α := fun fs =>
  let e := x fs
  { e with files := tidy e.files }

def recover (x : Action α) (f : Failure → Action α) : Action α := fun fs =>
  let e := x fs
  match e.result with
  | .ok _ => e
  | .error failure =>
    let rest := f failure e.files
    ⟨rest.files, e.events ++ rest.events, rest.result⟩

def heard (x : Action α) : Action (α × List Event) := fun fs =>
  let e := x fs
  ⟨e.files, e.events, e.result.map fun a => (a, e.events)⟩

@[simp] theorem pure_apply (a : α) (fs : FileSystem) : (pure a : Action α) fs = ⟨fs, [], .ok a⟩ := rfl

theorem bind_apply (x : Action α) (f : α → Action β) (fs : FileSystem) :
    (x >>= f) fs =
      match (x fs).result with
      | .error e => ⟨(x fs).files, (x fs).events, .error e⟩
      | .ok a =>
        ⟨(f a (x fs).files).files, (x fs).events ++ (f a (x fs).files).events,
          (f a (x fs).files).result⟩ := rfl

@[simp] theorem fail_apply (e : Failure) (fs : FileSystem) :
    (fail e : Action α) fs = ⟨fs, [], .error e⟩ := rfl

@[simp] theorem tell_apply (e : Event) (fs : FileSystem) : tell e fs = ⟨fs, [e], .ok ()⟩ := rfl

@[simp] theorem files_apply (fs : FileSystem) : files fs = ⟨fs, [], .ok fs⟩ := rfl

theorem bind_of_ok {x : Action α} {fs : FileSystem} {a : α} (h : (x fs).result = .ok a)
    (f : α → Action β) :
    (x >>= f) fs = ⟨(f a (x fs).files).files, (x fs).events ++ (f a (x fs).files).events,
      (f a (x fs).files).result⟩ := by
  rw [bind_apply, h]

theorem bind_of_error {x : Action α} {fs : FileSystem} {e : Failure}
    (h : (x fs).result = .error e) (f : α → Action β) :
    (x >>= f) fs = ⟨(x fs).files, (x fs).events, .error e⟩ := by
  rw [bind_apply, h]

end Action

end DeclBundle
