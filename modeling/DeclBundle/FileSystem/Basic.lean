/-!
# File systems

A file system says what lies at each place: a directory, or a file with its content. A place is the row of
steps that leads to it from the root, which is always a directory. `get?_put` says what a change does to
every place.
-/

namespace DeclBundle

abbrev Place := List String

inductive Entry where
  | directory
  | file (content : ByteArray)

/-- Two entries are the same when they are of one kind and hold the same bytes. -/
instance : DecidableEq Entry
  | .directory, .directory => isTrue rfl
  | .file a, .file b =>
    match ByteArray.instDecidableEq a b with
    | isTrue h => isTrue (h ▸ rfl)
    | isFalse h => isFalse fun e => h (Entry.file.inj e)
  | .directory, .file _ => isFalse Entry.noConfusion
  | .file _, .directory => isFalse Entry.noConfusion

structure FileSystem where
  entries : List (Place × Entry)

namespace FileSystem

def empty : FileSystem := ⟨[]⟩

def lookUp : List (Place × Entry) → Place → Option Entry
  | [], _ => none
  | (q, e) :: es, p => if q = p then some e else lookUp es p

/-- A table with an entry for a place: in its old row if there is one, else in a new one. -/
def enter : List (Place × Entry) → Place → Entry → List (Place × Entry)
  | [], p, e => [(p, e)]
  | (q, d) :: es, p, e => if q = p then (p, e) :: es else (q, d) :: enter es p e

def get? (fs : FileSystem) (p : Place) : Option Entry :=
  if p = [] then some .directory else lookUp fs.entries p

def put (fs : FileSystem) (p : Place) (e : Entry) : FileSystem := ⟨enter fs.entries p e⟩

def without (fs : FileSystem) (drop : Place → Bool) : FileSystem :=
  ⟨fs.entries.filter fun x => !drop x.1⟩

def isWithin (top p : Place) : Bool := top.isPrefixOf p

@[simp] theorem get?_root (fs : FileSystem) : fs.get? [] = some .directory := by simp [get?]

theorem lookUp_enter (es : List (Place × Entry)) (p q : Place) (e : Entry) :
    lookUp (enter es p e) q = if p = q then some e else lookUp es q := by
  induction es with
  | nil => simp [enter, lookUp]
  | cons x es ih =>
    obtain ⟨r, d⟩ := x
    by_cases h : r = p
    · subst h
      by_cases h2 : r = q <;> simp [enter, lookUp, h2]
    · by_cases h2 : r = q
      · subst h2
        simp [enter, lookUp, h, Ne.symm h]
      · simp [enter, lookUp, h, h2, ih]

/-- An entry is found at the place where it was put, and all others where they were. -/
theorem get?_put (fs : FileSystem) {p : Place} (hp : p ≠ []) (e : Entry) (q : Place) :
    (fs.put p e).get? q = if p = q then some e else fs.get? q := by
  by_cases hq : q = []
  · subst hq
    simp [hp]
  · simp [get?, put, hq, lookUp_enter]

theorem lookUp_filter (es : List (Place × Entry)) (drop : Place → Bool) (p : Place) :
    lookUp (es.filter fun x => !drop x.1) p = if drop p then none else lookUp es p := by
  induction es with
  | nil => simp [lookUp]
  | cons x es ih =>
    obtain ⟨q, e⟩ := x
    by_cases hd : drop q = true
    · by_cases h : q = p
      · subst h
        simp [hd, ih]
      · simp [hd, ih, lookUp, h]
    · by_cases h : q = p
      · subst h
        simp [hd, lookUp]
      · simp [hd, ih, lookUp, h]

/-- Places that are dropped are empty, and all others are as they were. -/
theorem get?_without (fs : FileSystem) (drop : Place → Bool) {p : Place} (hp : p ≠ []) :
    (fs.without drop).get? p = if drop p then none else fs.get? p := by
  simp [get?, without, hp, lookUp_filter]

end FileSystem

end DeclBundle
