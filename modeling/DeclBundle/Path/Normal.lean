import DeclBundle.Text.Piece

/-!
# Normal paths

A path is an anchor and a row of steps. The anchor is empty, one slash, or exactly two slashes: three or
more count as one. `settle` walks the steps with a stack: empty steps and `.` change nothing, `..` takes
the step below it back, stays if there is none, and vanishes at an anchor. `normalize` writes the anchor
and what is left on the stack, and `.` for a path of which nothing is left. `settle_settle` says that a
second walk changes nothing.
-/

namespace DeclBundle.Path

def here : List Char := ['.']

def up : List Char := ['.', '.']

def anchor : List Char → List Char
  | '/' :: '/' :: '/' :: _ => ['/']
  | '/' :: '/' :: _ => ['/', '/']
  | '/' :: _ => ['/']
  | _ => []

/-- Whether a path does not depend on a working directory. -/
def isAbsolute (p : String) : Bool :=
  match p.toList with
  | '/' :: _ => true
  | _ => false

def push (anchored : Bool) (stack : List (List Char)) (s : List Char) : List (List Char) :=
  if s = [] ∨ s = here then stack
  else if s = up then
    match stack with
    | [] => if anchored then [] else [up]
    | top :: rest => if top = up then up :: top :: rest else rest
  else s :: stack

def settle (anchored : Bool) (steps : List (List Char)) : List (List Char) :=
  (steps.foldl (push anchored) []).reverse

/-- A path written from its parts; a path without parts is the step that stays. -/
def write (anchor : List Char) (steps : List (List Char)) : List Char :=
  let p := anchor ++ Text.join ['/'] steps
  if p = [] then here else p

def normal (p : List Char) : List Char :=
  write (anchor p) (settle (anchor p ≠ []) (Text.pieces '/' p))

def normalize (p : String) : String := String.ofList (normal p.toList)

/-- The characters of a path below a directory; an absolute path stands for itself. -/
def below (dir p : List Char) : List Char :=
  match p with
  | '/' :: _ => p
  | _ => if dir = [] ∨ dir.getLast? = some '/' then dir ++ p else dir ++ '/' :: p

/-- A path below a directory; an absolute path stands for itself. -/
def join (dir p : String) : String := String.ofList (below dir.toList p.toList)

/-- The normal form of a path as seen from a working directory. -/
def absolute (cwd p : String) : String := normalize (join cwd p)

@[simp] theorem push_empty (anchored : Bool) (stack : List (List Char)) :
    push anchored stack [] = stack := by simp [push]

@[simp] theorem push_here (anchored : Bool) (stack : List (List Char)) :
    push anchored stack here = stack := by simp [push]

theorem push_of_ne {s : List Char} (hs : s ≠ []) (hh : s ≠ here) (hu : s ≠ up) (anchored : Bool)
    (stack : List (List Char)) : push anchored stack s = s :: stack := by
  simp [push, hs, hh, hu]

theorem push_up_cons {top : List Char} (h : top ≠ up) (anchored : Bool)
    (rest : List (List Char)) : push anchored (top :: rest) up = rest := by
  have h1 : ¬(up = [] ∨ up = here) := by decide
  simp [push, if_neg h1, h]

@[simp] theorem settle_nil (anchored : Bool) : settle anchored [] = [] := rfl

/-- The steps of a stack: none is empty or stays, and steps up are at its bottom, where no anchor is. -/
def Settled (anchored : Bool) : List (List Char) → Prop
  | [] => True
  | s :: stack =>
    s ≠ [] ∧ s ≠ here ∧ (s = up → anchored = false ∧ ∀ t ∈ stack, t = up) ∧ Settled anchored stack

theorem settled_push {anchored : Bool} {stack : List (List Char)} (h : Settled anchored stack)
    (s : List Char) : Settled anchored (push anchored stack s) := by
  by_cases h1 : s = [] ∨ s = here
  · simpa [push, h1] using h
  · obtain ⟨hs, hh⟩ := not_or.1 h1
    by_cases h2 : s = up
    · subst h2
      cases stack with
      | nil =>
        cases anchored with
        | true => simp [push, up, here, Settled]
        | false => simp [push, up, here, Settled]
      | cons top rest =>
        by_cases h3 : top = up
        · subst h3
          have hp : push anchored (up :: rest) up = up :: up :: rest := by simp [push, up, here]
          rw [hp]
          refine ⟨hs, hh, fun _ => ⟨(h.2.2.1 rfl).1, ?_⟩, h⟩
          intro t ht
          rcases List.mem_cons.1 ht with rfl | ht
          · rfl
          · exact (h.2.2.1 rfl).2 t ht
        · rw [push_up_cons h3]
          exact h.2.2.2
    · rw [push_of_ne hs hh h2]
      exact ⟨hs, hh, fun hu => absurd hu h2, h⟩

theorem settled_foldl {anchored : Bool} {stack : List (List Char)} (h : Settled anchored stack)
    (steps : List (List Char)) : Settled anchored (steps.foldl (push anchored) stack) := by
  induction steps generalizing stack with
  | nil => simpa using h
  | cons s steps ih => exact ih (settled_push h s)

theorem push_of_settled {anchored : Bool} {s : List Char} {stack : List (List Char)}
    (h : Settled anchored (s :: stack)) : push anchored stack s = s :: stack := by
  obtain ⟨hs, hh, hu, _⟩ := h
  by_cases h2 : s = up
  · subst h2
    obtain ⟨ha, hall⟩ := hu rfl
    cases stack with
    | nil => simp [push, up, here, ha]
    | cons top rest =>
      have ht : top = up := hall top (by simp)
      subst ht
      simp [push, up, here]
  · exact push_of_ne hs hh h2 anchored stack

theorem settled_of_append {anchored : Bool} {above stack : List (List Char)}
    (h : Settled anchored (above ++ stack)) : Settled anchored stack := by
  induction above with
  | nil => exact h
  | cons t ts ih => exact ih h.2.2.2

theorem foldl_push_of_settled {anchored : Bool} (steps stack : List (List Char))
    (h : Settled anchored (steps.reverse ++ stack)) :
    steps.foldl (push anchored) stack = steps.reverse ++ stack := by
  induction steps generalizing stack with
  | nil => rfl
  | cons s steps ih =>
    have h' : Settled anchored (steps.reverse ++ s :: stack) := by simpa using h
    have hs : Settled anchored (s :: stack) := settled_of_append h'
    rw [List.foldl_cons, push_of_settled hs, ih (s :: stack) h']
    simp

theorem settle_settle (anchored : Bool) (steps : List (List Char)) :
    settle anchored (settle anchored steps) = settle anchored steps := by
  have h : Settled anchored (steps.foldl (push anchored) []) := settled_foldl (by simp [Settled]) steps
  rw [settle, settle, foldl_push_of_settled _ _ (by simpa using h)]
  simp

theorem below_of_anchored (dir : List Char) (cs : List Char) : below dir ('/' :: cs) = '/' :: cs :=
  rfl

end DeclBundle.Path
