import DeclBundle.Bundle.Assembly
import DeclBundle.Bundle.Run

/-!
# What a bundle tells

`Fragment.told` picks from what a fragment tells what a reading makes of it. A row of fragments none
of which fails tells what its pieces tell, one after another (`told_chain`), and a fragment that
only makes entries in the journal tells nothing to a reading that passes over them. The fragment of
a file tells such a reading what became of the file, and no more (`told_fragment`).
-/

namespace DeclBundle

namespace Event

def message? : Event → Option String
  | .progress text => some text
  | _ => none

def exclusion? : Event → Option String
  | .excluded id => some id
  | _ => none

end Event

namespace Fragment

variable {α : Type} {x y : Fragment}

/-- What a reading makes of what a fragment tells. -/
def told (read : Event → Option String) (x : Fragment) : List String := x.events.filterMap read

def IsQuiet (x : Fragment) : Prop := ∀ e ∈ x.events, ∃ level text, e = .entry level text

theorem followedBy_failure_eq_none_iff :
    (x.followedBy y).failure = none ↔ x.failure = none ∧ y.failure = none := by
  cases h : x.failure with
  | none =>
      rw [followedBy_of_ok h]
      simp
  | some e =>
      rw [followedBy_of_failure h, h]
      simp

theorem chain_failure_eq_none_iff (f : α → Fragment) (as : List α) :
    (chain f as).failure = none ↔ ∀ a ∈ as, (f a).failure = none := by
  induction as with
  | nil => simp [empty]
  | cons a as ih => rw [chain_cons, followedBy_failure_eq_none_iff, ih, List.forall_mem_cons]

theorem told_followedBy (read : Event → Option String) (h : x.failure = none) :
    (x.followedBy y).told read = x.told read ++ y.told read := by
  rw [followedBy_of_ok h, told, List.filterMap_append, told, told]

theorem told_chain (read : Event → Option String) (f : α → Fragment) {as : List α}
    (h : ∀ a ∈ as, (f a).failure = none) :
    (chain f as).told read = as.flatMap fun a => (f a).told read := by
  rw [chain_of_ok f as h, told, List.filterMap_flatMap]
  rfl

theorem IsQuiet.followedBy (hx : x.IsQuiet) (hy : y.IsQuiet) : (x.followedBy y).IsQuiet := by
  cases h : x.failure with
  | none =>
      rw [followedBy_of_ok h]
      intro e he
      exact (List.mem_append.1 he).elim (hx e) (hy e)
  | some failure =>
      rw [followedBy_of_failure h]
      exact hx

/-- A reading that passes over the journal gets nothing from a fragment that adds only to that. -/
theorem IsQuiet.told_eq_nil {read : Event → Option String}
    (hread : ∀ level text, read (.entry level text) = none) (h : x.IsQuiet) : x.told read = [] := by
  rw [told, List.filterMap_eq_nil_iff]
  intro e he
  obtain ⟨level, text, rfl⟩ := h e he
  exact hread level text

end Fragment

namespace Assembly

variable (a : Assembly)

theorem isQuiet_emission (f : ParsedFile) : (a.emission f).IsQuiet := by
  have hentry : ∃ level text, a.emissionEntry f = .entry level text := by
    unfold emissionEntry
    split
    · exact ⟨_, _, rfl⟩
    · exact ⟨_, _, rfl⟩
  have htold : (a.emission f).events = [a.emissionEntry f] := by
    unfold emission
    split
    · rfl
    · split
      · rfl
      · rfl
  intro e he
  rw [htold, List.mem_singleton] at he
  exact he ▸ hentry

theorem isQuiet_parsed (path text : String) : (a.parsed path text).IsQuiet := by
  unfold parsed
  split
  · simp [Fragment.IsQuiet, Fragment.ofFailure]
  · next f _ =>
      refine Fragment.IsQuiet.followedBy ?_ (a.isQuiet_emission f)
      cases f.hasErrors with
      | false => simp [Fragment.IsQuiet, Fragment.ofEvents]
      | true => simp [Fragment.IsQuiet, Fragment.ofEvents, syntaxEntry]

theorem isQuiet_failed (path : String) (diagnostics : List Diagnostic) :
    (failed path diagnostics).IsQuiet := by
  unfold failed
  split
  · simp [Fragment.IsQuiet, Fragment.ofEvents]
  · simp [Fragment.IsQuiet]

theorem isQuiet_declared (fs : FileSystem) (path : String) : (a.declared fs path).IsQuiet := by
  unfold declared
  split
  · simp [Fragment.IsQuiet, Fragment.ofFailure]
  · exact a.isQuiet_parsed _ _

theorem isQuiet_compiled (p : Program) (path : String) : (a.compiled p path).IsQuiet := by
  simp only [compiled]
  split
  · split
    · exact a.isQuiet_parsed _ _
    · exact isQuiet_failed _ _
  · exact isQuiet_failed _ _

/-- Whether a file lies under the base directory. -/
def isInside (path : String) : Bool := Path.isUnder a.baseDir (Path.normalize path)

def fate (path : String) : List Event :=
  if a.isExcluded path then
    [.excluded (Module.idOf a.cwd a.baseDir (Path.normalize path) a.name),
      .progress ("Excluding " ++ a.belowBase path)]
  else [.progress ("Processing " ++ path)]

theorem fragment_of_outside {path : String} (h : a.isInside path = false) (fs : FileSystem)
    (p : Program) : a.fragment fs p path = .empty := by
  rw [isInside] at h
  simp [fragment, h]

theorem fragment_of_excluded {path : String} (hin : a.isInside path = true)
    (hex : a.isExcluded path = true) (fs : FileSystem) (p : Program) :
    a.fragment fs p path = .ofEvents (a.fate path) := by
  rw [isInside] at hin
  simp [fragment, fate, hin, hex]

theorem fragment_of_inside {path : String} (hin : a.isInside path = true)
    (hex : a.isExcluded path = false) (fs : FileSystem) (p : Program) :
    a.fragment fs p path = (Fragment.ofEvents (a.fate path)).followedBy
      (if Module.isDeclaration path then a.declared fs path else a.compiled p path) := by
  rw [isInside] at hin
  simp [fragment, fate, hin, hex]

theorem told_fragment {read : Event → Option String}
    (hread : ∀ level text, read (.entry level text) = none) (fs : FileSystem) (p : Program)
    (path : String) :
    (a.fragment fs p path).told read =
      if a.isInside path then (a.fate path).filterMap read else [] := by
  cases hin : a.isInside path with
  | false =>
      rw [a.fragment_of_outside hin, if_neg Bool.false_ne_true]
      rfl
  | true =>
      rw [if_pos rfl]
      cases hex : a.isExcluded path with
      | true =>
          rw [a.fragment_of_excluded hin hex]
          rfl
      | false =>
          have hquiet : Fragment.IsQuiet
              (if Module.isDeclaration path then a.declared fs path else a.compiled p path) := by
            split
            · exact a.isQuiet_declared fs path
            · exact a.isQuiet_compiled p path
          rw [a.fragment_of_inside hin hex, Fragment.told_followedBy read rfl,
            hquiet.told_eq_nil hread, List.append_nil]
          rfl

theorem flatMap_told_fragment {read : Event → Option String}
    (hread : ∀ level text, read (.entry level text) = none) (fs : FileSystem) (p : Program)
    (files : List String) :
    (files.flatMap fun f => (a.fragment fs p f).told read) =
      (files.filter a.isInside).flatMap fun f => (a.fate f).filterMap read := by
  induction files with
  | nil => rw [List.filter_nil, List.flatMap_nil, List.flatMap_nil]
  | cons f files ih =>
      rw [List.flatMap_cons, ih, a.told_fragment hread]
      cases hin : a.isInside f with
      | false =>
          rw [if_neg Bool.false_ne_true, List.filter_cons_of_neg (by simp [hin]), List.nil_append]
      | true => rw [if_pos rfl, List.filter_cons_of_pos hin, List.flatMap_cons]

end Assembly

end DeclBundle
