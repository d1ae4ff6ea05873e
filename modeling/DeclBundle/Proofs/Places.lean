import DeclBundle.FileSystem.Access
import DeclBundle.Proofs.Identity
import Mathlib.Data.List.Induction

/-!
# What changes where

In a well-formed file system whatever lies somewhere lies in a directory. A path of ordinary steps behind
an anchor leads nowhere but to the place of these steps (`place_eq_placeOf`), so an operation on it
changes nothing elsewhere: `SameOff touched` says that two file systems differ at most at some places.
Making the output file ready and writing it touches the place of the file and adds directories above it
(`TouchesOnly`).
-/

namespace DeclBundle

namespace Path

theorem Rooted.rooted_below {p s : List Char} {steps : List (List Char)} (h : Rooted p steps)
    (hs : Ordinary s) (hslash : '/' ∉ s) : Rooted (below p s) (steps ++ [s]) := by
  have hhead : s.head? ≠ some '/' := fun heq => hslash (List.mem_of_head? heq)
  refine ⟨?_, ?_⟩
  · intro t ht
    rcases List.mem_append.1 ht with ht | ht
    · exact h.1 t ht
    · obtain rfl := List.mem_singleton.1 ht
      exact ⟨hs, hslash⟩
  · obtain ⟨-, a, ha, hp⟩ := id h
    refine ⟨a, ha, ?_⟩
    rw [below_of_ne_slash hhead]
    rcases List.eq_nil_or_concat steps with rfl | ⟨steps, t, rfl⟩
    · have hlast : p.getLast? = some '/' := by
        rcases ha with rfl | rfl
        · rw [hp]; rfl
        · rw [hp]; rfl
      rw [if_pos (Or.inr hlast), hp]
      simp
    · rw [List.concat_eq_append] at h hp ⊢
      obtain ⟨cs, c, hcs, hc⟩ := h.exists_append_ne_slash
      have hlast : ¬ (p = [] ∨ p.getLast? = some '/') := by simp [hcs, hc]
      have hjoin : Text.join ['/'] (steps ++ [t] ++ [s]) =
          Text.join ['/'] (steps ++ [t]) ++ '/' :: Text.join ['/'] [s] :=
        Text.join_append '/' (by simp) (by simp)
      rw [if_neg hlast, hp, hjoin, Text.join_singleton, List.append_assoc]

theorem rooted_absolute {cwd : String} (h : isAbsolute cwd = true) (p : String) :
    ∃ steps, Rooted (absolute cwd p).toList steps := by
  obtain ⟨cs, hcs⟩ := isAbsolute_iff.1 h
  have hbelow : ∃ ds, below cwd.toList p.toList = '/' :: ds := by
    unfold below
    split
    · next ds heq => exact ⟨ds, heq⟩
    · split
      · exact ⟨cs ++ p.toList, by rw [hcs, List.cons_append]⟩
      · exact ⟨cs ++ '/' :: p.toList, by rw [hcs, List.cons_append]⟩
  obtain ⟨ds, hds⟩ := hbelow
  rw [absolute, normalize, join, String.toList_ofList, String.toList_ofList, hds]
  exact ⟨_, rooted_normal ds⟩

end Path

namespace FileSystem

open DeclBundle.Path (Rooted)

variable {fs fs' fs'' : FileSystem} {cwd p : String} {q l : Place} {ss : List (List Char)}

/-- Whatever lies somewhere lies in a directory. -/
def WellFormed (fs : FileSystem) : Prop := ∀ q, fs.get? q ≠ none → fs.get? q.dropLast = some .directory

theorem isWithin_iff : isWithin l q = true ↔ l <+: q := List.isPrefixOf_iff_prefix

theorem ne_nil_of_free (h : fs.get? l = none) : l ≠ [] := by
  rintro rfl
  rw [get?_root] at h
  cases h

theorem mem_of_lookUp {es : List (Place × Entry)} {e : Entry} (h : lookUp es q = some e) :
    (q, e) ∈ es := by
  induction es with
  | nil => cases h
  | cons x es ih =>
      obtain ⟨r, d⟩ := x
      rw [lookUp] at h
      split at h
      case isTrue hr =>
        obtain rfl := Option.some.inj h
        rw [hr]
        exact List.mem_cons_self
      case isFalse => exact List.mem_cons_of_mem _ (ih h)

theorem wellFormed_of_entries (h : ∀ x ∈ fs.entries, fs.get? x.1.dropLast = some .directory) :
    fs.WellFormed := by
  intro q hq
  by_cases hroot : q = []
  · rw [hroot]
    exact fs.get?_root
  · rw [get?, if_neg hroot] at hq
    obtain ⟨e, he⟩ := Option.ne_none_iff_exists'.1 hq
    exact h (q, e) (mem_of_lookUp he)

theorem WellFormed.directory_of_prefix (hfs : fs.WellFormed) (hl : fs.get? l ≠ none) (hq : q <+: l)
    (hne : q ≠ l) : fs.get? q = some .directory := by
  induction l using List.reverseRecOn with
  | nil => exact absurd (List.prefix_nil.1 hq) hne
  | append_singleton l s ih =>
      have hparent := hfs _ hl
      rw [List.dropLast_concat] at hparent
      rcases List.prefix_concat_iff.1 hq with heq | hq
      · exact absurd heq hne
      · by_cases heq : q = l
        · rw [heq, hparent]
        · exact ih (by simp [hparent]) hq heq

theorem WellFormed.get?_eq_none (hfs : fs.WellFormed) (hl : fs.get? l = none) (hq : l <+: q) :
    fs.get? q = none := by
  refine Decidable.byContradiction fun hne => ?_
  by_cases heq : l = q
  · exact hne (heq ▸ hl)
  · rw [hfs.directory_of_prefix hne hq heq] at hl
    cases hl

section Ways

theorem follow_eq_ok {steps : List String} {here there : Place} (hup : ".." ∉ steps)
    (h : fs.follow here steps = .ok there) :
    there = here ++ steps.filter fun s => s ≠ "" ∧ s ≠ "." := by
  induction steps generalizing here with
  | nil => simpa [follow] using h.symm
  | cons s steps ih =>
      rw [follow] at h
      obtain ⟨hs, hup⟩ := not_or.1 (List.mem_cons.not.1 hup)
      split at h
      · cases h
      · cases h
      · split at h
        case isTrue hstay =>
          rw [List.filter_cons_of_neg (by simpa [imp_iff_not_or] using hstay)]
          exact ih hup h
        case isFalse hgo =>
          rw [if_neg (Ne.symm hs)] at h
          split at h
          · cases h
          · rw [List.filter_cons_of_pos (by simpa [not_or] using hgo), ih hup h]
            simp

theorem placeOf_eq (hp : Rooted p.toList ss) : placeOf p = ss.map String.ofList := by
  rw [placeOf, hp.stepsOf_eq]

theorem steps_eq_empty_or_mem {s : String} (hs : s ∈ steps p) : s = "" ∨ s ∈ placeOf p := by
  obtain ⟨t, ht, rfl⟩ := List.mem_map.1 hs
  by_cases hne : t = []
  · exact .inl (hne ▸ rfl)
  · exact .inr (List.mem_map_of_mem (List.mem_filter.2 ⟨ht, by simpa using hne⟩))

theorem up_not_mem_of_ordinary (h : ∀ t ∈ ss, Path.Ordinary t) : ".." ∉ ss.map String.ofList := by
  intro hmem
  obtain ⟨t, ht, heq⟩ := List.mem_map.1 hmem
  refine (h t ht).2.2 ?_
  rw [← String.toList_ofList (l := t), heq]
  rfl

theorem up_not_mem_steps (hp : Rooted p.toList ss) : ".." ∉ steps p := by
  intro hmem
  rcases steps_eq_empty_or_mem hmem with heq | hmem
  · exact absurd heq (by decide)
  · rw [placeOf_eq hp] at hmem
    exact up_not_mem_of_ordinary (fun t ht => (hp.1 t ht).1) hmem

/-- Of the pieces between slashes only empty ones are no steps of such a path. -/
theorem filter_steps (hp : Rooted p.toList ss) :
    ((steps p).filter fun s => s ≠ "" ∧ s ≠ ".") = placeOf p := by
  rw [steps, List.filter_map, placeOf, Path.stepsOf]
  refine congrArg (List.map String.ofList) (List.filter_congr fun s hs => ?_)
  by_cases hnil : s = []
  · subst hnil
    rfl
  · have hmem : s ∈ Path.stepsOf p.toList := List.mem_filter.2 ⟨hs, by simpa using hnil⟩
    rw [hp.stepsOf_eq] at hmem
    have hdot : String.ofList s ≠ "." := by
      intro heq
      refine (hp.1 s hmem).1.2.1 ?_
      rw [← String.toList_ofList (l := s), heq]
      rfl
    simp [hnil, hdot]

theorem join_of_rooted (hp : Rooted p.toList ss) (cwd : String) : Path.join cwd p = p := by
  obtain ⟨cs, hcs⟩ := hp.exists_cons
  rw [Path.join, hcs, Path.below_of_anchored, ← hcs, String.ofList_toList]

/-- A path of ordinary steps leads to the place of its steps, if anywhere. -/
theorem place_eq_placeOf (hp : Rooted p.toList ss) (h : fs.place cwd p = .ok l) : l = placeOf p := by
  unfold place at h
  split at h
  · cases h
  · split at h
    · cases h
    · rw [join_of_rooted hp] at h
      rw [follow_eq_ok (up_not_mem_steps hp) h, List.nil_append, filter_steps hp]

end Ways

section SameOff

def SameOff (touched : Place → Prop) (fs fs' : FileSystem) : Prop :=
  ∀ q, ¬ touched q → fs'.get? q = fs.get? q

variable {touched : Place → Prop}

theorem SameOff.trans (h : SameOff touched fs fs') (h' : SameOff touched fs' fs'') :
    SameOff touched fs fs'' := fun q hq => (h' q hq).trans (h q hq)

theorem sameOff_put (hl : l ≠ []) (htouched : touched l) (e : Entry) :
    SameOff touched fs (fs.put l e) := by
  intro q hq
  rw [get?_put fs hl, if_neg]
  rintro rfl
  exact hq htouched

end SameOff

section TouchesOnly

/-- A file system that differs from another at most in the file at a place and by directories above it. -/
structure TouchesOnly (out : Place) (fs fs' : FileSystem) : Prop where
  off : SameOff (· <+: out) fs fs'
  above : ∀ q, q <+: out → q ≠ out →
    fs'.get? q = fs.get? q ∨ fs.get? q = none ∧ fs'.get? q = some .directory
  /-- At the place there may be another file, unless a directory lies there. -/
  at_out : fs'.get? out = fs.get? out ∨
    fs.get? out ≠ some .directory ∧ ∃ content, fs'.get? out = some (.file content)

namespace TouchesOnly

variable {out : Place}

theorem of_get?_eq (h : ∀ q, fs'.get? q = fs.get? q) : TouchesOnly out fs fs' :=
  ⟨fun q _ => h q, fun q _ _ => Or.inl (h q), Or.inl (h out)⟩

theorem trans (h : TouchesOnly out fs fs') (h' : TouchesOnly out fs' fs'') :
    TouchesOnly out fs fs'' where
  off := h.off.trans h'.off
  above q hq hne := by
    rcases h.above q hq hne with heq | ⟨hnone, hdir⟩
    · rcases h'.above q hq hne with heq' | ⟨hnone', hdir'⟩
      · exact Or.inl (heq'.trans heq)
      · exact Or.inr ⟨heq ▸ hnone', hdir'⟩
    · rcases h'.above q hq hne with heq' | ⟨hnone', -⟩
      · exact Or.inr ⟨hnone, heq'.trans hdir⟩
      · rw [hdir] at hnone'
        cases hnone'
  at_out := by
    rcases h.at_out with heq | ⟨hno, content, hfile⟩
    · rcases h'.at_out with heq' | ⟨hno', hfile'⟩
      · exact Or.inl (heq'.trans heq)
      · exact Or.inr ⟨heq ▸ hno', hfile'⟩
    · rcases h'.at_out with heq' | ⟨-, hfile'⟩
      · exact Or.inr ⟨hno, content, heq'.trans hfile⟩
      · exact Or.inr ⟨hno, hfile'⟩

end TouchesOnly

/-- Directories were added on the way to a place, and nothing else was changed. -/
def AddsDirectories (l : Place) (fs fs' : FileSystem) : Prop :=
  ∀ q, fs'.get? q = fs.get? q ∨ q <+: l ∧ fs.get? q = none ∧ fs'.get? q = some .directory

theorem AddsDirectories.refl (l : Place) (fs : FileSystem) : AddsDirectories l fs fs :=
  fun _ => Or.inl rfl

theorem AddsDirectories.trans (h : AddsDirectories l fs fs') (h' : AddsDirectories l fs' fs'') :
    AddsDirectories l fs fs'' := by
  intro q
  rcases h q with heq | ⟨hq, hnone, hdir⟩
  · rcases h' q with heq' | ⟨hq, hnone', hdir'⟩
    · exact Or.inl (heq'.trans heq)
    · exact Or.inr ⟨hq, heq ▸ hnone', hdir'⟩
  · rcases h' q with heq' | ⟨-, hnone', -⟩
    · exact Or.inr ⟨hq, hnone, heq'.trans hdir⟩
    · rw [hdir] at hnone'
      cases hnone'

theorem AddsDirectories.mono {l' : Place} (h : AddsDirectories l fs fs') (hl : l <+: l') :
    AddsDirectories l' fs fs' := fun q =>
  (h q).imp_right fun ⟨hq, hchange⟩ => ⟨hq.trans hl, hchange⟩

theorem eq_put_of_makeDirectory (hp : Rooted p.toList ss) (h : fs.makeDirectory cwd p = .ok fs') :
    fs.place cwd p = .ok (placeOf p) ∧ fs.get? (placeOf p) = none ∧
      fs' = fs.put (placeOf p) .directory := by
  unfold makeDirectory at h
  split at h
  · cases h
  case h_2 l hplace =>
    obtain rfl := place_eq_placeOf hp hplace
    split at h
    · cases h
    case isFalse hfree => exact ⟨hplace, by simpa using hfree, (Except.ok.inj h).symm⟩

theorem addsDirectories_makeDirectory (hp : Rooted p.toList ss) (h : fs.makeDirectory cwd p = .ok fs') :
    AddsDirectories (placeOf p) fs fs' := by
  obtain ⟨-, hfree, rfl⟩ := eq_put_of_makeDirectory hp h
  intro q
  rw [get?_put fs (ne_nil_of_free hfree)]
  split
  case isTrue heq =>
    subst heq
    exact Or.inr ⟨List.prefix_rfl, hfree, rfl⟩
  case isFalse => exact Or.inl rfl

theorem addsDirectories_ensureDirectory (hp : Rooted p.toList ss)
    (h : fs.ensureDirectory cwd p = .ok fs') : AddsDirectories (placeOf p) fs fs' := by
  unfold ensureDirectory at h
  split at h
  case h_1 hmake =>
    obtain rfl := Except.ok.inj h
    exact addsDirectories_makeDirectory hp hmake
  case h_2 =>
    split at h
    · obtain rfl := Except.ok.inj h
      exact AddsDirectories.refl _ fs
    · cases h

theorem toList_intercalate_slash (steps : List String) :
    ("/".intercalate steps).toList = Text.join ['/'] (steps.map String.toList) := by
  induction steps with
  | nil => rfl
  | cons s steps ih =>
      cases steps with
      | nil => simp
      | cons t steps =>
          rw [List.map_cons, List.map_cons, Text.join_cons_cons, ← List.map_cons, ← ih]
          simp [String.toList_intercalate, List.intercalate]

theorem touchesOnly_write {out : String} {content : ByteArray} (hout : Rooted out.toList ss)
    (h : fs.write cwd out content = .ok fs') : TouchesOnly (placeOf out) fs fs' := by
  unfold write writable at h
  split at h
  · cases h
  case h_2 l hplace =>
    obtain rfl := place_eq_placeOf hout hplace
    split at h
    · cases h
    case isFalse hfile =>
      obtain rfl : fs.put (placeOf out) (.file content) = fs' := Except.ok.inj h
      have hne : placeOf out ≠ [] := by
        intro hroot
        rw [hroot] at hfile
        exact hfile fs.get?_root
      have hoff : SameOff (· <+: placeOf out) fs (fs.put (placeOf out) (.file content)) := by
        refine sameOff_put hne ?_ _
        exact List.prefix_rfl
      refine ⟨hoff, fun q _ hq => Or.inl ?_, Or.inr ⟨hfile, content, ?_⟩⟩
      · rw [get?_put fs hne, if_neg (Ne.symm hq)]
      · rw [get?_put fs hne, if_pos rfl]

end TouchesOnly

end FileSystem

end DeclBundle
