import DeclBundle.Module.Selection
import DeclBundle.Proofs.TidyPath
import Mathlib.Data.List.Forall2

/-!
# Files of entries

The file of an entry is an absolute path in normal form, so it is found again where it is from every working
directory (`entryPath_eq_self`). It lies in the base directory, unless the entry is an absolute path or a
relative one that climbs out of it (`Found`): a relative path leads out of a directory exactly if its way
down does not begin with the steps of the directory that it climbed (`isUnder_absolute_iff`).
-/

namespace DeclBundle

namespace Path

/-- An absolute path in normal form. -/
structure IsAbsoluteNormal (p : String) : Prop where
  isAbsolute : Path.isAbsolute p = true
  normalize_eq : normalize p = p

/-- A relative path leads out of a directory: it climbs, and does not come down again by the steps of the
directory that it climbed. -/
structure ClimbsOut (dir p : String) : Prop where
  isRelative : isAbsolute p = false
  climbs : 0 < climb p.toList
  leaves : ¬ (stepsOf (normalize dir).toList).rtake (climb p.toList) <+: descent p.toList

variable {cwd dir p : String} {steps way : List (List Char)}

theorem isAbsoluteNormal_absolute (hcwd : isAbsolute cwd = true) (p : String) :
    IsAbsoluteNormal (absolute cwd p) :=
  ⟨isAbsolute_absolute hcwd p, (rooted_reach hcwd p).normalize_eq⟩

theorem IsAbsoluteNormal.absolute_eq (h : IsAbsoluteNormal p) (cwd : String) : absolute cwd p = p :=
  (absolute_of_isAbsolute h.isAbsolute cwd).trans h.normalize_eq

/-- A path lies in a directory if it has the anchor of the directory and its steps and maybe more. -/
theorem isUnder_of_rooted (hd : Rooted (normal dir.toList) steps)
    (hp : Rooted (normal p.toList) (steps ++ way))
    (hanchor : anchor (normal p.toList) = anchor (normal dir.toList)) : isUnder dir p = true := by
  rw [isUnder, Bool.or_eq_true, decide_eq_true_iff, List.isPrefixOf_iff_prefix]
  by_cases hway : way = []
  · subst hway
    rw [List.append_nil] at hp
    exact .inl ((hp.eq_iff hd).2 ⟨hanchor, rfl⟩)
  · right
    rcases List.eq_nil_or_concat steps with rfl | ⟨steps, s, rfl⟩
    · obtain ⟨cs, hcs⟩ := hp.exists_cons
      rw [hd.dropSlashes_nil, hcs]
      exact ⟨cs, rfl⟩
    · rw [List.concat_eq_append] at hd hp
      obtain ⟨cs, c, hcs, hc⟩ := hd.exists_append_ne_slash
      have hbase : normal dir.toList = anchor (normal dir.toList) ++ Text.join ['/'] (steps ++ [s]) :=
        hd.eq_anchor_append
      rw [hcs, dropSlashes_append_of_ne hc, ← hcs, hp.eq_anchor_append, hanchor,
        Text.join_append '/' (by simp) hway]
      refine ⟨Text.join ['/'] way, ?_⟩
      rw [← List.append_cons, ← List.append_assoc, ← hbase]

/-- A relative path leads from a directory into it exactly if it comes down by the steps of the directory
that it climbed. -/
theorem isUnder_absolute_iff (hdir : isAbsolute dir = true) (hp : isAbsolute p = false) :
    isUnder dir (absolute dir p) = true ↔
      (stepsOf (normalize dir).toList).rtake (climb p.toList) <+: descent p.toList := by
  obtain ⟨steps, hd⟩ := exists_rooted_of_isAbsolute hdir
  have hsteps : stepsOf (normalize dir).toList = steps := by
    rw [normalize, String.toList_ofList, hd.stepsOf_eq]
  have hsplit : steps = steps.rdrop (climb p.toList) ++ steps.rtake (climb p.toList) :=
    (List.take_append_drop _ _).symm
  have hrooted := rooted_reach hdir p
  rw [reverse_reach_eq hdir hp, hsteps, ← (isAbsoluteNormal_absolute hdir p).normalize_eq, normalize,
    String.toList_ofList] at hrooted
  rw [hsteps]
  constructor
  · intro h
    have hprefix : steps <+: steps.rdrop (climb p.toList) ++ descent p.toList := by
      by_cases hsame : normalize (absolute dir p) = normalize dir
      · rw [← String.toList_inj, normalize, normalize, String.toList_ofList,
          String.toList_ofList] at hsame
        rw [hsame] at hrooted
        have hwalk := hd.stepsOf_eq.symm.trans hrooted.stepsOf_eq
        exact ⟨[], (List.append_nil steps).trans hwalk⟩
      · obtain ⟨way, hway, -⟩ := hd.exists_append_of_isUnder hrooted h hsame
        exact ⟨way, hway.symm⟩
    conv at hprefix => lhs; rw [hsplit]
    rwa [List.prefix_append_right_inj] at hprefix
  · rintro ⟨way, hway⟩
    rw [← hway, ← List.append_assoc, ← hsplit] at hrooted
    refine isUnder_of_rooted hd hrooted ?_
    have hanchor := anchor_absolute hdir p
    rw [hp, if_neg Bool.false_ne_true] at hanchor
    obtain ⟨cs, hcs⟩ := isAbsolute_iff.1 hdir
    rw [← String.toList_ofList (l := normal (absolute dir p).toList), ← normalize,
      (isAbsoluteNormal_absolute hdir p).normalize_eq, hanchor, hcs, anchor_normal]

theorem climbsOut_of_not_isUnder (hdir : isAbsolute dir = true) (hp : isAbsolute p = false)
    (h : isUnder dir (absolute dir p) = false) : ClimbsOut dir p := by
  have hleaves : ¬ (stepsOf (normalize dir).toList).rtake (climb p.toList) <+: descent p.toList := by
    rw [← isUnder_absolute_iff hdir hp, h]
    exact Bool.false_ne_true
  refine ⟨hp, Nat.pos_of_ne_zero fun hzero => hleaves ?_, hleaves⟩
  rw [hzero, List.rtake_zero]
  exact List.nil_prefix

end Path

namespace Module

open DeclBundle.Path

/-- Where the file of an entry is found. -/
inductive Found (cwd baseDir entry : String) : String → Prop
  /-- In the base directory, seen from the working directory. -/
  | here (h : isUnder baseDir (absolute cwd entry) = true) : Found cwd baseDir entry (absolute cwd entry)
  | within (hnot : isUnder baseDir (absolute cwd entry) = false)
      (h : isUnder baseDir (absolute baseDir entry) = true) :
      Found cwd baseDir entry (absolute baseDir entry)
  | apart (hnot : isUnder baseDir (normalize entry) = false) (h : isAbsolute entry = true) :
      Found cwd baseDir entry (normalize entry)
  | outside (hnot : isUnder baseDir (absolute cwd entry) = false) (h : ClimbsOut baseDir entry) :
      Found cwd baseDir entry (absolute baseDir entry)

variable {cwd baseDir : String}

theorem entryPath_eq (cwd baseDir entry : String) :
    entryPath cwd baseDir entry =
      if isUnder baseDir (absolute cwd entry) then absolute cwd entry else absolute baseDir entry := rfl

theorem isAbsoluteNormal_entryPath (hbase : isAbsolute baseDir = true) (hcwd : isAbsolute cwd = true)
    (entry : String) : IsAbsoluteNormal (entryPath cwd baseDir entry) := by
  rw [entryPath_eq]
  split
  · exact isAbsoluteNormal_absolute hcwd entry
  · exact isAbsoluteNormal_absolute hbase entry

/-- An absolute path in normal form is its own file, wherever it is looked for. -/
theorem entryPath_eq_self {p : String} (h : IsAbsoluteNormal p) (cwd baseDir : String) :
    entryPath cwd baseDir p = p := by
  rw [entryPath_eq, h.absolute_eq, h.absolute_eq, ite_self]

theorem found_entryPath (hbase : isAbsolute baseDir = true) (cwd entry : String) :
    Found cwd baseDir entry (entryPath cwd baseDir entry) := by
  rw [entryPath_eq]
  cases hhere : isUnder baseDir (absolute cwd entry) with
  | true =>
      rw [if_pos rfl]
      exact .here hhere
  | false =>
      rw [if_neg Bool.false_ne_true]
      cases hentry : isAbsolute entry with
      | true =>
          rw [absolute_of_isAbsolute hentry] at hhere ⊢
          exact .apart hhere hentry
      | false =>
          cases hwithin : isUnder baseDir (absolute baseDir entry) with
          | true => exact .within hhere hwithin
          | false => exact .outside hhere (climbsOut_of_not_isUnder hbase hentry hwithin)

/-- The files of entries are as many as the entries, absolute and in normal form. Each lies in the base
directory, or where an absolute entry says, or outside because a relative entry climbs out. The files of
these files are they themselves, from whatever working directory. -/
theorem entryPaths_stable (hbase : isAbsolute baseDir = true) (hcwd : isAbsolute cwd = true)
    (entries : List String) :
    (entryPaths cwd baseDir entries).length = entries.length ∧
    (∀ p ∈ entryPaths cwd baseDir entries, IsAbsoluteNormal p) ∧
    List.Forall₂ (Found cwd baseDir) entries (entryPaths cwd baseDir entries) ∧
    ∀ cwd', entryPaths cwd' baseDir (entryPaths cwd baseDir entries) =
      entryPaths cwd baseDir entries := by
  have hnormal : ∀ p ∈ entryPaths cwd baseDir entries, IsAbsoluteNormal p := by
    intro p hp
    obtain ⟨entry, -, rfl⟩ := List.mem_map.1 hp
    exact isAbsoluteNormal_entryPath hbase hcwd entry
  refine ⟨List.length_map _, hnormal, ?_, fun cwd' => ?_⟩
  · rw [entryPaths, List.forall₂_map_right_iff, List.forall₂_same]
    exact fun entry _ => found_entryPath hbase cwd entry
  · rw [entryPaths]
    refine (List.map_congr_left fun p hp => ?_).trans (List.map_id _)
    exact entryPath_eq_self (hnormal p hp) cwd' baseDir

/-- Entries in the base directory and out of it, where neither directory is in normal form. -/
theorem entryPaths_stable_mixed :
    isAbsolute "//b/./c/" = true ∧ isAbsolute "/w/../v" = true ∧
      entryPaths "/w/../v" "//b/./c/" ["", "x//y.ts", "../c/z.ts", "/c/../o.ts", "../../../q.ts"] =
        ["//b/c", "//b/c/x/y.ts", "//b/c/z.ts", "/o.ts", "//q.ts"] ∧
      IsAbsoluteNormal "//b/c/z.ts" ∧ ClimbsOut "//b/./c/" "../../../q.ts" ∧
      entryPaths "/c" "//b/./c/" ["//b/c", "//b/c/x/y.ts", "//b/c/z.ts", "/o.ts", "//q.ts"] =
        ["//b/c", "//b/c/x/y.ts", "//b/c/z.ts", "/o.ts", "//q.ts"] := by
  have hbase : isAbsolute "//b/./c/" = true := by decide
  have hcwd : isAbsolute "/w/../v" = true := by decide
  have hfiles : entryPaths "/w/../v" "//b/./c/"
      ["", "x//y.ts", "../c/z.ts", "/c/../o.ts", "../../../q.ts"] =
      ["//b/c", "//b/c/x/y.ts", "//b/c/z.ts", "/o.ts", "//q.ts"] := by
    decide +kernel
  obtain ⟨-, hnormal, hfound, hagain⟩ :=
    entryPaths_stable hbase hcwd ["", "x//y.ts", "../c/z.ts", "/c/../o.ts", "../../../q.ts"]
  rw [hfiles] at hnormal hagain
  exact ⟨hbase, hcwd, hfiles, hnormal _ (by simp),
    climbsOut_of_not_isUnder hbase (by decide) (by decide +kernel), hagain "/c"⟩

end Module

end DeclBundle
