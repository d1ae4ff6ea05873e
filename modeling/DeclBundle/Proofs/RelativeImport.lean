import DeclBundle.Proofs.Identity

/-!
# Relative imports

A relative specifier is read twice: as a path from the directory of the importing file, and as a
path from the directory part of its id. Both are walks, one on top of the steps of the base
directory and one on top of those of the package name. A walk that never goes up from there does not
see what it stands on (`foldl_push_append`), so both take the same way, and the specifier leads to
the id of the file to which it leads in the file system (`resolveId_idOf`).
-/

namespace DeclBundle

namespace Path

/-- A path that lies under a directory and is not the directory itself. -/
def StrictlyUnder (dir p : String) : Prop := isUnder dir p = true ∧ normalize p ≠ normalize dir

/-- Whether a walk that begins some steps below a directory never goes up from that directory. A
step up in the directory itself leaves it, also where that is the root. -/
def staysWithin (below : Nat) : List (List Char) → Bool
  | [] => true
  | s :: steps =>
    if s = [] ∨ s = here then staysWithin below steps
    else if s = up then decide (0 < below) && staysWithin (below - 1) steps
    else staysWithin (below + 1) steps

-- A step up from the root stays at the root, but in an id it takes the package name back.
example : normalize "/./../y" = "/y" ∧ normalize "pkg/./../y" = "y" := by decide

/-- The number of steps from a directory to the directory of a file under it. -/
def depth (dir p : String) : Nat :=
  (stepsOf (directory (normalize p)).toList).length - (stepsOf (normalize dir).toList).length

theorem staysWithin_cons_of_stay {s : List Char} (h : s = [] ∨ s = here) (below : Nat)
    (steps : List (List Char)) : staysWithin below (s :: steps) = staysWithin below steps := by
  simp [staysWithin, h]

theorem staysWithin_cons_up (below : Nat) (steps : List (List Char)) :
    staysWithin below (up :: steps) = true ↔ 0 < below ∧ staysWithin (below - 1) steps = true := by
  have hup : ¬ (up = [] ∨ up = here) := by decide
  simp [staysWithin, hup]

theorem staysWithin_cons_of_ordinary {s : List Char} (h : Ordinary s) (below : Nat)
    (steps : List (List Char)) :
    staysWithin below (s :: steps) = staysWithin (below + 1) steps := by
  simp [staysWithin, h.1, h.2.1, h.2.2]

/-- A walk that stays in a directory does not depend on where that lies. -/
theorem foldl_push_append (anchored : Bool) (steps front base : List (List Char))
    (hup : ∀ s ∈ front, s ≠ up) (h : staysWithin front.length steps = true) :
    steps.foldl (push anchored) (front ++ base) = steps.foldl (push true) front ++ base := by
  induction steps generalizing front with
  | nil => rfl
  | cons s steps ih =>
      rw [List.foldl_cons, List.foldl_cons]
      by_cases hstay : s = [] ∨ s = here
      · have hpush : ∀ a stack, push a stack s = stack := fun a stack => by simp [push, hstay]
        rw [staysWithin_cons_of_stay hstay] at h
        rw [hpush, hpush]
        exact ih front hup h
      · obtain ⟨hne, hhere⟩ := not_or.1 hstay
        by_cases hs : s = up
        · subst hs
          obtain ⟨hlt, hrest⟩ := (staysWithin_cons_up front.length steps).1 h
          obtain ⟨top, front, rfl⟩ := List.exists_cons_of_length_pos hlt
          have htop : top ≠ up := hup top List.mem_cons_self
          rw [List.cons_append, push_up_cons htop, push_up_cons htop]
          exact ih front (fun t ht => hup t (List.mem_cons_of_mem top ht)) hrest
        · rw [staysWithin_cons_of_ordinary ⟨hne, hhere, hs⟩] at h
          rw [push_of_ne hne hhere hs, push_of_ne hne hhere hs, ← List.cons_append]
          refine ih (s :: front) ?_ h
          intro t ht
          rcases List.mem_cons.1 ht with rfl | ht
          · exact hs
          · exact hup t ht

/-- What is left of a walk that stays in a directory, behind the steps of that directory. -/
theorem settle_append_of_staysWithin (anchored : Bool) {base front : List (List Char)}
    (hbase : ∀ s ∈ base, Ordinary s) (hfront : ∀ s ∈ front, Ordinary s) {p : List Char}
    (h : staysWithin front.length (Text.pieces '/' p) = true) :
    settle anchored (base ++ front ++ stepsOf p) =
      base ++ ((Text.pieces '/' p).foldl (push true) front.reverse).reverse := by
  have hwalk := foldl_push_append anchored (Text.pieces '/' p) front.reverse base.reverse
    (fun s hs => (hfront s (List.mem_reverse.1 hs)).2.2) (by rwa [List.length_reverse])
  rw [settle, List.foldl_append, List.foldl_append, foldl_push_of_ordinary hbase,
    foldl_push_of_ordinary hfront, List.append_nil, stepsOf, foldl_push_filter, hwalk,
    List.reverse_append, List.reverse_reverse]

theorem StrictlyUnder.exists_steps {dir p : String} {steps : List (List Char)}
    (hd : Rooted (normal dir.toList) steps) (h : StrictlyUnder dir p) :
    ∃ way, Rooted (normal p.toList) (steps ++ way) ∧ (way = [] → steps = []) := by
  obtain ⟨cs, hcs⟩ := hd.exists_cons_of_isUnder h.1
  have hp := rooted_normal cs
  rw [← hcs] at hp
  obtain ⟨way, hway, hnil⟩ := hd.exists_append_of_isUnder hp h.1 h.2
  exact ⟨way, hway ▸ hp, hnil⟩

theorem rooted_directory {p : List Char} {steps way : List (List Char)}
    (hp : Rooted p (steps ++ way)) (h : way = [] → steps = []) :
    Rooted (directoryChars p) (steps ++ way.dropLast) := by
  have hdir := hp.rooted_directoryChars
  cases way with
  | nil =>
      obtain rfl := h rfl
      exact hdir
  | cons s way =>
      rw [List.dropLast_append_of_ne_nil (by simp)] at hdir
      exact hdir

theorem rooted_directory_of_name {p : String} {steps : List (List Char)} {n : List Char}
    (hp : Rooted (normal p.toList) (steps ++ [n])) :
    Rooted (directory (normalize p)).toList steps := by
  have hdir := hp.rooted_directoryChars
  rw [List.dropLast_concat] at hdir
  rwa [directory, normalize, String.toList_ofList, String.toList_ofList]

theorem toList_normalize_join (p s : String) :
    (normalize (join (directory (normalize p)) s)).toList =
      normal (below (directoryChars (normal p.toList)) s.toList) := by
  rw [normalize, join, directory, normalize, String.toList_ofList, String.toList_ofList,
    String.toList_ofList, String.toList_ofList]

theorem depth_eq_length {dir p : String} {steps way : List (List Char)}
    (hd : Rooted (normal dir.toList) steps)
    (hp : Rooted (directoryChars (normal p.toList)) (steps ++ way)) : depth dir p = way.length := by
  rw [depth, directory, normalize, normalize, String.toList_ofList, String.toList_ofList,
    String.toList_ofList, hp.stepsOf_eq, hd.stepsOf_eq, List.length_append, Nat.add_sub_cancel_left]

/-- Where a walk that stays in a directory leads to, seen from that directory. -/
theorem walk_eq_of_target {d q s : List Char} {base front way : List (List Char)}
    (hd : Rooted d (base ++ front)) (hs : s.head? ≠ some '/')
    (hwithin : staysWithin front.length (Text.pieces '/' s) = true)
    (htarget : normal (below d s) = q) (hq : stepsOf q = base ++ way) :
    ((Text.pieces '/' s).foldl (push true) front.reverse).reverse = way := by
  have hbase : ∀ t ∈ base, Ordinary t := fun t ht => (hd.1 t (List.mem_append_left front ht)).1
  have hfront : ∀ t ∈ front, Ordinary t := fun t ht => (hd.1 t (List.mem_append_right base ht)).1
  have hbelow := (hd.rooted_normal_below hs).stepsOf_eq
  rw [settle_append_of_staysWithin true hbase hfront hwithin, htarget, hq] at hbelow
  exact (List.append_cancel_left hbelow).symm

end Path

namespace Module

open DeclBundle.Path

theorem name_of_rooted_nil {p : String} (hp : Rooted (normal p.toList) []) :
    Path.name (Path.normalize p) = "" := by
  obtain ⟨-, a, ha, hnormal⟩ := hp
  rw [Path.name, Path.normalize, String.toList_ofList, hnormal]
  rcases ha with rfl | rfl
  · rfl
  · rfl

theorem name_of_rooted {p : String} {steps : List (List Char)} {n : List Char}
    (hp : Rooted (normal p.toList) (steps ++ [n])) : Path.name (Path.normalize p) = String.ofList n := by
  obtain ⟨d, hd⟩ := hp.exists_append_cons
  have hslash : '/' ∉ n := (hp.1 n (by simp)).2
  rw [Path.name, Path.normalize, String.toList_ofList, hd, afterSlash_append_cons hslash]

theorem exists_steps_of_name {dir p : String} {steps : List (List Char)}
    (hd : Rooted (normal dir.toList) steps) (h : StrictlyUnder dir p)
    (hname : Path.name (Path.normalize p) ≠ "") :
    ∃ dirs n, Rooted (normal p.toList) (steps ++ (dirs ++ [n])) := by
  obtain ⟨way, hway, hnil⟩ := h.exists_steps hd
  rcases List.eq_nil_or_concat way with rfl | ⟨dirs, n, rfl⟩
  · obtain rfl := hnil rfl
    exact absurd (name_of_rooted_nil hway) hname
  · exact ⟨dirs, n, by rwa [List.concat_eq_append] at hway⟩

/-- The steps without the extension, where the name is more than an extension. -/
theorem exists_steps_of_stem {p : String} {steps way : List (List Char)}
    (hp : Rooted (normal p.toList) (steps ++ way)) (hnil : way = [] → steps = [])
    (hstem : Ordinary (stripExtension (Path.name (Path.normalize p))).toList) :
    ∃ dirs n, way = dirs ++ [n] ∧ Ordinary (stripExtension (String.ofList n)).toList ∧
      stepsOf (stripExtension (Path.normalize p)).toList =
        steps ++ dirs ++ [(stripExtension (String.ofList n)).toList] := by
  rcases List.eq_nil_or_concat way with rfl | ⟨dirs, n, rfl⟩
  · obtain rfl := hnil rfl
    have hempty : (stripExtension "").toList = [] := by decide
    rw [name_of_rooted_nil hp, hempty] at hstem
    exact absurd rfl hstem.1
  · rw [List.concat_eq_append, ← List.append_assoc] at hp
    rw [name_of_rooted hp] at hstem
    exact ⟨dirs, n, List.concat_eq_append, hstem, (rooted_stripExtension hp hstem).1.stepsOf_eq⟩

/-- In an id a specifier takes the same walk as in the file system, on top of the package name. -/
theorem toList_resolveId_idOf {baseDir p name specifier : String} {steps way : List (List Char)}
    (hb : Rooted (normal baseDir.toList) steps) (hp : Rooted (normal p.toList) (steps ++ way))
    (hname : ∀ s ∈ Text.pieces '/' name.toList, Ordinary s)
    (hspec : specifier.toList.head? ≠ some '/')
    (hwithin : staysWithin way.dropLast.length (Text.pieces '/' specifier.toList) = true)
    (cwd : String) :
    (resolveId (idOf cwd baseDir p name) specifier).toList =
      write [] (Text.pieces '/' name.toList ++
        ((Text.pieces '/' specifier.toList).foldl (push true) way.dropLast.reverse).reverse) := by
  obtain ⟨last, hlast, -, hid⟩ := toList_idOf hb hp cwd name
  have hway : ∀ s ∈ way.dropLast, Ordinary s ∧ '/' ∉ s := fun s hs =>
    hp.1 s (List.mem_append_right steps (List.dropLast_subset way hs))
  have hsteps : ∀ s ∈ Text.pieces '/' name.toList ++ way.dropLast, s ≠ [] ∧ '/' ∉ s := by
    intro s hs
    rcases List.mem_append.1 hs with hs | hs
    · exact ⟨(hname s hs).1, Text.not_mem_of_mem_pieces hs⟩
    · exact ⟨(hway s hs).1.1, (hway s hs).2⟩
  have hne : Text.pieces '/' name.toList ++ way.dropLast ≠ [] :=
    List.append_ne_nil_of_left_ne_nil (Text.pieces_ne_nil '/' _) _
  rw [toList_resolveId hid hne hsteps hlast hspec,
    settle_append_of_staysWithin false hname (fun s hs => (hway s hs).1) hwithin]

/-- A specifier leads from the id of one file to that of another if it leads from the one file to
the other without leaving the base directory. -/
theorem resolveId_idOf {cwd baseDir name f g specifier : String}
    (hb : isAbsolute baseDir = true) (hname : ∀ s ∈ Text.pieces '/' name.toList, Ordinary s)
    (hf : StrictlyUnder baseDir f) (hg : StrictlyUnder baseDir g)
    (hstem : Ordinary (stripExtension (Path.name (Path.normalize g))).toList)
    (hdot : specifier.toList.head? = some '.')
    (hwithin : staysWithin (depth baseDir f) (Text.pieces '/' specifier.toList) = true)
    (htarget : Path.normalize (join (directory (Path.normalize f)) specifier) =
      stripExtension (Path.normalize g)) :
    resolveId (idOf cwd baseDir f name) specifier = idOf cwd baseDir g name := by
  have hspec : specifier.toList.head? ≠ some '/' := by
    rw [hdot]
    decide
  obtain ⟨cs, hcs⟩ := isAbsolute_iff.1 hb
  have hbase := rooted_normal cs
  rw [← hcs] at hbase
  obtain ⟨fway, hfway, hfnil⟩ := hf.exists_steps hbase
  obtain ⟨gway, hgway, hgnil⟩ := hg.exists_steps hbase
  obtain ⟨dirs, n, rfl, hn, hgsteps⟩ := exists_steps_of_stem hgway hgnil hstem
  have hfdir := rooted_directory hfway hfnil
  rw [depth_eq_length hbase hfdir] at hwithin
  have hnormal : normal (below (directoryChars (normal f.toList)) specifier.toList) =
      (stripExtension (Path.normalize g)).toList := by
    rw [← htarget, Path.normalize, join, directory, Path.normalize, String.toList_ofList,
      String.toList_ofList, String.toList_ofList, String.toList_ofList]
  -- From the base directory the walk takes the way to the other file, and so it does from the
  -- package name.
  rw [List.append_assoc] at hgsteps
  have hwalk := walk_eq_of_target hfdir hspec hwithin hnormal hgsteps
  have hresolved := toList_resolveId_idOf hbase hfway hname hspec hwithin cwd
  rw [hwalk, ← List.append_assoc, write_nil_append _ hn.1] at hresolved
  obtain ⟨last, -, hlast, hgid⟩ := toList_idOf hbase hgway cwd name
  rw [hlast n (by rw [List.dropLast_concat]), List.dropLast_concat] at hgid
  exact String.toList_injective (hresolved.trans hgid.symm)

theorem resolveId_idOf_sibling :
    isAbsolute "/lib" = true ∧ (∀ s ∈ Text.pieces '/' "pkg/sub".toList, Ordinary s) ∧
      StrictlyUnder "/lib" "/lib/a/x/f.ts" ∧ StrictlyUnder "/lib" "/lib/a/y.d.ts" ∧
      Ordinary (stripExtension (Path.name (Path.normalize "/lib/a/y.d.ts"))).toList ∧
      "./..//y".toList.head? = some '.' ∧
      staysWithin (depth "/lib" "/lib/a/x/f.ts") (Text.pieces '/' "./..//y".toList) = true ∧
      Path.normalize (join (directory (Path.normalize "/lib/a/x/f.ts")) "./..//y") =
        stripExtension (Path.normalize "/lib/a/y.d.ts") ∧
      resolveId (idOf "/" "/lib" "/lib/a/x/f.ts" "pkg/sub") "./..//y" =
        idOf "/" "/lib" "/lib/a/y.d.ts" "pkg/sub" := by
  have hbase : isAbsolute "/lib" = true := by decide
  have hname : ∀ s ∈ Text.pieces '/' "pkg/sub".toList, Ordinary s := by
    unfold Ordinary
    decide
  have hf : StrictlyUnder "/lib" "/lib/a/x/f.ts" := ⟨by decide, by decide⟩
  have hg : StrictlyUnder "/lib" "/lib/a/y.d.ts" := ⟨by decide, by decide⟩
  have hstem : Ordinary (stripExtension (Path.name (Path.normalize "/lib/a/y.d.ts"))).toList := by
    unfold Ordinary
    decide
  have hdot : "./..//y".toList.head? = some '.' := by decide
  have hwithin : staysWithin (depth "/lib" "/lib/a/x/f.ts")
      (Text.pieces '/' "./..//y".toList) = true := by decide
  have htarget : Path.normalize (join (directory (Path.normalize "/lib/a/x/f.ts")) "./..//y") =
      stripExtension (Path.normalize "/lib/a/y.d.ts") := by decide
  exact ⟨hbase, hname, hf, hg, hstem, hdot, hwithin, htarget,
    resolveId_idOf hbase hname hf hg hstem hdot hwithin htarget⟩

end Module

end DeclBundle
