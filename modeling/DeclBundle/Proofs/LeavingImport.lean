import DeclBundle.Proofs.Climb

/-!
# Imports that leave the base directory

A relative specifier that climbs above the base directory takes a way down from there. In the file system
it comes back to a file under the base directory if it first takes the last steps of that directory, as
many as it climbed above it. In an id the package name stands for the base directory, so there it has to
take the last segments of the name (`resolveId_idOf_of_leaves`). The two agree on a file exactly if these
are the same, or neither way leads to the file: otherwise an import of a bundled file is lost, or one of
another file is taken for it.
-/

namespace DeclBundle

namespace Path

/-- Steps of a row behind a climb to its beginning or above do not matter. -/
theorem ascend_append (anchored : Bool) (xs ys : List (List Char)) {n : Nat} (h : ys.length ≤ n) :
    ascend anchored (xs ++ ys) n = ascend anchored xs (n - ys.length) := by
  have hsub : n - (xs.length + ys.length) = n - ys.length - xs.length := by omega
  have hdrop : (xs ++ ys).rdrop n = xs.rdrop (n - ys.length) := by
    rw [← Nat.add_sub_cancel' h, List.rdrop_append_length_add, Nat.add_sub_cancel_left]
  rw [ascend, ascend, List.length_append, hsub, hdrop]

theorem rdrop_append_rtake {α : Type} (xs : List α) (n : Nat) : xs.rdrop n ++ xs.rtake n = xs :=
  List.take_append_drop _ _

theorem ascend_true_append_eq_iff {steps way down : List (List Char)} {n : Nat} :
    ascend true steps n ++ down = steps ++ way ↔ down = steps.rtake n ++ way := by
  have hsteps : steps ++ way = steps.rdrop n ++ (steps.rtake n ++ way) := by
    rw [← List.append_assoc, rdrop_append_rtake]
  have hascend : ascend true steps n = steps.rdrop n := rfl
  rw [hascend, hsteps, List.append_cancel_left_eq]

/-- Where no anchor is, a climb is undone by the last steps of the row, if it did not go up from it. -/
theorem ascend_false_append_eq_iff {steps way down : List (List Char)} {n : Nat} (hne : steps ≠ [])
    (h : ∀ t ∈ steps, t ≠ up) :
    ascend false steps n ++ down = steps ++ way ↔
      n ≤ steps.length ∧ down = steps.rtake n ++ way := by
  by_cases hn : n ≤ steps.length
  · have hascend : ascend false steps n = ascend true steps n := by
      simp [ascend, Nat.sub_eq_zero_of_le hn]
    rw [hascend, ascend_true_append_eq_iff]
    exact (and_iff_right hn).symm
  · refine iff_of_false (fun heq => ?_) fun hand => hn hand.1
    obtain ⟨s, steps, rfl⟩ := List.exists_cons_of_ne_nil hne
    obtain ⟨k, hk⟩ : ∃ k, n - (s :: steps).length = k + 1 := Nat.exists_eq_add_one.2 (by omega)
    have hascend : ascend false (s :: steps) n = List.replicate (k + 1) up ++ (s :: steps).rdrop n := by
      rw [ascend, hk, if_neg Bool.false_ne_true]
    rw [hascend, List.replicate_succ, List.cons_append, List.cons_append, List.cons_append,
      List.cons.injEq] at heq
    exact h s List.mem_cons_self heq.1.symm

theorem write_nil_eq_join_iff {xs ys : List (List Char)} (hx : ∀ s ∈ xs, s ≠ [] ∧ '/' ∉ s)
    (hy : ∀ s ∈ ys, '/' ∉ s) (hlength : 1 < ys.length) :
    write [] xs = Text.join ['/'] ys ↔ xs = ys := by
  have hne : ys ≠ [] := List.ne_nil_of_length_pos (Nat.zero_lt_of_lt hlength)
  have hpieces : Text.pieces '/' (Text.join ['/'] ys) = ys := Text.pieces_join hne hy
  rcases List.eq_nil_or_concat xs with rfl | ⟨xs, s, rfl⟩
  · refine iff_of_false (fun heq => ?_) fun heq => hne heq.symm
    have hhere : Text.pieces '/' (write [] []) = [here] := by decide
    rw [← heq, hhere] at hpieces
    rw [← hpieces] at hlength
    exact absurd hlength (by decide)
  · rw [List.concat_eq_append] at hx ⊢
    have hs : s ≠ [] := (hx s (by simp)).1
    rw [write_nil_append xs hs]
    constructor
    · intro heq
      rw [← heq, Text.pieces_join (by simp) fun t ht => (hx t ht).2] at hpieces
      exact hpieces
    · rintro rfl
      rfl

def excess (dir p specifier : String) : Nat := climb specifier.toList - depth dir p

theorem ascend_append_of_le (anchored : Bool) (xs ys : List (List Char)) {n : Nat} (h : n ≤ ys.length) :
    ascend anchored (xs ++ ys) n = xs ++ ys.rdrop n := by
  have hsub : n - (xs.length + ys.length) = 0 := by omega
  simp [ascend, hsub, List.rdrop_append_of_le_length n h]

theorem normal_below_eq_iff {p q s : List Char} {steps steps' : List (List Char)} (hp : Rooted p steps)
    (hq : Rooted q steps') (hs : s.head? ≠ some '/') :
    normal (below p s) = q ↔
      anchor p = anchor q ∧ ascend true steps (climb s) ++ descent s = steps' := by
  have hbelow := hp.rooted_normal_below hs
  have hanchor : anchor (normal (below p s)) = anchor p := by
    obtain ⟨cs, hcs⟩ := hp.exists_cons_below s
    rw [← hp.anchor_below hs, hcs, anchor_normal]
  rw [hbelow.eq_iff hq, hanchor, settle_append_stepsOf true fun t ht => (hp.1 t ht).1]

end Path

namespace Module

open DeclBundle.Path

variable {cwd baseDir name f g specifier : String} {steps way : List (List Char)}

/-- The steps from a directory to a file under it, without the extension of the file. -/
def wayTo (dir p : String) : List (List Char) :=
  (stepsOf (stripExtension (Path.normalize p)).toList).drop (stepsOf (Path.normalize dir).toList).length

/-- From the id of a file a specifier leads to that of another one if its way down, on top of what its
climb leaves of the id of the one, is the way to the other. -/
theorem resolveId_eq_idOf_iff {dirs : List (List Char)} {n : List Char}
    (hb : Rooted (normal baseDir.toList) steps) (hf : Rooted (normal f.toList) (steps ++ way))
    (hg : Rooted (normal g.toList) (steps ++ (dirs ++ [n])))
    (hname : ∀ s ∈ Text.pieces '/' name.toList, Ordinary s) (hspec : specifier.toList.head? ≠ some '/')
    (cwd : String) :
    resolveId (idOf cwd baseDir f name) specifier = idOf cwd baseDir g name ↔
      ascend false (Text.pieces '/' name.toList ++ way.dropLast) (climb specifier.toList) ++
          descent specifier.toList =
        Text.pieces '/' name.toList ++ (dirs ++ [(stripExtension (String.ofList n)).toList]) := by
  have hordinary : ∀ s ∈ Text.pieces '/' name.toList ++ way.dropLast, Ordinary s ∧ '/' ∉ s := by
    intro s hs
    rcases List.mem_append.1 hs with hs | hs
    · exact ⟨hname s hs, Text.not_mem_of_mem_pieces hs⟩
    · exact hf.1 s (List.mem_append_right steps (List.dropLast_subset way hs))
  have hne : Text.pieces '/' name.toList ≠ [] := Text.pieces_ne_nil '/' _
  obtain ⟨last, hlast, -, hfid⟩ := toList_idOf hb hf cwd name
  have hresolved := toList_resolveId hfid (List.append_ne_nil_of_left_ne_nil hne _)
    (fun s hs => ⟨(hordinary s hs).1.1, (hordinary s hs).2⟩) hlast hspec
  rw [← String.toList_inj, toList_idOf_of_name hb hg, List.append_assoc, hresolved,
    ← settle_append_stepsOf false fun s hs => (hordinary s hs).1]
  apply write_nil_eq_join_iff
  · intro s hs
    rcases List.mem_append.1 (mem_of_mem_settle hs) with hs | hs
    · exact ⟨(hordinary s hs).1.1, (hordinary s hs).2⟩
    · exact stepsOf_of_mem hs
  · intro s hs
    rcases List.mem_append.1 hs with hs | hs
    · exact Text.not_mem_of_mem_pieces hs
    · rcases List.mem_append.1 hs with hs | hs
      · exact (hg.1 s (by simp [hs])).2
      · obtain rfl := List.mem_singleton.1 hs
        exact not_mem_stripExtension (hg.1 n (by simp)).2
  · have hpos := List.length_pos_of_ne_nil hne
    simp only [List.length_append, List.length_singleton]
    omega

/-- Of two things that hold for one row of steps with different beginnings, neither holds without the other
exactly if the beginnings are the same wherever one of them holds. -/
theorem iff_iff_of_append {A B P Q : Prop} {row x y rest : List (List Char)}
    (hA : A ↔ P ∧ row = x ++ rest) (hB : B ↔ Q ∧ row = y ++ rest) :
    (A ↔ B) ↔ (A ∨ B → Q ∧ P ∧ x = y) := by
  constructor
  · intro hiff hor
    have ha : A := hor.elim id hiff.2
    obtain ⟨hp, hx⟩ := hA.1 ha
    obtain ⟨hq, hy⟩ := hB.1 (hiff.1 ha)
    exact ⟨hq, hp, List.append_cancel_right (hx.symm.trans hy)⟩
  · intro hsame
    constructor
    · intro ha
      obtain ⟨hq, -, rfl⟩ := hsame (.inl ha)
      exact hB.2 ⟨hq, (hA.1 ha).2⟩
    · intro hb
      obtain ⟨-, hp, rfl⟩ := hsame (.inr hb)
      exact hA.2 ⟨hp, (hB.1 hb).2⟩

/-- What becomes of a specifier that leaves the base directory: to which file it leads from the id of
another one, and to which in the file system. -/
structure Leaving (cwd baseDir name f g specifier : String) : Prop where
  resolves_iff : resolveId (idOf cwd baseDir f name) specifier = idOf cwd baseDir g name ↔
    excess baseDir f specifier ≤ (Text.pieces '/' name.toList).length ∧
      descent specifier.toList =
        (Text.pieces '/' name.toList).rtake (excess baseDir f specifier) ++ wayTo baseDir g
  denotes_iff : Path.normalize (join (directory (Path.normalize f)) specifier) =
      stripExtension (Path.normalize g) ↔
    anchor (normal f.toList) = anchor (normal g.toList) ∧
      descent specifier.toList =
        (stepsOf (normal baseDir.toList)).rtake (excess baseDir f specifier) ++ wayTo baseDir g
  agree_iff : (resolveId (idOf cwd baseDir f name) specifier = idOf cwd baseDir g name ↔
      Path.normalize (join (directory (Path.normalize f)) specifier) =
        stripExtension (Path.normalize g)) ↔
    (resolveId (idOf cwd baseDir f name) specifier = idOf cwd baseDir g name ∨
      Path.normalize (join (directory (Path.normalize f)) specifier) =
        stripExtension (Path.normalize g) →
      anchor (normal f.toList) = anchor (normal g.toList) ∧
        excess baseDir f specifier ≤ (Text.pieces '/' name.toList).length ∧
        (Text.pieces '/' name.toList).rtake (excess baseDir f specifier) =
          (stepsOf (normal baseDir.toList)).rtake (excess baseDir f specifier))

/-- In an id a specifier that leaves the base directory has to come back by the last segments of the
package name, in the file system by the last steps of the base directory. -/
theorem resolveId_idOf_of_leaves (hb : isAbsolute baseDir = true)
    (hname : ∀ s ∈ Text.pieces '/' name.toList, Ordinary s) (hf : StrictlyUnder baseDir f)
    (hg : StrictlyUnder baseDir g)
    (hstem : Ordinary (stripExtension (Path.name (Path.normalize g))).toList)
    (hdot : specifier.toList.head? = some '.')
    (hleaves : staysWithin (depth baseDir f) (Text.pieces '/' specifier.toList) = false) :
    Leaving cwd baseDir name f g specifier := by
  have hspec : specifier.toList.head? ≠ some '/' := by
    rw [hdot]
    decide
  obtain ⟨steps, hbase⟩ := exists_rooted_of_isAbsolute hb
  obtain ⟨fway, hfway, hfnil⟩ := hf.exists_steps hbase
  obtain ⟨gway, hgway, hgnil⟩ := hg.exists_steps hbase
  obtain ⟨dirs, n, rfl, hn, hgsteps⟩ := exists_steps_of_stem hgway hgnil hstem
  have hfdir := rooted_directory hfway hfnil
  have hdepth := depth_eq_length hbase hfdir
  -- The climb passes the base directory, so of the way to the importing file nothing is left.
  have hclimb : fway.dropLast.length < climb specifier.toList := by
    rw [← hdepth]
    exact not_le.1 fun hle => Bool.false_ne_true (hleaves.symm.trans (staysWithin_iff.2 hle))
  have hexcess : excess baseDir f specifier = climb specifier.toList - fway.dropLast.length := by
    rw [excess, hdepth]
  have hwayTo : wayTo baseDir g = dirs ++ [(stripExtension (String.ofList n)).toList] := by
    rw [wayTo, hgsteps, Path.normalize, String.toList_ofList, hbase.stepsOf_eq, List.append_assoc,
      List.drop_left]
  have hresolves : resolveId (idOf cwd baseDir f name) specifier = idOf cwd baseDir g name ↔
      excess baseDir f specifier ≤ (Text.pieces '/' name.toList).length ∧
        descent specifier.toList =
          (Text.pieces '/' name.toList).rtake (excess baseDir f specifier) ++ wayTo baseDir g := by
    rw [resolveId_eq_idOf_iff hbase hfway hgway hname hspec, ascend_append false _ _ hclimb.le,
      ascend_false_append_eq_iff (Text.pieces_ne_nil '/' _) fun t ht => (hname t ht).2.2, hexcess,
      hwayTo]
  have hdenotes : Path.normalize (join (directory (Path.normalize f)) specifier) =
        stripExtension (Path.normalize g) ↔
      anchor (normal f.toList) = anchor (normal g.toList) ∧
        descent specifier.toList =
          (stepsOf (normal baseDir.toList)).rtake (excess baseDir f specifier) ++ wayTo baseDir g := by
    rw [← List.append_assoc] at hgway
    obtain ⟨hstripped, hanchor⟩ := rooted_stripExtension hgway hn
    rw [← String.toList_inj, toList_normalize_join, normal_below_eq_iff hfdir hstripped hspec,
    hfway.anchor_directoryChars, hanchor,
      List.append_assoc, ascend_append true _ _ hclimb.le, ascend_true_append_eq_iff, hexcess, hwayTo,
      hbase.stepsOf_eq]
  exact ⟨hresolves, hdenotes, iff_iff_of_append hresolves hdenotes⟩

/-- An import of another file, which lies beside the base directory in a directory with the name of the
package, is taken for one of a bundled file. -/
theorem resolveId_idOf_of_leaves_captured :
    isAbsolute "/lib" = true ∧ (∀ s ∈ Text.pieces '/' "pkg".toList, Ordinary s) ∧
      StrictlyUnder "/lib" "/lib/x/a.ts" ∧ StrictlyUnder "/lib" "/lib/b.d.ts" ∧
      Ordinary (stripExtension (Path.name (Path.normalize "/lib/b.d.ts"))).toList ∧
      "../../pkg/b".toList.head? = some '.' ∧
      staysWithin (depth "/lib" "/lib/x/a.ts") (Text.pieces '/' "../../pkg/b".toList) = false ∧
      Leaving "/" "/lib" "pkg" "/lib/x/a.ts" "/lib/b.d.ts" "../../pkg/b" ∧
      resolveId (idOf "/" "/lib" "/lib/x/a.ts" "pkg") "../../pkg/b" = idOf "/" "/lib" "/lib/b.d.ts" "pkg" ∧
      Path.normalize (join (directory (Path.normalize "/lib/x/a.ts")) "../../pkg/b") = "/pkg/b" := by
  have hbase : isAbsolute "/lib" = true := by decide
  have hname : ∀ s ∈ Text.pieces '/' "pkg".toList, Ordinary s := by decide
  have hf : StrictlyUnder "/lib" "/lib/x/a.ts" := ⟨by decide, by decide⟩
  have hg : StrictlyUnder "/lib" "/lib/b.d.ts" := ⟨by decide, by decide⟩
  have hstem : Ordinary (stripExtension (Path.name (Path.normalize "/lib/b.d.ts"))).toList := by decide
  have hdot : "../../pkg/b".toList.head? = some '.' := by decide
  have hleaves : staysWithin (depth "/lib" "/lib/x/a.ts")
      (Text.pieces '/' "../../pkg/b".toList) = false := by decide
  have hleaving : Leaving "/" "/lib" "pkg" "/lib/x/a.ts" "/lib/b.d.ts" "../../pkg/b" :=
    resolveId_idOf_of_leaves hbase hname hf hg hstem hdot hleaves
  exact ⟨hbase, hname, hf, hg, hstem, hdot, hleaves, hleaving,
    hleaving.resolves_iff.2 (by decide +kernel), by decide⟩

/-- An import of a bundled file by way of the name of the base directory is lost. -/
theorem not_resolveId_idOf_iff_lost :
    isAbsolute "/lib" = true ∧ (∀ s ∈ Text.pieces '/' "pkg".toList, Ordinary s) ∧
      StrictlyUnder "/lib" "/lib/a.ts" ∧ StrictlyUnder "/lib" "/lib/b.d.ts" ∧
      stripExtension (Path.name (Path.normalize "/lib/b.d.ts")) = "b" ∧
      staysWithin (depth "/lib" "/lib/a.ts") (Text.pieces '/' "../lib/b".toList) = false ∧
      ¬ (resolveId (idOf "/" "/lib" "/lib/a.ts" "pkg") "../lib/b" = idOf "/" "/lib" "/lib/b.d.ts" "pkg" ↔
        Path.normalize (join (directory (Path.normalize "/lib/a.ts")) "../lib/b") =
          stripExtension (Path.normalize "/lib/b.d.ts")) := by
  have hname : ∀ s ∈ Text.pieces '/' "pkg".toList, Ordinary s := by decide
  refine ⟨by decide, hname, ⟨by decide, by decide⟩, ⟨by decide, by decide⟩, by decide, by decide, ?_⟩
  decide

end Module

end DeclBundle
