import DeclBundle.Proofs.LeavingImport

/-!
# How a file is spelled in an import

A relative import may name a file by what the compiler makes of it, with the ending of that, or by the
directory of which it is the index file (`Spells`). An id has no ending, and the id of an index file ends
in its name. So no specifier of either kind leads to the id of the file: within the base directory it leads
to that id with the ending behind it, or to the id without its last segment (`resolveId_idOf_of_spells`).
-/

namespace DeclBundle

namespace Path

variable {base base' front rest way down : List (List Char)} {n : Nat}

/-- A row of steps where a walk over directories comes to, if the walk on top of a row of other steps
comes to the same way behind that. -/
theorem suffix_of_ascend (hne : base' ≠ []) (hup : ∀ t ∈ base', t ≠ up)
    (hrest : ascend true (base ++ front) n ++ down = base ++ rest)
    (hway : ascend false (base' ++ front) n ++ down = base' ++ way) : way <:+ rest := by
  rcases le_or_gt n front.length with hn | hn
  · rw [ascend_append_of_le _ _ _ hn, List.append_assoc, List.append_cancel_left_eq] at hrest hway
    exact hrest ▸ hway ▸ List.suffix_rfl
  · -- Both ways down first undo the climb, which takes no fewer steps of the row that is not an anchor's.
    rw [ascend_append _ _ _ hn.le, ascend_true_append_eq_iff] at hrest
    rw [ascend_append _ _ _ hn.le, ascend_false_append_eq_iff hne hup] at hway
    have heq : base'.rtake (n - front.length) ++ way = base.rtake (n - front.length) ++ rest :=
      hway.2.symm.trans hrest
    have hlength : (base.rtake (n - front.length)).length ≤ (base'.rtake (n - front.length)).length := by
      simp only [List.rtake, List.length_drop]
      omega
    have hsuffix : way <:+ base.rtake (n - front.length) ++ rest := heq ▸ List.suffix_append _ way
    refine List.suffix_of_suffix_length_le hsuffix (List.suffix_append _ rest) ?_
    have hsum := congrArg List.length heq
    rw [List.length_append, List.length_append] at hsum
    omega

end Path

namespace Module

open DeclBundle.Path

/-- The ending of what the compiler makes of a file to be run. -/
def runtimeEnding? (p : String) : Option String :=
  if hasEnding [".mts"] p then some ".mjs"
  else if hasEnding [".cts"] p then some ".cjs"
  else if hasEnding [".ts", ".tsx"] p then some ".js"
  else none

/-- A path by which a file is named in imports other than the one without its extension, and what becomes
of its id. -/
inductive Spells (g id : String) : String → String → Prop
  | runtime {ending : String} (h : runtimeEnding? (Path.normalize g) = some ending) :
      Spells g id (stripExtension (Path.normalize g) ++ ending) (id ++ ending)
  | directory (h : stripExtension (Path.name (Path.normalize g)) = "index") :
      Spells g id (Path.directory (Path.normalize g)) (Path.directory id)

variable {cwd baseDir name f g specifier id target id' : String} {steps way : List (List Char)}

theorem mem_of_runtimeEnding?_eq_some {p ending : String} (h : runtimeEnding? p = some ending) :
    ending ∈ [".mjs", ".cjs", ".js"] := by
  unfold runtimeEnding? at h
  split at h
  · cases h
    decide
  · split at h
    · cases h
      decide
    · split at h
      · cases h
        decide
      · cases h

theorem Spells.way_ne_nil (hspells : Spells g id target id') (hg : Rooted (normal g.toList) (steps ++ way))
    (hnil : way = [] → steps = []) : way ≠ [] := by
  rintro rfl
  obtain rfl := hnil rfl
  have hanchor : Path.normalize g = "/" ∨ Path.normalize g = "//" := by
    obtain ⟨-, a, rfl | rfl, hnormal⟩ := hg
    · exact .inl (congrArg String.ofList hnormal)
    · exact .inr (congrArg String.ofList hnormal)
  have hending : runtimeEnding? (Path.normalize g) = none := by
    rcases hanchor with ha | ha
    · rw [ha]
      decide
    · rw [ha]
      decide
  have hindex : stripExtension (Path.name (Path.normalize g)) ≠ "index" := by
    rw [name_of_rooted_nil hg]
    decide
  cases hspells with
  | runtime h => exact Option.some_ne_none _ (h.symm.trans hending)
  | directory h => exact hindex h

/-- The steps of such a path are the segments of what becomes of the id, and the way to the file itself
does not end them. -/
theorem Spells.exists_steps {dirs : List (List Char)} {n : List Char} {row : List (List Char)}
    (hspells : Spells g id target id') (hg : Rooted (normal g.toList) (steps ++ (dirs ++ [n])))
    (hid : id.toList = Text.join ['/'] (row ++ dirs ++ [(stripExtension (String.ofList n)).toList]))
    (hne : row ≠ []) (hrow : ∀ s ∈ row, Ordinary s ∧ '/' ∉ s) :
    ∃ rest, Rooted target.toList (steps ++ rest) ∧ id'.toList = Text.join ['/'] (row ++ rest) ∧
      ¬ dirs ++ [(stripExtension (String.ofList n)).toList] <:+ rest := by
  have hstem : '/' ∉ (stripExtension (String.ofList n)).toList :=
    not_mem_stripExtension (hg.1 n (by simp)).2
  have hdirs : ∀ s ∈ steps ++ dirs, Ordinary s ∧ '/' ∉ s := fun s hs =>
    hg.1 s (by rw [← List.append_assoc]; exact List.mem_append_left _ hs)
  cases hspells with
  | @runtime ending h =>
      have hending : 2 < ending.toList.length ∧ '/' ∉ ending.toList := by
        have hall : ∀ e ∈ [".mjs", ".cjs", ".js"], 2 < e.toList.length ∧ '/' ∉ e.toList := by decide
        exact hall ending (mem_of_runtimeEnding?_eq_some h)
      have hgdirs := hg
      rw [← List.append_assoc] at hgdirs
      refine ⟨dirs ++ [(stripExtension (String.ofList n)).toList ++ ending.toList], ?_, ?_,
        fun hsuffix => ?_⟩
      · rw [← List.append_assoc]
        exact rooted_stripExtension_ending hgdirs hending
      · rw [String.toList_append, hid, Text.join_append_append, List.append_assoc]
      · -- These are as many steps, so the way could only end them if the ending were empty.
        have hlength : (dirs ++ [(stripExtension (String.ofList n)).toList]).length =
            (dirs ++ [(stripExtension (String.ofList n)).toList ++ ending.toList]).length := by
          rw [List.length_append, List.length_append, List.length_singleton, List.length_singleton]
        have heq := hsuffix.eq_of_length hlength
        rw [List.append_cancel_left_eq, List.cons.injEq, List.self_eq_append_right] at heq
        rw [heq.1] at hending
        exact absurd hending.1 (by decide)
  | directory h =>
      refine ⟨dirs, ?_, ?_, fun hsuffix => ?_⟩
      · rw [← List.append_assoc] at hg
        exact rooted_directory_of_name hg
      · have hsegments : ∀ s ∈ row ++ dirs, s ≠ [] ∧ '/' ∉ s := by
          intro s hs
          have hs : Ordinary s ∧ '/' ∉ s := (List.mem_append.1 hs).elim (hrow s)
            fun hs => hdirs s (List.mem_append_right _ hs)
          exact ⟨hs.1.1, hs.2⟩
        rw [Path.directory, String.toList_ofList, hid]
        exact directoryChars_join (List.append_ne_nil_of_left_ne_nil hne _) hsegments hstem
      · have hlength := hsuffix.length_le
        rw [List.length_append, List.length_singleton] at hlength
        omega

/-- A specifier that names a file by its runtime ending or by its directory does not lead to its id. Within
the base directory it leads to the id with that ending, or to the directory part of the id. -/
theorem resolveId_idOf_of_spells (hb : isAbsolute baseDir = true)
    (hname : ∀ s ∈ Text.pieces '/' name.toList, Ordinary s) (hf : StrictlyUnder baseDir f)
    (hg : StrictlyUnder baseDir g) (hspells : Spells g (idOf cwd baseDir g name) target id')
    (hdot : specifier.toList.head? = some '.')
    (htarget : Path.normalize (join (Path.directory (Path.normalize f)) specifier) = target) :
    resolveId (idOf cwd baseDir f name) specifier ≠ idOf cwd baseDir g name ∧
      (staysWithin (depth baseDir f) (Text.pieces '/' specifier.toList) = true →
        resolveId (idOf cwd baseDir f name) specifier = id') := by
  have hspec : specifier.toList.head? ≠ some '/' := by
    rw [hdot]
    decide
  obtain ⟨steps, hbase⟩ := exists_rooted_of_isAbsolute hb
  obtain ⟨fway, hfway, hfnil⟩ := hf.exists_steps hbase
  obtain ⟨gway, hgway, hgnil⟩ := hg.exists_steps hbase
  have hfdir := rooted_directory hfway hfnil
  have hne : Text.pieces '/' name.toList ≠ [] := Text.pieces_ne_nil '/' _
  have hrow : ∀ s ∈ Text.pieces '/' name.toList, Ordinary s ∧ '/' ∉ s := fun s hs =>
    ⟨hname s hs, Text.not_mem_of_mem_pieces hs⟩
  rcases List.eq_nil_or_concat gway with rfl | ⟨dirs, n, rfl⟩
  · exact absurd rfl (hspells.way_ne_nil hgway hgnil)
  rw [List.concat_eq_append] at hgway
  obtain ⟨rest, hrest, hid', hnotsuffix⟩ :=
    hspells.exists_steps hgway (toList_idOf_of_name hbase hgway cwd name) hne hrow
  have hnormal : normal (below (directoryChars (normal f.toList)) specifier.toList) = target.toList := by
    rw [← htarget, toList_normalize_join]
  constructor
  · rw [Ne, resolveId_eq_idOf_iff hbase hfway hgway hname hspec]
    intro hway
    have hsame := ((normal_below_eq_iff hfdir hrest hspec).1 hnormal).2
    exact hnotsuffix (suffix_of_ascend hne (fun t ht => (hname t ht).2.2) hsame hway)
  · intro hwithin
    rw [depth_eq_length hbase hfdir] at hwithin
    have hwalk := walk_eq_of_target hfdir hspec hwithin hnormal hrest.stepsOf_eq
    have hresolved := toList_resolveId_idOf hbase hfway hname hspec hwithin cwd
    have hsegments : ∀ s ∈ Text.pieces '/' name.toList ++ rest, s ≠ [] := by
      intro s hs
      rcases List.mem_append.1 hs with hs | hs
      · exact (hname s hs).1
      · exact (hrest.1 s (List.mem_append_right _ hs)).1.1
    rw [hwalk, write_nil_of_forall (List.append_ne_nil_of_left_ne_nil hne _) hsegments] at hresolved
    exact String.toList_injective (hresolved.trans hid'.symm)

/-- An import of a directory for its index file. -/
theorem resolveId_idOf_of_spells_directory :
    isAbsolute "/lib" = true ∧ (∀ s ∈ Text.pieces '/' "pkg".toList, Ordinary s) ∧
      StrictlyUnder "/lib" "/lib/x/a.ts" ∧ StrictlyUnder "/lib" "/lib/y/index.d.ts" ∧
      Spells "/lib/y/index.d.ts" (idOf "/" "/lib" "/lib/y/index.d.ts" "pkg") "/lib/y" "pkg/y" ∧
      "../y/".toList.head? = some '.' ∧
      Path.normalize (join (Path.directory (Path.normalize "/lib/x/a.ts")) "../y/") = "/lib/y" ∧
      resolveId (idOf "/" "/lib" "/lib/x/a.ts" "pkg") "../y/" ≠
        idOf "/" "/lib" "/lib/y/index.d.ts" "pkg" ∧
      staysWithin (depth "/lib" "/lib/x/a.ts") (Text.pieces '/' "../y/".toList) = true ∧
      resolveId (idOf "/" "/lib" "/lib/x/a.ts" "pkg") "../y/" = "pkg/y" := by
  have hbase : isAbsolute "/lib" = true := by decide
  have hname : ∀ s ∈ Text.pieces '/' "pkg".toList, Ordinary s := by decide
  have hf : StrictlyUnder "/lib" "/lib/x/a.ts" := ⟨by decide, by decide⟩
  have hg : StrictlyUnder "/lib" "/lib/y/index.d.ts" := ⟨by decide, by decide⟩
  have hspells : Spells "/lib/y/index.d.ts" (idOf "/" "/lib" "/lib/y/index.d.ts" "pkg") "/lib/y"
      "pkg/y" := .directory (by decide)
  have hdot : "../y/".toList.head? = some '.' := by decide
  have htarget : Path.normalize (join (Path.directory (Path.normalize "/lib/x/a.ts")) "../y/") =
      "/lib/y" := by decide
  have hwithin : staysWithin (depth "/lib" "/lib/x/a.ts")
      (Text.pieces '/' "../y/".toList) = true := by decide
  have hmisses := resolveId_idOf_of_spells hbase hname hf hg hspells hdot htarget
  exact ⟨hbase, hname, hf, hg, hspells, hdot, htarget, hmisses.1, hwithin, hmisses.2 hwithin⟩

/-- An import that names a module by its runtime ending, as one has to in a file of the same kind. -/
theorem not_resolveId_idOf_runtime :
    StrictlyUnder "/lib" "/lib/a.mts" ∧ StrictlyUnder "/lib" "/lib/b.d.mts" ∧
      runtimeEnding? "/lib/b.d.mts" = some ".mjs" ∧
      Path.normalize (join (Path.directory (Path.normalize "/lib/a.mts")) "./b.mjs") =
        stripExtension (Path.normalize "/lib/b.d.mts") ++ ".mjs" ∧
      resolveId (idOf "/" "/lib" "/lib/a.mts" "pkg") "./b.mjs" = "pkg/b.mjs" ∧
      idOf "/" "/lib" "/lib/b.d.mts" "pkg" = "pkg/b" ∧
      ¬ resolveId (idOf "/" "/lib" "/lib/a.mts" "pkg") "./b.mjs" =
        idOf "/" "/lib" "/lib/b.d.mts" "pkg" := by
  refine ⟨⟨by decide, by decide⟩, ⟨by decide, by decide⟩, by decide, by decide, by decide, by decide, ?_⟩
  decide

end Module

end DeclBundle
