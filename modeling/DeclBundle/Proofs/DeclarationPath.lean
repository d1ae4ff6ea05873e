import DeclBundle.Compiler.Report
import DeclBundle.Proofs.RelativeImport

/-!
# Paths of declarations

The declarations of a file have its path with another ending (`exists_declarationPath_eq`), and that ending
is what is dropped again of their path (`stripExtension_append`). So they belong to the same module as the
file (`idOf_declarationPath`). The files that the compiler lists have normal paths (`Report.rooted_of_read`).
-/

namespace DeclBundle

namespace Text

/-- A text with one ending has no other, unless one of the two ends with the other. -/
theorem before?_append_of_not_suffix {e e' : List Char} (h : ¬ e <:+ e') (h' : ¬ e' <:+ e)
    (s : List Char) : before? e (s ++ e') = none := by
  rw [Option.eq_none_iff_forall_ne_some]
  intro t ht
  have heq : s ++ e' = t ++ e := before?_eq_some_iff.1 ht
  have hboth := List.suffix_or_suffix_of_suffix (List.suffix_append s e') (heq ▸ List.suffix_append t e)
  exact hboth.elim h' h

end Text

namespace Module

open DeclBundle.Path

variable {cwd baseDir name p : String} {steps dirs : List (List Char)} {n : List Char}

theorem exists_of_beforeEnding?_eq_some {endings : List String} {q : String}
    (h : beforeEnding? endings p = some q) : ∃ e ∈ endings, p = q ++ e := by
  obtain ⟨e, he, hq⟩ := List.exists_of_findSome?_eq_some h
  obtain ⟨u, hu, rfl⟩ := Option.map_eq_some_iff.1 hq
  refine ⟨e, he, String.toList_injective ?_⟩
  rw [Text.before?_eq_some_iff.1 hu, String.toList_append, String.toList_ofList]

/-- The first of some endings that a path may have is the one that it has. -/
theorem beforeEnding?_append {before : List String} (behind : List String) {e : String}
    (h : ∀ e' ∈ before, ¬ e'.toList <:+ e.toList ∧ ¬ e.toList <:+ e'.toList) (s : String) :
    beforeEnding? (before ++ e :: behind) (s ++ e) = some s := by
  induction before with
  | nil => simp [beforeEnding?, Text.before?_eq_some_iff.2]
  | cons e' before ih =>
      obtain ⟨he, hbefore⟩ := List.forall_mem_cons.1 h
      have hnone := Text.before?_append_of_not_suffix he.1 he.2 s.toList
      have hrest := ih hbefore
      simp only [beforeEnding?, String.toList_append] at hrest ⊢
      rw [List.cons_append, List.findSome?_cons, hnone]
      exact hrest

theorem isDeclaration_eq_isSome (p : String) :
    isDeclaration p = (beforeEnding? declarationEndings p).isSome := by
  rw [isDeclaration, hasEnding, beforeEnding?, List.isSome_findSome?]
  simp only [Option.isSome_map]

/-- A declaration file loses the ending of one, any other file the ending of a source or its extension. -/
theorem stripExtension_eq (p : String) : stripExtension p =
    (beforeEnding? declarationEndings p).getD ((beforeEnding? sourceEndings p).getD (stem p)) := by
  rw [stripExtension, beforeEnding?, List.findSome?_append]
  cases h : beforeEnding? declarationEndings p with
  | some q =>
      rw [beforeEnding?] at h
      rw [h]
      rfl
  | none =>
      rw [beforeEnding?] at h
      rw [h]
      rfl

/-- Of endings of which none ends with another, a path has the one that it was given. -/
theorem beforeEnding?_append_of_mem {endings : List String}
    (h : endings.Pairwise fun e' e => ¬ e'.toList <:+ e.toList ∧ ¬ e.toList <:+ e'.toList) {e : String}
    (he : e ∈ endings) (s : String) : beforeEnding? endings (s ++ e) = some s := by
  obtain ⟨before, behind, rfl⟩ := List.append_of_mem he
  rw [List.pairwise_append] at h
  exact beforeEnding?_append behind (fun e' he' => h.2.2 e' he' e List.mem_cons_self) s

/-- A path has none of the endings that neither end with its own nor are its end. -/
theorem beforeEnding?_append_eq_none {endings : List String} {e : String}
    (h : ∀ e' ∈ endings, ¬ e'.toList <:+ e.toList ∧ ¬ e.toList <:+ e'.toList) (s : String) :
    beforeEnding? endings (s ++ e) = none := by
  refine List.findSome?_eq_none_iff.2 fun e' he' => ?_
  rw [String.toList_append, Text.before?_append_of_not_suffix (h e' he').1 (h e' he').2]
  rfl

theorem stripExtension_append {e : String} (he : e ∈ declarationEndings) (s : String) :
    stripExtension (s ++ e) = s := by
  rw [stripExtension_eq, beforeEnding?_append_of_mem (by decide) he, Option.getD_some]

theorem beforeEnding?_sourceEndings {e : String} (he : e ∈ sourceEndings) (s : String) :
    beforeEnding? sourceEndings (s ++ e) = some s := beforeEnding?_append_of_mem (by decide) he s

theorem stripExtension_source {e : String} (he : e ∈ sourceEndings) {s : String}
    (h : isDeclaration (s ++ e) = false) : stripExtension (s ++ e) = s := by
  rw [isDeclaration_eq_isSome, Option.isSome_eq_false_iff, Option.isNone_iff_eq_none] at h
  rw [stripExtension_eq, h, beforeEnding?_sourceEndings he]
  rfl

/-- The endings of source files, with those of their declarations. -/
def sourceDeclarations : List (String × String) :=
  [(".ts", ".d.ts"), (".tsx", ".d.ts"), (".mts", ".d.mts"), (".cts", ".d.cts")]

theorem declarationPath_append {s e d : String} (hed : (e, d) ∈ sourceDeclarations)
    (h : isDeclaration (s ++ e) = false) : declarationPath (s ++ e) = s ++ d := by
  have hnone : ∀ e e' : String, ¬ e'.toList <:+ e.toList ∧ ¬ e.toList <:+ e'.toList →
      beforeEnding? [e'] (s ++ e) = none := fun e e' hsuffix =>
    beforeEnding?_append_eq_none (List.forall_mem_singleton.2 hsuffix) s
  have hsome : ∀ e, beforeEnding? [e] (s ++ e) = some s := fun e =>
    beforeEnding?_append [] (List.forall_mem_nil _) s
  simp only [sourceDeclarations, List.mem_cons, List.not_mem_nil, or_false, Prod.mk.injEq] at hed
  rw [declarationPath, h, if_neg Bool.false_ne_true]
  obtain ⟨rfl, rfl⟩ | ⟨rfl, rfl⟩ | ⟨rfl, rfl⟩ | ⟨rfl, rfl⟩ := hed
  · rw [hnone ".ts" ".mts" (by decide), hnone ".ts" ".cts" (by decide),
      stripExtension_source (by decide) h]
  · rw [hnone ".tsx" ".mts" (by decide), hnone ".tsx" ".cts" (by decide),
      stripExtension_source (by decide) h]
  · rw [hsome ".mts"]
  · rw [hnone ".cts" ".mts" (by decide), hsome ".cts"]

/-- The path of the declarations of a file is that of the file with the ending of a declaration file. -/
theorem exists_declarationPath_eq (p : String) :
    ∃ e ∈ declarationEndings, declarationPath p = stripExtension p ++ e := by
  rw [declarationPath, stripExtension_eq]
  cases hdecl : isDeclaration p with
  | true =>
      rw [isDeclaration_eq_isSome] at hdecl
      obtain ⟨q, hq⟩ := Option.isSome_iff_exists.1 hdecl
      obtain ⟨e, he, hp⟩ := exists_of_beforeEnding?_eq_some hq
      refine ⟨e, he, ?_⟩
      rw [if_pos rfl, hq, Option.getD_some]
      exact hp
  | false =>
      rw [isDeclaration_eq_isSome, Option.isSome_eq_false_iff, Option.isNone_iff_eq_none] at hdecl
      rw [if_neg Bool.false_ne_true, hdecl, Option.getD_none]
      split
      · next q hq =>
          obtain ⟨e, he, rfl⟩ := exists_of_beforeEnding?_eq_some hq
          obtain rfl := List.mem_singleton.1 he
          exact ⟨".d.mts", by decide, by rw [beforeEnding?_sourceEndings (by decide), Option.getD_some]⟩
      · next q _ hq =>
          obtain ⟨e, he, rfl⟩ := exists_of_beforeEnding?_eq_some hq
          obtain rfl := List.mem_singleton.1 he
          exact ⟨".d.cts", by decide, by rw [beforeEnding?_sourceEndings (by decide), Option.getD_some]⟩
      · exact ⟨".d.ts", by decide, rfl⟩

theorem isDeclaration_append {e : String} (he : e ∈ declarationEndings) (s : String) :
    isDeclaration (s ++ e) = true := by
  rw [isDeclaration_eq_isSome, beforeEnding?_append_of_mem (by decide) he, Option.isSome_some]

theorem isDeclaration_declarationPath (p : String) : isDeclaration (declarationPath p) = true := by
  obtain ⟨e, he, hpath⟩ := exists_declarationPath_eq p
  rw [hpath, isDeclaration_append he]

theorem declarationPath_of_isDeclaration {p : String} (h : isDeclaration p = true) :
    declarationPath p = p := by
  rw [declarationPath, if_pos h]

theorem stripExtension_declarationPath (p : String) :
    stripExtension (declarationPath p) = stripExtension p := by
  obtain ⟨e, he, hpath⟩ := exists_declarationPath_eq p
  rw [hpath, stripExtension_append he]

/-- The declarations of a normal file are where it is, under its name with another ending. -/
theorem rooted_declarationPath_append (hp : Rooted (normal p.toList) (steps ++ [n]))
    (hnormal : Path.normalize p = p) : ∃ e ∈ declarationEndings, Rooted (declarationPath p).toList
      (steps ++ [(stripExtension (String.ofList n)).toList ++ e.toList]) := by
  obtain ⟨e, he, hpath⟩ := exists_declarationPath_eq p
  have hending : 2 < e.toList.length ∧ '/' ∉ e.toList := by
    have hall : ∀ e ∈ declarationEndings, 2 < e.toList.length ∧ '/' ∉ e.toList := by decide
    exact hall e he
  have hrooted := rooted_stripExtension_ending hp hending
  rw [hnormal, ← hpath] at hrooted
  exact ⟨e, he, hrooted⟩

theorem rooted_declarationPath (hp : Rooted (normal p.toList) (steps ++ [n]))
    (hnormal : Path.normalize p = p) :
    ∃ n', Rooted (declarationPath p).toList (steps ++ [n']) ∧
      stripExtension (String.ofList n') = stripExtension (String.ofList n) := by
  obtain ⟨e, he, hrooted⟩ := rooted_declarationPath_append hp hnormal
  refine ⟨_, hrooted, ?_⟩
  have hname : String.ofList ((stripExtension (String.ofList n)).toList ++ e.toList) =
      stripExtension (String.ofList n) ++ e := by
    rw [← String.toList_append, String.ofList_toList]
  rw [hname, stripExtension_append he]

theorem normalize_declarationPath (hp : Rooted (normal p.toList) (steps ++ [n]))
    (hnormal : Path.normalize p = p) : Path.normalize (declarationPath p) = declarationPath p := by
  obtain ⟨n', hrooted, -⟩ := rooted_declarationPath hp hnormal
  exact hrooted.normalize_eq

theorem idOf_declarationPath (hb : Rooted (normal baseDir.toList) steps)
    (hp : Rooted (normal p.toList) (steps ++ (dirs ++ [n]))) (hnormal : Path.normalize p = p)
    (cwd name : String) :
    idOf cwd baseDir (declarationPath p) name = idOf cwd baseDir p name := by
  have hpdirs := hp
  rw [← List.append_assoc] at hpdirs
  obtain ⟨n', hrooted, hstem⟩ := rooted_declarationPath hpdirs hnormal
  rw [← hrooted.normal_eq, List.append_assoc] at hrooted
  rw [← String.toList_inj, toList_idOf_of_name hb hrooted, toList_idOf_of_name hb hp, hstem]

end Module

namespace Report

theorem exists_of_ofChars_eq_file {s path : List Char} (h : ReportLine.ofChars s = .file path) :
    ∃ cs, path = '/' :: cs := by
  unfold ReportLine.ofChars at h
  split at h
  · cases h
  · split at h
    · cases h
    · split at h
      · cases h
      · split at h
        · cases h
        · cases h
        · split at h
          · next habsolute =>
              cases h
              unfold ReportLine.isAbsolute at habsolute
              split at habsolute
              · next cs hcs => exact ⟨cs, hcs⟩
              · cases habsolute
          · cases h

/-- A line adds at most one file, and that has a normal absolute path. -/
theorem rooted_of_add {cwd : String} {r r' : Report} {l : List Char}
    (h : r.add cwd (ReportLine.ofChars l) = .ok r') {f : String} (hf : f ∈ r'.files) :
    f ∈ r.files ∨ ∃ steps, Path.Rooted f.toList steps := by
  cases hline : ReportLine.ofChars l with
  | file path =>
      obtain ⟨cs, rfl⟩ := exists_of_ofChars_eq_file hline
      rw [hline, add] at h
      obtain rfl := Except.ok.inj h
      rcases List.mem_append.1 hf with hf | hf
      · exact .inl hf
      · obtain rfl := List.mem_singleton.1 hf
        rw [Path.normalize, String.toList_ofList, String.toList_ofList]
        exact .inr ⟨_, Path.rooted_normal cs⟩
  | located file position heading =>
      rw [hline] at h
      simp only [add, bind, Except.bind, pure, Except.pure] at h
      split at h
      · cases h
      · split at h
        · cases h
        · split at h
          · cases h
          · cases h
            exact .inl hf
  | general heading =>
      rw [hline] at h
      simp only [add, bind, Except.bind, pure, Except.pure] at h
      split at h
      · cases h
      · cases h
        exact .inl hf
  | blank =>
      rw [hline] at h
      cases h
      exact .inl hf
  | more text =>
      rw [hline] at h
      cases h
      exact .inl hf
  | noise text =>
      rw [hline] at h
      cases h
      exact .inl hf

theorem rooted_of_addAll (cwd : String) (ls : List (List Char)) {r : Report}
    (hr : ∀ f ∈ r.files, ∃ steps, Path.Rooted f.toList steps) :
    ∀ f ∈ (addAll cwd r ls).1.files, ∃ steps, Path.Rooted f.toList steps := by
  induction ls generalizing r with
  | nil => exact hr
  | cons l ls ih =>
      rw [addAll]
      cases hadd : r.add cwd (ReportLine.ofChars l) with
      | error e => exact hr
      | ok r' => exact ih fun f hf => (rooted_of_add hadd hf).elim (hr f) id

theorem rooted_of_read {cwd text : String} {r : Report} {bad : Option BadValue}
    (h : read cwd text = (r, bad)) {f : String} (hf : f ∈ r.files) :
    ∃ steps, Path.Rooted f.toList steps := by
  have hfiles := rooted_of_addAll cwd (Text.lines text.toList) (r := empty)
    (List.forall_mem_nil _)
  rw [← read, h] at hfiles
  exact hfiles f hf

end Report

end DeclBundle
