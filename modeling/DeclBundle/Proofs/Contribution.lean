import DeclBundle.Proofs.Told

/-!
# Contributions

What a file adds to the text of a bundle is a function of its path and its declarations alone
(`contribution`). A bundle that succeeds is its opening, the contributions of the files of the
program in their order, and its closing, so that another order of the files is another order of the
contributions, and files that are left out can be taken away without a change
(`bundle_concatenated`).
-/

namespace DeclBundle

namespace Diagnostic

theorem foldl_distinct_ne_nil (ds : List Diagnostic) {seen : List Diagnostic} (h : seen ≠ []) :
    ds.foldl (fun seen d => if d ∈ seen then seen else seen ++ [d]) seen ≠ [] := by
  induction ds generalizing seen with
  | nil => exact h
  | cons d ds ih =>
      rw [List.foldl_cons]
      split
      · exact ih h
      · exact ih (by simp)

theorem isEmpty_distinct (ds : List Diagnostic) : (distinct ds).isEmpty = ds.isEmpty := by
  cases ds with
  | nil => rfl
  | cons d ds =>
      rw [distinct, List.foldl_cons, if_neg List.not_mem_nil, List.nil_append, List.isEmpty_cons,
        List.isEmpty_eq_false_iff]
      exact foldl_distinct_ne_nil ds (List.cons_ne_nil d [])

end Diagnostic

theorem join_map_filter {α : Type} {f : α → String} {keep : α → Bool} {xs : List α}
    (h : ∀ x ∈ xs, keep x = false → f x = "") :
    String.join ((xs.filter keep).map f) = String.join (xs.map f) := by
  induction xs with
  | nil => rfl
  | cons x xs ih =>
      have hrest := ih fun y hy => h y (List.mem_cons_of_mem x hy)
      cases hk : keep x with
      | true =>
          rw [List.filter_cons_of_pos hk, List.map_cons, List.map_cons, String.join_cons,
            String.join_cons, hrest]
      | false =>
          rw [List.filter_cons_of_neg (by simp [hk]), List.map_cons, String.join_cons, hrest,
            h x List.mem_cons_self hk, String.empty_append]

namespace Assembly

variable (a : Assembly)

/-- The declarations of a file: what stands in a declaration file, and what the compiler made of any
other. -/
def declarations? (fs : FileSystem) (p : Program) (path : String) : Option String :=
  if Module.isDeclaration path then (sourceText fs a.cwd path).toOption
  else p.declarations.lookup (Path.normalize path)

def declaredPath (path : String) : String :=
  if Module.isDeclaration path then Path.normalize path else Module.declarationPath path

def isBundled (path : String) : Bool := a.isInside path && !a.isExcluded path

/-- What a file with some declarations adds to the text of a bundle. -/
def contribution (path : String) (text? : Option String) : String :=
  if a.isBundled path then
    match text?.bind fun text => ParsedFile.ofCst? (declaredPath path) text (a.tree text) with
    | some f => (a.emission f).text
    | none => ""
  else ""

/-- What a file with some declarations and diagnostics may add to a bundle that succeeds. -/
inductive Contributes (path : String) : Option String → List Diagnostic → String → Prop
  | outside {text? : Option String} {ds : List Diagnostic} (h : a.isInside path = false) :
      Contributes path text? ds ""
  | excluded {text? : Option String} {ds : List Diagnostic} (hin : a.isInside path = true)
      (h : a.isExcluded path = true) : Contributes path text? ds ""
  | silent (hin : a.isInside path = true) (hex : a.isExcluded path = false)
      (hdecl : Module.isDeclaration path = false)
      (h : Module.isTypeScript (Path.normalize path) = false) : Contributes path none [] ""
  | emitted {text : String} {ds : List Diagnostic} {f : ParsedFile}
      (hin : a.isInside path = true) (hex : a.isExcluded path = false)
      (hds : Module.isDeclaration path = true ∨ ds = [])
      (hf : ParsedFile.ofCst? (declaredPath path) text (a.tree text) = some f)
      (h : (a.emission f).failure = none) : Contributes path (some text) ds (a.emission f).text

def opening : String :=
  a.banner.text ++ String.join (a.externs.map fun path => (a.reference path).text)

def closing : String :=
  match a.main with
  | none => ""
  | some m =>
    a.eol ++ "declare module '" ++ a.name ++ "' \x7b" ++ a.eol ++ a.indent.getD "" ++
      "export * from '" ++ m ++ "';" ++ a.eol ++ "\x7d" ++ a.eol

def idOf (path : String) : String := Module.idOf a.cwd a.baseDir (Path.normalize path) a.name

def notice (path : String) : String :=
  if a.isExcluded path then "Excluding " ++ a.belowBase path else "Processing " ++ path

def aliases : List String :=
  match a.main with
  | none => []
  | some m => ["Aliased main module " ++ a.name ++ " to " ++ m]

theorem contribution_of_not_isBundled {path : String} (h : a.isBundled path = false)
    (text? : Option String) : a.contribution path text? = "" := by
  rw [contribution, h, if_neg Bool.false_ne_true]

theorem contribution_of_some {path text : String} {f : ParsedFile} (hin : a.isInside path = true)
    (hex : a.isExcluded path = false)
    (hf : ParsedFile.ofCst? (declaredPath path) text (a.tree text) = some f) :
    a.contribution path (some text) = (a.emission f).text := by
  simp [contribution, isBundled, hin, hex, hf]

theorem parsed_of_ok {path text : String} (h : (a.parsed path text).failure = none) :
    ∃ f, ParsedFile.ofCst? path text (a.tree text) = some f ∧ (a.emission f).failure = none ∧
      (a.parsed path text).text = (a.emission f).text := by
  unfold parsed at h ⊢
  split at h
  · simp [Fragment.ofFailure] at h
  · next f hf =>
      obtain ⟨htold, hemission⟩ := Fragment.followedBy_failure_eq_none_iff.1 h
      refine ⟨f, hf, hemission, ?_⟩
      rw [Fragment.followedBy_of_ok htold]
      exact String.empty_append

theorem failed_of_ok {path : String} {ds : List Diagnostic} (h : (failed path ds).failure = none) :
    ds.isEmpty = true ∧ Module.isTypeScript path = false ∧ (failed path ds).text = "" := by
  unfold failed at h ⊢
  split at h
  · next hquiet =>
      rw [Bool.and_eq_true, Bool.not_eq_true'] at hquiet
      rw [hquiet.1, hquiet.2]
      exact ⟨rfl, rfl, rfl⟩
  · exact absurd h (by simp)

/-- A declaration file that does not fail adds what is written of its own text. -/
theorem declared_of_ok {fs : FileSystem} {path : String} (h : (a.declared fs path).failure = none) :
    ∃ text f, (sourceText fs a.cwd path).toOption = some text ∧
      ParsedFile.ofCst? (Path.normalize path) text (a.tree text) = some f ∧
      (a.emission f).failure = none ∧ (a.declared fs path).text = (a.emission f).text := by
  unfold declared at h ⊢
  split at h
  · simp [Fragment.ofFailure] at h
  · next text htext =>
      obtain ⟨f, hf, hok, hemission⟩ := a.parsed_of_ok h
      rw [htext]
      exact ⟨text, f, rfl, hf, hok, hemission⟩

theorem compiled_of_some {p : Program} {path text : String}
    (h : p.declarations.lookup (Path.normalize path) = some text)
    (hds : p.diagnosticsOf path = []) :
    a.compiled p path = a.parsed (Module.declarationPath path) text := by
  simp [compiled, Program.emitted, h, hds]

theorem compiled_of_failed {p : Program} {path : String}
    (h : p.declarations.lookup (Path.normalize path) = none ∨ p.diagnosticsOf path ≠ []) :
    a.compiled p path = failed (Path.normalize path)
      (Diagnostic.distinct (p.diagnosticsOf path ++ p.diagnosticsOf path)) := by
  cases htext : p.declarations.lookup (Path.normalize path) with
  | none => simp [compiled, Program.emitted, htext]
  | some text =>
      have hds : p.diagnosticsOf path ≠ [] := h.resolve_left (by simp [htext])
      simp [compiled, Program.emitted, htext, hds]

/-- Any other file that does not fail adds what is written of its declarations, or has none, and
then nothing is said about it and it is not written in TypeScript. -/
theorem compiled_of_ok {p : Program} {path : String} (h : (a.compiled p path).failure = none) :
    p.diagnosticsOf path = [] ∧
      ((∃ text f, p.declarations.lookup (Path.normalize path) = some text ∧
        ParsedFile.ofCst? (Module.declarationPath path) text (a.tree text) = some f ∧
        (a.emission f).failure = none ∧ (a.compiled p path).text = (a.emission f).text) ∨
      (p.declarations.lookup (Path.normalize path) = none ∧
        Module.isTypeScript (Path.normalize path) = false ∧ (a.compiled p path).text = "")) := by
  have hds : p.diagnosticsOf path = [] := by
    refine Decidable.byContradiction fun hne => ?_
    rw [a.compiled_of_failed (Or.inr hne)] at h
    have hempty := (failed_of_ok h).1
    rw [Diagnostic.isEmpty_distinct, List.isEmpty_iff, List.append_eq_nil_iff] at hempty
    exact hne hempty.1
  refine ⟨hds, ?_⟩
  cases htext : p.declarations.lookup (Path.normalize path) with
  | none =>
      rw [a.compiled_of_failed (Or.inl htext)] at h ⊢
      obtain ⟨-, hts, hempty⟩ := failed_of_ok h
      exact Or.inr ⟨rfl, hts, hempty⟩
  | some text =>
      rw [a.compiled_of_some htext hds] at h ⊢
      obtain ⟨f, hf, hok, hemission⟩ := a.parsed_of_ok h
      exact Or.inl ⟨text, f, rfl, hf, hok, hemission⟩

def Adds (fs : FileSystem) (p : Program) (path text : String) : Prop :=
  text = a.contribution path (a.declarations? fs p path) ∧
    a.Contributes path (a.declarations? fs p path) (p.diagnosticsOf path)
      (a.contribution path (a.declarations? fs p path))

theorem adds_of_declared {fs : FileSystem} (p : Program) {path : String}
    (hin : a.isInside path = true) (hex : a.isExcluded path = false)
    (hdecl : Module.isDeclaration path = true) (h : (a.declared fs path).failure = none) :
    a.Adds fs p path (a.declared fs path).text := by
  obtain ⟨text, f, htext, hf, hok, hemission⟩ := a.declared_of_ok h
  have hpath : declaredPath path = Path.normalize path := by simp [declaredPath, hdecl]
  rw [← hpath] at hf
  have hgiven : a.declarations? fs p path = some text := by
    rw [declarations?, hdecl, if_pos rfl, htext]
  rw [Adds, hgiven, a.contribution_of_some hin hex hf, hemission]
  exact ⟨rfl, .emitted hin hex (Or.inl hdecl) hf hok⟩

theorem adds_of_compiled (fs : FileSystem) {p : Program} {path : String}
    (hin : a.isInside path = true) (hex : a.isExcluded path = false)
    (hdecl : Module.isDeclaration path = false) (h : (a.compiled p path).failure = none) :
    a.Adds fs p path (a.compiled p path).text := by
  have hgiven : a.declarations? fs p path = p.declarations.lookup (Path.normalize path) := by
    rw [declarations?, hdecl, if_neg Bool.false_ne_true]
  have hpath : declaredPath path = Module.declarationPath path := by simp [declaredPath, hdecl]
  obtain ⟨hds, ⟨text, f, htext, hf, hok, hemission⟩ | ⟨htext, hts, hempty⟩⟩ := a.compiled_of_ok h
  · rw [← hpath] at hf
    rw [Adds, hgiven, htext, a.contribution_of_some hin hex hf, hemission]
    exact ⟨rfl, .emitted hin hex (Or.inr hds) hf hok⟩
  · have hnone : a.contribution path none = "" := by simp [contribution]
    rw [Adds, hgiven, htext, hds, hnone, hempty]
    exact ⟨rfl, .silent hin hex hdecl hts⟩

theorem adds_of_fragment {fs : FileSystem} {p : Program} {path : String}
    (h : (a.fragment fs p path).failure = none) :
    a.Adds fs p path (a.fragment fs p path).text := by
  cases hin : a.isInside path with
  | false =>
      rw [Adds, a.contribution_of_not_isBundled (by simp [isBundled, hin]),
        a.fragment_of_outside hin]
      exact ⟨rfl, .outside hin⟩
  | true =>
      cases hex : a.isExcluded path with
      | true =>
          rw [Adds, a.contribution_of_not_isBundled (by simp [isBundled, hex]),
            a.fragment_of_excluded hin hex]
          exact ⟨rfl, .excluded hin hex⟩
      | false =>
          -- Behind its message such a file adds the fragment of its declarations.
          have hfragment := a.fragment_of_inside hin hex fs p
          rw [Fragment.followedBy_of_ok rfl] at hfragment
          rw [hfragment] at h ⊢
          have htext : ∀ s : String, (Fragment.ofEvents (a.fate path)).text ++ s = s :=
            fun _ => String.empty_append
          rw [htext]
          cases hdecl : Module.isDeclaration path with
          | true =>
              simp only [hdecl, if_true] at h ⊢
              exact a.adds_of_declared p hin hex hdecl h
          | false =>
              simp only [hdecl, Bool.false_eq_true, if_false] at h ⊢
              exact a.adds_of_compiled fs hin hex hdecl h

theorem mainBlock_of_ok (h : a.mainBlock.failure = none) :
    a.mainBlock.text = a.closing ∧ a.mainBlock.told Event.message? = a.aliases ∧
      a.mainBlock.told Event.exclusion? = [] := by
  unfold mainBlock at h ⊢
  unfold closing aliases
  cases hmain : a.main with
  | none => exact ⟨rfl, rfl, rfl⟩
  | some m =>
      rw [hmain] at h
      cases hindent : a.indent with
      | none => simp [hindent] at h
      | some i => exact ⟨rfl, rfl, rfl⟩

theorem bundle_failure_eq_none_iff (fs : FileSystem) (p : Program) :
    (a.bundle fs p).failure = none ↔
      (∀ path ∈ p.files, (a.fragment fs p path).failure = none) ∧ a.mainBlock.failure = none := by
  have hbanner : a.banner.failure = none := rfl
  have hreferences : ∀ path ∈ a.externs, (a.reference path).failure = none := fun _ _ => rfl
  rw [bundle, Fragment.followedBy_failure_eq_none_iff, Fragment.followedBy_failure_eq_none_iff,
    Fragment.followedBy_failure_eq_none_iff, Fragment.chain_failure_eq_none_iff,
    Fragment.chain_failure_eq_none_iff]
  exact ⟨fun h => h.2.2, fun h => ⟨hbanner, hreferences, h⟩⟩

/-- The text of a bundle that succeeds, the files of the program being given apart. -/
theorem text_bundle {fs : FileSystem} {p : Program} (files : List String)
    (h : (a.bundle fs { p with files := files }).failure = none) :
    (a.bundle fs { p with files := files }).text =
      a.opening ++ String.join (files.map fun f => a.contribution f (a.declarations? fs p f)) ++
        a.closing := by
  obtain ⟨hfiles, hmain⟩ := (a.bundle_failure_eq_none_iff fs _).1 h
  have htexts : files.map (fun f => (a.fragment fs { p with files := files } f).text) =
      files.map fun f => a.contribution f (a.declarations? fs p f) :=
    List.map_congr_left fun f hf => (a.adds_of_fragment (hfiles f hf)).1
  have hreferences : ∀ path ∈ a.externs, (a.reference path).failure = none := fun _ _ => rfl
  rw [bundle, Fragment.followedBy_of_ok rfl, Fragment.chain_of_ok a.reference a.externs hreferences,
    Fragment.chain_of_ok (a.fragment fs _) files hfiles, htexts, Fragment.followedBy_of_ok rfl,
    Fragment.followedBy_of_ok rfl]
  simp only [opening, (a.mainBlock_of_ok hmain).1, String.append_assoc]

/-- What a bundle that succeeds tells a reading that passes over the journal. -/
theorem told_bundle {read : Event → Option String}
    (hread : ∀ level text, read (.entry level text) = none) {fs : FileSystem} {p : Program}
    (h : (a.bundle fs p).failure = none) :
    (a.bundle fs p).told read =
      (a.externs.flatMap fun path => (a.reference path).told read) ++
        ((p.files.filter a.isInside).flatMap fun f => (a.fate f).filterMap read) ++
        a.mainBlock.told read := by
  obtain ⟨hfiles, hmain⟩ := (a.bundle_failure_eq_none_iff fs p).1 h
  have hreferences : ∀ path ∈ a.externs, (a.reference path).failure = none := fun _ _ => rfl
  have hchain := (Fragment.chain_failure_eq_none_iff a.reference a.externs).2 hreferences
  have hfragments := (Fragment.chain_failure_eq_none_iff (a.fragment fs p) p.files).2 hfiles
  have hbanner : a.banner.told read = [] := rfl
  rw [bundle, Fragment.told_followedBy read rfl, Fragment.told_followedBy read hchain,
    Fragment.told_followedBy read hfragments, Fragment.told_chain read _ hreferences,
    Fragment.told_chain read _ hfiles, a.flatMap_told_fragment hread, hbanner, List.nil_append,
    ← List.append_assoc]

/-- What a bundle that succeeds is made of. -/
structure Concatenated (fs : FileSystem) (p : Program) : Prop where
  text : (a.bundle fs p).text =
    a.opening ++ String.join (p.files.map fun f => a.contribution f (a.declarations? fs p f)) ++
      a.closing
  contributes : ∀ f ∈ p.files, a.Contributes f (a.declarations? fs p f) (p.diagnosticsOf f)
    (a.contribution f (a.declarations? fs p f))
  permuted : ∀ files, files.Perm p.files →
    (a.bundle fs { p with files := files }).failure = none ∧
      (a.bundle fs { p with files := files }).text =
        a.opening ++ String.join (files.map fun f => a.contribution f (a.declarations? fs p f)) ++
          a.closing
  kept : ∀ files, files.filter a.isBundled = p.files.filter a.isBundled →
    (a.bundle fs { p with files := files }).failure = none ∧
      (a.bundle fs { p with files := files }).text = (a.bundle fs p).text
  messages : (a.bundle fs p).told Event.message? =
    (a.externs.map fun path => "Writing external dependency " ++ path) ++
      (p.files.filter a.isInside).map a.notice ++ a.aliases
  excluded : Bundler.excludedIds (a.bundle fs p).events =
    ((p.files.filter fun f => a.isInside f && a.isExcluded f).map a.idOf).eraseDups

theorem fragment_ok_of_not_isBundled {f : String} (h : a.isBundled f = false) (fs : FileSystem)
    (p : Program) : (a.fragment fs p f).failure = none := by
  cases hin : a.isInside f with
  | false =>
      rw [a.fragment_of_outside hin]
      rfl
  | true =>
      have hex : a.isExcluded f = true := by simpa [isBundled, hin] using h
      rw [a.fragment_of_excluded hin hex]
      rfl

/-- A bundle also succeeds for other files if those among them that go into it do so already. -/
theorem bundle_ok_of_files {fs : FileSystem} {p : Program} {files : List String}
    (h : (a.bundle fs p).failure = none)
    (hfiles : ∀ f ∈ files, a.isBundled f = true → f ∈ p.files) :
    (a.bundle fs { p with files := files }).failure = none := by
  obtain ⟨hok, hmain⟩ := (a.bundle_failure_eq_none_iff fs p).1 h
  refine (a.bundle_failure_eq_none_iff fs _).2 ⟨fun f hf => ?_, hmain⟩
  cases hb : a.isBundled f with
  | false => exact a.fragment_ok_of_not_isBundled hb fs _
  | true => exact hok f (hfiles f hf hb)

theorem text_bundle_of_filter {fs : FileSystem} {p : Program} {files : List String}
    (h : (a.bundle fs p).failure = none)
    (hok : (a.bundle fs { p with files := files }).failure = none)
    (hfiles : files.filter a.isBundled = p.files.filter a.isBundled) :
    (a.bundle fs { p with files := files }).text = (a.bundle fs p).text := by
  have hsilent : ∀ fs' : List String, ∀ f ∈ fs', a.isBundled f = false →
      a.contribution f (a.declarations? fs p f) = "" :=
    fun _ _ _ hf => a.contribution_of_not_isBundled hf _
  rw [a.text_bundle files hok, a.text_bundle p.files h, ← join_map_filter (hsilent files), hfiles,
    join_map_filter (hsilent p.files)]

theorem filterMap_message?_fate (path : String) :
    (a.fate path).filterMap Event.message? = [a.notice path] := by
  unfold fate notice
  split
  · rfl
  · rfl

theorem messages_bundle {fs : FileSystem} {p : Program} (h : (a.bundle fs p).failure = none) :
    (a.bundle fs p).told Event.message? =
      (a.externs.map fun path => "Writing external dependency " ++ path) ++
        (p.files.filter a.isInside).map a.notice ++ a.aliases := by
  have hmain := ((a.bundle_failure_eq_none_iff fs p).1 h).2
  have hreference : ∀ path, (a.reference path).told Event.message? =
      ["Writing external dependency " ++ path] := fun _ => rfl
  rw [a.told_bundle (fun _ _ => rfl) h, (a.mainBlock_of_ok hmain).2.1]
  simp only [hreference, filterMap_message?_fate, List.map_eq_flatMap]

theorem exclusions_bundle {fs : FileSystem} {p : Program} (h : (a.bundle fs p).failure = none) :
    (a.bundle fs p).told Event.exclusion? =
      (p.files.filter fun f => a.isInside f && a.isExcluded f).map a.idOf := by
  have hmain := ((a.bundle_failure_eq_none_iff fs p).1 h).2
  have hreferences :
      (a.externs.flatMap fun path => (a.reference path).told Event.exclusion?) = [] :=
    List.flatMap_eq_nil_iff.2 fun _ _ => rfl
  have hfate : ∀ files : List String,
      (files.flatMap fun f => (a.fate f).filterMap Event.exclusion?) =
        (files.filter a.isExcluded).map a.idOf := by
    intro files
    induction files with
    | nil => rfl
    | cons f files ih =>
        rw [List.flatMap_cons, ih, fate]
        cases hex : a.isExcluded f with
        | false =>
            rw [if_neg Bool.false_ne_true, List.filter_cons_of_neg (by simp [hex])]
            rfl
        | true =>
            rw [if_pos rfl, List.filter_cons_of_pos hex, List.map_cons]
            rfl
  rw [a.told_bundle (fun _ _ => rfl) h, (a.mainBlock_of_ok hmain).2.2, hreferences, hfate,
    List.filter_filter, List.nil_append, List.append_nil]
  simp only [Bool.and_comm]

/-- A bundle that succeeds is made of the contributions of the files, in their order. -/
theorem bundle_concatenated {fs : FileSystem} {p : Program} (h : (a.bundle fs p).failure = none) :
    a.Concatenated fs p := by
  obtain ⟨hok, -⟩ := (a.bundle_failure_eq_none_iff fs p).1 h
  constructor
  case text => exact a.text_bundle p.files h
  case contributes => exact fun f hf => (a.adds_of_fragment (hok f hf)).2
  case permuted =>
    intro files hperm
    have hsame := a.bundle_ok_of_files h fun f hf _ => hperm.mem_iff.1 hf
    exact ⟨hsame, a.text_bundle files hsame⟩
  case kept =>
    intro files hfiles
    have hsame := a.bundle_ok_of_files h fun f hf hb =>
      (List.mem_filter.1 (hfiles ▸ List.mem_filter.2 ⟨hf, hb⟩)).1
    exact ⟨hsame, a.text_bundle_of_filter h hsame hfiles⟩
  case messages => exact a.messages_bundle h
  case excluded => exact congrArg List.eraseDups (a.exclusions_bundle h)

/-- A bundle with a module, a script, and some files that add nothing. -/
def mixed : Assembly where
  cwd := "/"
  baseDir := "/p"
  name := "pkg"
  eol := "\n"
  indent := some "\t"
  excludes := ["*.spec.ts"]
  externs := ["node.d.ts"]
  main := some "pkg/a"
  tree text :=
    ⟨⟨⟨"program", true, none⟩, 0, text.utf8ByteSize,
      if text = "" then []
      else [
        ⟨⟨"export_statement", true, none⟩, 0, 10, [
          ⟨⟨"export", false, none⟩, 0, 6, []⟩,
          ⟨⟨"export_clause", true, none⟩, 7, 9, [
            ⟨⟨"\x7b", false, none⟩, 7, 8, []⟩,
            ⟨⟨"\x7d", false, none⟩, 8, 9, []⟩]⟩,
          ⟨⟨";", false, none⟩, 9, 10, []⟩]⟩]⟩, false⟩

def mixedFiles : FileSystem :=
  ⟨[(["p"], .directory), (["p", "a.d.ts"], .file (Text.encode "export \x7b\x7d;\n"))]⟩

def mixedProgram : Program where
  files := ["/lib.d.ts", "/p/a.spec.ts", "/p/data.json", "/p/a.d.ts", "/p/b.ts"]
  diagnostics := []
  declarations := [("/p/b.ts", "")]

theorem bundle_concatenated_mixed :
    (mixed.bundle mixedFiles mixedProgram).failure = none ∧
      mixed.Concatenated mixedFiles mixedProgram := by
  have h : (mixed.bundle mixedFiles mixedProgram).failure = none := by decide +kernel
  exact ⟨h, mixed.bundle_concatenated h⟩

end Assembly

end DeclBundle
