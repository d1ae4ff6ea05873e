import DeclBundle.Proofs.Compilation
import DeclBundle.Proofs.DeclarationPath
import DeclBundle.Proofs.LineStart
import DeclBundle.Proofs.Stopping

/-!
# Two routes into a bundle

The declarations of a module come into a bundle from a declaration file on the disk, or from what the
compiler wrote of a source beside it (`Compiler.lookup_of_ends`). Both routes lead to the same path and to
the same parser, but the one drops a byte order mark in front of the text and the other keeps it. So they
lead to the same file exactly if there is no mark (`Assembly.routes_of_ends`).
-/

namespace DeclBundle

namespace Text

def IsMarked (s : String) : Prop := s.toList.head? = some byteOrderMark

instance (s : String) : Decidable (IsMarked s) := inferInstanceAs (Decidable (_ = _))

def unmarked (s : String) : String := String.ofList (dropMark s.toList)

theorem unmarked_eq_iff {s : String} : unmarked s = s ↔ ¬ IsMarked s := by
  rw [unmarked, IsMarked, ← String.toList_inj, String.toList_ofList]
  cases s.toList with
  | nil => simp
  | cons c cs =>
      by_cases h : c = byteOrderMark
      · subst h
        simp
      · simp [dropMark_of_ne h, h]

theorem loop_eq_append (bytes : ByteArray) (i : Nat) (r : List UInt8) :
    ByteArray.toList.loop bytes i r = r.reverse ++ bytes.data.toList.drop i := by
  fun_induction ByteArray.toList.loop bytes i r with
  | case1 i r hi ih =>
      have hlength : i < bytes.data.toList.length := hi
      have hget : bytes.get! i = bytes.data.toList[i] := getElem!_pos bytes.data i hi
      rw [ih, List.drop_eq_getElem_cons hlength, List.reverse_cons, List.append_assoc, hget]
      rfl
  | case2 i r hi =>
      have hlength : bytes.data.toList.length ≤ i := Nat.not_lt.1 hi
      rw [List.drop_eq_nil_of_le hlength, List.append_nil]

theorem toList_eq_data (bytes : ByteArray) : bytes.toList = bytes.data.toList := by
  rw [ByteArray.toList, loop_eq_append, List.reverse_nil, List.nil_append, List.drop_zero]

/-- What is a text is read without its mark; a file that ends inside a mark is none. -/
theorem decodeMarked?_of_decode? {bytes : ByteArray} {s : String} (h : decode? bytes = some s) :
    decodeMarked? bytes = some (unmarked s) := by
  have hwhole : ¬ (bytes.toList = [0xef] ∨ bytes.toList = [0xef, 0xbb]) := by
    have hnone : decode? ⟨⟨[0xef]⟩⟩ = none ∧ decode? ⟨⟨[0xef, 0xbb]⟩⟩ = none := by decide +kernel
    rw [toList_eq_data]
    obtain ⟨⟨xs⟩⟩ := bytes
    rintro (rfl | rfl)
    · rw [hnone.1] at h
      cases h
    · rw [hnone.2] at h
      cases h
  rw [decodeMarked?, if_neg hwhole, h]
  rfl

end Text

theorem lookup_cons_eq (k t : String) (ds : List (String × String)) (key : String) :
    ((k, t) :: ds).lookup key = if key = k then some t else ds.lookup key := by
  rw [List.lookup_cons]
  by_cases h : key = k
  · rw [beq_iff_eq.2 h, if_pos h]
  · rw [beq_eq_false_iff_ne.2 h, if_neg h]

theorem Program.lookup_addDeclaration (ds : List (String × String)) (key text key' : String) :
    (addDeclaration ds key text).lookup key' = if key' = key then some text else ds.lookup key' := by
  induction ds with
  | nil => exact lookup_cons_eq key text [] key'
  | cons d ds ih =>
      obtain ⟨k, t⟩ := d
      rw [addDeclaration]
      split
      case isTrue hk =>
        rw [lookup_cons_eq, lookup_cons_eq, hk]
        by_cases h : key' = key
        · rw [if_pos h, if_pos h]
        · rw [if_neg h, if_neg h, if_neg h]
      case isFalse hk =>
        rw [lookup_cons_eq, lookup_cons_eq, ih]
        by_cases h : key' = k
        · rw [if_pos h, if_neg (h ▸ hk), if_pos h]
        · rw [if_neg h, if_neg h]

namespace Module

theorem declarationPath_source {stem : String} (h : isDeclaration (stem ++ ".ts") = false) :
    declarationPath (stem ++ ".ts") = stem ++ ".d.ts" := declarationPath_append (by decide) h

theorem normalize_declarations {stem : String} {steps : List (List Char)}
    (h : isDeclaration (stem ++ ".ts") = false) (hp : Path.Rooted (stem ++ ".ts").toList steps) :
    Path.normalize (stem ++ ".d.ts") = stem ++ ".d.ts" := by
  have hnormal : Path.normalize (stem ++ ".ts") = stem ++ ".ts" := hp.normalize_eq
  rcases List.eq_nil_or_concat steps with rfl | ⟨steps, n, rfl⟩
  · -- An anchor does not end like a source.
    have hlast : (stem ++ ".ts").toList.getLast? = some 's' := by simp
    obtain ⟨-, a, rfl | rfl, heq⟩ := hp
    · rw [heq] at hlast
      exact absurd hlast (by decide)
    · rw [heq] at hlast
      exact absurd hlast (by decide)
  · rw [List.concat_eq_append, ← hp.normal_eq] at hp
    have hdeclarations := normalize_declarationPath hp hnormal
    rwa [declarationPath_source h] at hdeclarations

end Module

namespace Compiler

open DeclBundle.Action

variable {site : Site} {baseDir dir : String} {fs fs' : FileSystem} {found found' : List (String × String)}
  {path key text : String} {files : List String}

def declarationText? (site : Site) (baseDir dir : String) (fs : FileSystem) (path : String) :
    Option String :=
  if Module.isDeclaration path || !Path.isUnder baseDir path then none
  else
    match fs.find? site.cwd (emittedPath site baseDir dir path) with
    | some (.file content) => Text.decode? content
    | _ => none

theorem declarationText?_of_find? {bytes : ByteArray} (hdecl : Module.isDeclaration path = false)
    (hunder : Path.isUnder baseDir path = true)
    (hfile : fs.find? site.cwd (emittedPath site baseDir dir path) = some (.file bytes)) :
    declarationText? site baseDir dir fs path = Text.decode? bytes := by
  rw [declarationText?, hdecl, hunder, if_neg (by decide), hfile]

theorem of_ends_readDeclaration
    (h : (readDeclaration site baseDir dir found path).Ends fs found' fs') :
    fs = fs' ∧ found' = (declarationText? site baseDir dir fs path).elim found
      (Program.addDeclaration found (Path.normalize path)) := by
  unfold readDeclaration at h
  unfold declarationText?
  split at h
  case isTrue hskip =>
    obtain ⟨rfl, rfl⟩ := ends_pure_iff.1 h
    rw [if_pos hskip]
    exact ⟨rfl, rfl⟩
  case isFalse hread =>
    obtain ⟨_, _, hfiles, hends⟩ := ends_bind_iff.1 h
    obtain ⟨rfl, rfl⟩ := ends_files_iff.1 hfiles
    rw [if_neg hread]
    cases hentry : fs.find? site.cwd (emittedPath site baseDir dir path) with
    | none =>
        simp only [hentry, ends_bind_iff, ends_note_iff, ends_pure_iff] at hends
        obtain ⟨_, _, rfl, rfl, rfl⟩ := hends
        exact ⟨rfl, rfl⟩
    | some entry =>
        cases entry with
        | directory =>
            simp only [hentry, ends_bind_iff, ends_note_iff, ends_pure_iff] at hends
            obtain ⟨_, _, rfl, rfl, rfl⟩ := hends
            exact ⟨rfl, rfl⟩
        | file content =>
            cases htext : Text.decode? content with
            | none =>
                simp only [hentry, htext] at hends
                exact absurd hends ends_fail_iff
            | some text =>
                simp only [hentry, htext] at hends
                obtain ⟨rfl, rfl⟩ := ends_pure_iff.1 hends
                exact ⟨rfl, by simp only [htext, Option.elim_some]⟩

/-- What is found for a key in the end was read last of the files with that key, or was found before. -/
theorem lookup_readDeclarations (hends : (readDeclarations site baseDir dir found files).Ends fs found' fs')
    (key : String) : found'.lookup key =
      ((files.filter (Path.normalize · = key)).reverse.findSome? (declarationText? site baseDir dir fs)).or
        (found.lookup key) := by
  induction files generalizing found with
  | nil =>
      obtain ⟨rfl, -⟩ := ends_pure_iff.1 hends
      rfl
  | cons g files ih =>
      obtain ⟨found₁, _, hfirst, hrest⟩ := ends_bind_iff.1 hends
      obtain ⟨rfl, rfl⟩ := of_ends_readDeclaration hfirst
      rw [ih hrest, List.filter_cons]
      cases htext : declarationText? site baseDir dir fs g with
      | none =>
          split
          · simp [htext]
          · rfl
      | some t =>
          rw [Option.elim_some, Program.lookup_addDeclaration]
          by_cases hg : Path.normalize g = key
          · simp [hg, htext]
          · simp [hg, Ne.symm hg]

/-- A text that is read for a file whenever it comes up is what was found for it in the end. -/
theorem lookup_of_ends (hends : (readDeclarations site baseDir dir found files).Ends fs found' fs')
    (hread : ∀ g ∈ files, Path.normalize g = key → declarationText? site baseDir dir fs g = some text)
    (hfound : (∃ g ∈ files, Path.normalize g = key) ∨ found.lookup key = some text) :
    found'.lookup key = some text := by
  rw [lookup_readDeclarations hends]
  cases hlast : (files.filter (Path.normalize · = key)).reverse.findSome?
      (declarationText? site baseDir dir fs) with
  | some t =>
      obtain ⟨g, hg, ht⟩ := List.exists_of_findSome?_eq_some hlast
      rw [List.mem_reverse, List.mem_filter, decide_eq_true_eq] at hg
      rw [Option.some_or, ← ht, hread g hg.1 hg.2]
  | none =>
      rw [Option.none_or]
      refine hfound.resolve_left ?_
      rintro ⟨g, hg, hkey⟩
      have hnone := List.findSome?_eq_none_iff.1 hlast g (by simp [hg, hkey])
      rw [hread g hg hkey] at hnone
      cases hnone

/-- What is found for a normal file that was listed is what was read for it. -/
theorem lookup_eq_declarationText? (hnormal : ∀ g ∈ files, Path.normalize g = g) (hkey : key ∈ files)
    (hends : (readDeclarations site baseDir dir [] files).Ends fs found' fs') :
    found'.lookup key = declarationText? site baseDir dir fs key := by
  have hsame : ∀ g ∈ files, Path.normalize g = key → g = key := fun g hg h => (hnormal g hg).symm.trans h
  cases htext : declarationText? site baseDir dir fs key with
  | some text =>
      exact lookup_of_ends hends (fun g hg h => hsame g hg h ▸ htext) (.inl ⟨key, hkey, hnormal key hkey⟩)
  | none =>
      rw [lookup_readDeclarations hends, List.lookup_nil, Option.or_none, List.findSome?_eq_none_iff]
      intro g hg
      rw [List.mem_reverse, List.mem_filter, decide_eq_true_eq] at hg
      rw [hsame g hg.1 hg.2, htext]

end Compiler

namespace Assembly

open Text (IsMarked unmarked)

variable {a : Assembly} {fs fs' : FileSystem} {p q : Program} {stem text : String}

/-- What comes into a bundle from a declaration file, and from a source of which the compiler wrote the
same bytes. -/
structure Routes (a : Assembly) (fs : FileSystem) (p : Program) (fs' : FileSystem) (q : Program)
    (stem text : String) : Prop where
  declared : a.made fs p (stem ++ ".d.ts") = a.parsed (stem ++ ".d.ts") (unmarked text)
  compiled : a.made fs' q (stem ++ ".ts") = a.parsed (stem ++ ".d.ts") text
  same_of_unmarked : ¬ IsMarked text → a.made fs p (stem ++ ".d.ts") = a.made fs' q (stem ++ ".ts")
  same_file_iff : ∀ f g, a.file? fs p (stem ++ ".d.ts") = some f →
    a.file? fs' q (stem ++ ".ts") = some g →
      a.idOf f.path = a.idOf g.path ∧ (f = g ↔ ¬ IsMarked text) ∧
        (f.isModule = false → g.isModule = false →
          ((a.emission f).text = (a.emission g).text ↔ ¬ IsMarked text))

theorem emission_of_script {f : ParsedFile} (h : f.isModule = false) : (a.emission f).text = f.text := by
  cases hindent : a.indent with
  | none => simp [emission, hindent, h]
  | some i => simp [emission, hindent, h, Layout.emission]

theorem routes_of_texts (hnormal : Path.normalize (stem ++ ".d.ts") = stem ++ ".d.ts")
    (hsource : Module.isDeclaration (stem ++ ".ts") = false)
    (hread : sourceText fs a.cwd (stem ++ ".d.ts") = .ok (unmarked text))
    (hfound : q.declarations.lookup (Path.normalize (stem ++ ".ts")) = some text)
    (hquiet : q.diagnosticsOf (stem ++ ".ts") = []) : a.Routes fs p fs' q stem text := by
  have hdecl : Module.isDeclaration (stem ++ ".d.ts") = true := by
    rw [Module.isDeclaration_eq_isSome]
    have hending : Module.beforeEnding? Module.declarationEndings (stem ++ ".d.ts") = some stem :=
      Module.beforeEnding?_append [".d.mts", ".d.cts"] (List.forall_mem_nil _) stem
    rw [hending]
    rfl
  have hdeclared : a.made fs p (stem ++ ".d.ts") = a.parsed (stem ++ ".d.ts") (unmarked text) := by
    rw [made, if_pos hdecl, declared, hread, hnormal]
  have hcompiled : a.made fs' q (stem ++ ".ts") = a.parsed (stem ++ ".d.ts") text := by
    rw [made, if_neg (by rw [hsource]; exact Bool.false_ne_true), compiled_of_some a hfound hquiet,
      Module.declarationPath_source hsource]
  refine ⟨hdeclared, hcompiled, fun hmark => ?_, fun f g hf hg => ?_⟩
  · rw [hdeclared, hcompiled, Text.unmarked_eq_iff.2 hmark]
  · have hfpath : declaredPath (stem ++ ".d.ts") = stem ++ ".d.ts" := by
      rw [declaredPath, if_pos hdecl, hnormal]
    have hgpath : declaredPath (stem ++ ".ts") = stem ++ ".d.ts" := by
      rw [declaredPath, hsource, if_neg Bool.false_ne_true, Module.declarationPath_source hsource]
    have hftext : a.declarations? fs p (stem ++ ".d.ts") = some (unmarked text) := by
      rw [declarations?, if_pos hdecl, hread]
      rfl
    have hgtext : a.declarations? fs' q (stem ++ ".ts") = some text := by
      rw [declarations?, hsource, if_neg Bool.false_ne_true, hfound]
    obtain ⟨-, _, htext, hf⟩ := exists_of_file?_eq_some hf
    obtain rfl := Option.some.inj (hftext.symm.trans htext)
    obtain ⟨-, _, htext, hg⟩ := exists_of_file?_eq_some hg
    obtain rfl := Option.some.inj (hgtext.symm.trans htext)
    rw [hfpath] at hf
    rw [hgpath] at hg
    have hfparts := ParsedFile.path_and_text hf
    have hgparts := ParsedFile.path_and_text hg
    refine ⟨by rw [hfparts.1, hgparts.1], ⟨?_, ?_⟩, fun hfscript hgscript => ?_⟩
    · rintro rfl
      exact Text.unmarked_eq_iff.1 (hfparts.2.symm.trans hgparts.2)
    · intro hmark
      rw [Text.unmarked_eq_iff.2 hmark] at hf
      exact Option.some.inj (hf.symm.trans hg)
    · rw [emission_of_script hfscript, emission_of_script hgscript, hfparts.2, hgparts.2,
        Text.unmarked_eq_iff]

/-- A program that lists a declaration file, and one that lists the source of which the compiler wrote the
same bytes. -/
theorem routes_of_ends {site : Site} {dir output : String} {report : Report} {bad : Option BadValue}
    {emitted left : FileSystem} {bytes : ByteArray}
    (hsource : Module.isDeclaration (stem ++ ".ts") = false)
    (hinside : a.isInside (stem ++ ".ts") = true) (hlisted : stem ++ ".ts" ∈ q.files)
    (hreport : Report.read a.baseDir output = (report, bad))
    (hprogram : (Compiler.programOf site a.baseDir dir report).Ends emitted q left)
    (hemitted : emitted.find? site.cwd
      (Path.join dir (Path.relative site.cwd (stem ++ ".d.ts") a.baseDir)) = some (.file bytes))
    (hquiet : q.diagnosticsOf (stem ++ ".ts") = [])
    (hdisk : fs.read a.cwd (stem ++ ".d.ts") = .ok bytes)
    (htext : Text.decode? bytes = some text) : a.Routes fs p fs' q stem text := by
  obtain ⟨-, hreads, hfiles, -⟩ := Compiler.ends_programOf_iff.1 hprogram
  rw [hfiles] at hlisted
  have hnormal : ∀ g ∈ report.files, Path.normalize g = g := by
    intro g hg
    obtain ⟨steps, hrooted⟩ := Report.rooted_of_read hreport hg
    exact hrooted.normalize_eq
  obtain ⟨steps, hrooted⟩ := Report.rooted_of_read hreport hlisted
  have hread : sourceText fs a.cwd (stem ++ ".d.ts") = .ok (unmarked text) := by
    rw [sourceText, hdisk]
    simp only [Text.decodeMarked?_of_decode? htext]
  have hfound : Compiler.declarationText? site a.baseDir dir emitted (stem ++ ".ts") = some text := by
    have hunder : Path.isUnder a.baseDir (stem ++ ".ts") = true := by
      have hpath := hnormal _ hlisted
      unfold isInside at hinside
      rw [hpath] at hinside
      exact hinside
    rw [← Module.declarationPath_source hsource, ← Compiler.emittedPath] at hemitted
    rw [Compiler.declarationText?_of_find? hsource hunder hemitted, htext]
  refine routes_of_texts (Module.normalize_declarations hsource hrooted) hsource hread ?_ hquiet
  refine Compiler.lookup_of_ends hreads (fun g hg hkey => ?_) (.inl ⟨_, hlisted, rfl⟩)
  rw [hnormal g hg, hnormal _ hlisted] at hkey
  rw [hkey]
  exact hfound

/-- A site with a parser that finds `declare var b;` also behind a mark. -/
def markedSite : Site :=
  { Bundler.twoScriptsSite with
    tree := fun text =>
      if IsMarked text then
        ⟨⟨⟨"program", true, none⟩, 3, 18, [
          ⟨⟨"ambient_declaration", true, none⟩, 3, 17, [
            ⟨⟨"declare", false, none⟩, 3, 10, []⟩,
            ⟨⟨"variable_declaration", true, none⟩, 11, 17, [
              ⟨⟨"var", false, none⟩, 11, 14, []⟩,
              ⟨⟨"variable_declarator", true, none⟩, 15, 16, [
                ⟨⟨"identifier", true, some "name"⟩, 15, 16, []⟩]⟩,
              ⟨⟨";", false, none⟩, 16, 17, []⟩]⟩]⟩]⟩, false⟩
      else Bundler.twoScriptsSite.tree text }

def markedAssembly : Assembly := Bundler.twoScripts.assembly markedSite "\n"

/-- The files with a text in a declaration file. -/
def declaredFiles (text : String) : FileSystem :=
  ⟨[(["p"], .directory), (["p", "b.d.ts"], .file (Text.encode text))]⟩

/-- The files when the compiler has written a text. -/
def emittedFiles (text : String) : FileSystem :=
  ⟨[(["p"], .directory), (["tmp"], .directory), (["tmp", "d"], .directory),
    (["tmp", "d", "b.d.ts"], .file (Text.encode text))]⟩

def declaredProgram : Program := ⟨["/p/b.d.ts"], [], []⟩

/-- The program in which a text was found for a source. -/
def emittedProgram (text : String) : Program := ⟨["/p/b.ts"], [], [("/p/b.ts", text)]⟩

theorem read_emitted : Report.read "/p" "/p/b.ts\n" = (⟨["/p/b.ts"], [], []⟩, none) := by
  have hreport : (Report.read "/p" "/p/b.ts\n").1 = ⟨["/p/b.ts"], [], []⟩ := by decide +kernel
  have hbad : (Report.read "/p" "/p/b.ts\n").2 = none := Option.isNone_iff_eq_none.1 (by decide +kernel)
  exact Prod.ext hreport hbad

theorem ends_programOf_emitted (text : String)
    (h : ((Compiler.readDeclarations markedSite "/p" "/tmp/d" [] ["/p/b.ts"])
      (emittedFiles text)).result.toOption = some [("/p/b.ts", text)]) :
    ∃ left, (Compiler.programOf markedSite markedAssembly.baseDir "/tmp/d" ⟨["/p/b.ts"], [], []⟩).Ends
      (emittedFiles text) (emittedProgram text) left :=
  ⟨_, Compiler.ends_programOf_iff.2 ⟨rfl, Action.ends_of_toOption_eq_some h, rfl, rfl⟩⟩

theorem routes_of_ends_unmarked :
    Module.isDeclaration ("/p/b" ++ ".ts") = false ∧ markedAssembly.isInside ("/p/b" ++ ".ts") = true ∧
      "/p/b" ++ ".ts" ∈ (emittedProgram "declare var b;\n").files ∧
      Report.read markedAssembly.baseDir "/p/b.ts\n" = (⟨["/p/b.ts"], [], []⟩, none) ∧
      (emittedFiles "declare var b;\n").find? markedSite.cwd
          (Path.join "/tmp/d"
            (Path.relative markedSite.cwd ("/p/b" ++ ".d.ts") markedAssembly.baseDir)) =
        some (.file (Text.encode "declare var b;\n")) ∧
      (emittedProgram "declare var b;\n").diagnosticsOf ("/p/b" ++ ".ts") = [] ∧
      (declaredFiles "declare var b;\n").read markedAssembly.cwd ("/p/b" ++ ".d.ts") =
        .ok (Text.encode "declare var b;\n") ∧
      Text.decode? (Text.encode "declare var b;\n") = some "declare var b;\n" ∧
      ∃ left, (Compiler.programOf markedSite markedAssembly.baseDir "/tmp/d"
          ⟨["/p/b.ts"], [], []⟩).Ends (emittedFiles "declare var b;\n")
            (emittedProgram "declare var b;\n") left ∧
        markedAssembly.Routes (declaredFiles "declare var b;\n") declaredProgram left
          (emittedProgram "declare var b;\n") "/p/b" "declare var b;\n" := by
  have hsource : Module.isDeclaration ("/p/b" ++ ".ts") = false := by decide
  have hinside : markedAssembly.isInside ("/p/b" ++ ".ts") = true := by decide +kernel
  have hlisted : "/p/b" ++ ".ts" ∈ (emittedProgram "declare var b;\n").files := List.mem_singleton.2 rfl
  have hemitted : (emittedFiles "declare var b;\n").find? markedSite.cwd
      (Path.join "/tmp/d" (Path.relative markedSite.cwd ("/p/b" ++ ".d.ts") markedAssembly.baseDir)) =
        some (.file (Text.encode "declare var b;\n")) := by decide +kernel
  have hquiet : (emittedProgram "declare var b;\n").diagnosticsOf ("/p/b" ++ ".ts") = [] := rfl
  have hdisk : (declaredFiles "declare var b;\n").read markedAssembly.cwd ("/p/b" ++ ".d.ts") =
      .ok (Text.encode "declare var b;\n") := by rfl
  have htext := Text.decode?_encode "declare var b;\n"
  obtain ⟨left, hprogram⟩ := ends_programOf_emitted "declare var b;\n" (by decide +kernel)
  exact ⟨hsource, hinside, hlisted, read_emitted, hemitted, hquiet, hdisk, htext, left, hprogram,
    routes_of_ends hsource hinside hlisted read_emitted hprogram hemitted hquiet hdisk htext⟩

/-- Behind a mark a script stands in the bundle as it is if the compiler wrote it, and without the mark if
it is read from the disk. -/
theorem not_routes_marked :
    Module.isDeclaration "/p/b.ts" = false ∧ markedAssembly.isBundled "/p/b.ts" = true ∧
      markedAssembly.isBundled "/p/b.d.ts" = true ∧
      (declaredFiles "\uFEFFdeclare var b;\n").read markedAssembly.cwd "/p/b.d.ts" =
        .ok (Text.encode "\uFEFFdeclare var b;\n") ∧
      (emittedFiles "\uFEFFdeclare var b;\n").find? markedSite.cwd
          (Path.join "/tmp/d" (Path.relative markedSite.cwd "/p/b.d.ts" markedAssembly.baseDir)) =
        some (.file (Text.encode "\uFEFFdeclare var b;\n")) ∧
      (∃ left, (Compiler.programOf markedSite markedAssembly.baseDir "/tmp/d"
        ⟨["/p/b.ts"], [], []⟩).Ends (emittedFiles "\uFEFFdeclare var b;\n")
          (emittedProgram "\uFEFFdeclare var b;\n") left) ∧
      (emittedProgram "\uFEFFdeclare var b;\n").diagnosticsOf "/p/b.ts" = [] ∧
      (markedAssembly.made (declaredFiles "\uFEFFdeclare var b;\n") declaredProgram "/p/b.d.ts").text =
        "declare var b;\n" ∧
      (markedAssembly.made (emittedFiles "\uFEFFdeclare var b;\n")
        (emittedProgram "\uFEFFdeclare var b;\n") "/p/b.ts").text = "\uFEFFdeclare var b;\n" ∧
      ¬ "declare var b;\n" = "\uFEFFdeclare var b;\n" := by
  have hprogram := ends_programOf_emitted "\uFEFFdeclare var b;\n" (by decide +kernel)
  have hdisk : (declaredFiles "\uFEFFdeclare var b;\n").read markedAssembly.cwd "/p/b.d.ts" =
      .ok (Text.encode "\uFEFFdeclare var b;\n") := by rfl
  have hemitted : (emittedFiles "\uFEFFdeclare var b;\n").find? markedSite.cwd
      (Path.join "/tmp/d" (Path.relative markedSite.cwd "/p/b.d.ts" markedAssembly.baseDir)) =
        some (.file (Text.encode "\uFEFFdeclare var b;\n")) := by decide +kernel
  have hdeclared : (markedAssembly.made (declaredFiles "\uFEFFdeclare var b;\n") declaredProgram
      "/p/b.d.ts").text = "declare var b;\n" := by decide +kernel
  have hcompiled : (markedAssembly.made (emittedFiles "\uFEFFdeclare var b;\n")
      (emittedProgram "\uFEFFdeclare var b;\n") "/p/b.ts").text = "\uFEFFdeclare var b;\n" := by
    decide +kernel
  exact ⟨by decide, by decide +kernel, by decide +kernel, hdisk, hemitted, hprogram, rfl, hdeclared,
    hcompiled, by decide⟩

end Assembly

end DeclBundle
