import DeclBundle.Proofs.SourceRoute
import DeclBundle.Proofs.UniqueId

/-!
# Emitted declarations

The declarations of a file are looked for under one path. It is the one that the compiler gives them unless
the file ends in `.mjs` or `.cjs`, or is a script whose name is nothing but its ending behind points
(`Module.declarationPath_eq_iff`). A bundle that succeeds holds for each of its files what the compiler left
under that path when its call ended (`Success.holds_iff`). So it holds the declarations that the compiler
wrote of a file exactly if their path is foreseen, or other declarations in their place are the same, and
where there are none nothing tells that a file is left out (`Bundler.run_keeps`).
-/

namespace DeclBundle

namespace Path

def HasName (p : String) : Prop := ∃ c ∈ afterSlash p.toList, c ≠ '.'

instance (p : String) : Decidable (HasName p) := inferInstanceAs (Decidable (∃ c ∈ _, _))

theorem stemOfName_append {e : List Char} (h : '.' ∉ e) (n : List Char) :
    stemOfName (n ++ '.' :: e) = if n.any (· != '.') then n else n ++ '.' :: e := by
  have hdrop : (n ++ '.' :: e).reverse.dropWhile (· != '.') = '.' :: n.reverse := by
    rw [List.reverse_append, List.reverse_cons, List.append_assoc,
      List.dropWhile_append_of_pos (bne_of_mem_reverse h), List.singleton_append,
      List.dropWhile_cons_of_neg (by decide)]
  simp only [stemOfName, hdrop, List.any_reverse, List.reverse_reverse]

theorem stem_append {e : String} {ext : List Char} (he : e.toList = '.' :: ext) (hdot : '.' ∉ ext)
    (hslash : '/' ∉ ext) (p : String) : stem (p ++ e) = if HasName p then p else p ++ e := by
  have hslash' : '/' ∉ '.' :: ext := by simp [hslash]
  have hname : (afterSlash p.toList).any (· != '.') = true ↔ HasName p := by simp [HasName]
  rw [← String.toList_inj, stem, String.toList_ofList, String.toList_append, he, upToSlash_append hslash',
    afterSlash_append hslash', stemOfName_append hdot]
  by_cases h : HasName p
  · rw [if_pos (hname.2 h), if_pos h, upToSlash_append_afterSlash]
  · rw [if_neg (mt hname.1 h), if_neg h, ← List.append_assoc, upToSlash_append_afterSlash,
      String.toList_append, he]

end Path

namespace Module

variable {s e d : String}

/-- The endings of files that are not written in TypeScript, with those of the declarations that the
compiler makes of them. -/
def scriptDeclarations : List (String × String) :=
  [(".js", ".d.ts"), (".jsx", ".d.ts"), (".mjs", ".d.mts"), (".cjs", ".d.cts")]

/-- The declarations of a file are looked for where the compiler puts them: all but those of files with
the endings `.mjs` and `.cjs`, and of files whose names are nothing but an ending behind points. -/
def IsForeseen (s e : String) : Prop :=
  e ∈ sourceEndings ∨ (e = ".js" ∨ e = ".jsx") ∧ Path.HasName s

instance (s e : String) : Decidable (IsForeseen s e) := inferInstanceAs (Decidable (_ ∨ _))

theorem declarationPath_script (hed : (e, d) ∈ scriptDeclarations) (s : String) :
    declarationPath (s ++ e) = (if Path.HasName s then s else s ++ e) ++ ".d.ts" := by
  have hall : ∀ p ∈ scriptDeclarations, (∀ e' ∈ declarationEndings ++ sourceEndings,
      ¬ e'.toList <:+ p.1.toList ∧ ¬ p.1.toList <:+ e'.toList) ∧ p.1.toList.head? = some '.' ∧
        '.' ∉ p.1.toList.tail ∧ '/' ∉ p.1.toList.tail := by decide
  obtain ⟨hendings, hhead, hdot, hslash⟩ := hall (e, d) hed
  have hnone : ∀ endings ⊆ declarationEndings ++ sourceEndings, beforeEnding? endings (s ++ e) = none :=
    fun endings hsub => beforeEnding?_append_eq_none (fun e' he' => hendings e' (hsub he')) s
  have hdecl : isDeclaration (s ++ e) = false := by
    rw [isDeclaration_eq_isSome, hnone _ (by simp)]
    rfl
  have hstrip : stripExtension (s ++ e) = if Path.HasName s then s else s ++ e := by
    rw [stripExtension, hnone _ (List.Subset.refl _), Option.getD_none,
      Path.stem_append (List.eq_cons_of_mem_head? hhead) hdot hslash]
  rw [declarationPath, hdecl, if_neg Bool.false_ne_true, hnone [".mts"] (by decide),
    hnone [".cts"] (by decide), hstrip]

/-- The declarations of a file are looked for under the path that the compiler gives them exactly if that
is foreseen. -/
theorem declarationPath_eq_iff (hed : (e, d) ∈ sourceDeclarations ++ scriptDeclarations)
    (h : isDeclaration (s ++ e) = false) : declarationPath (s ++ e) = s ++ d ↔ IsForeseen s e := by
  rcases List.mem_append.1 hed with hsource | hscript
  · have hall : ∀ p ∈ sourceDeclarations, p.1 ∈ sourceEndings := by decide
    exact iff_of_true (declarationPath_append hsource h) (.inl (hall (e, d) hsource))
  · have hlonger : ∀ p ∈ scriptDeclarations, p.1 ++ ".d.ts" ≠ p.2 := by decide
    have hforeseen : ∀ p ∈ scriptDeclarations,
        p.1 ∉ sourceEndings ∧ (".d.ts" = p.2 ↔ p.1 = ".js" ∨ p.1 = ".jsx") := by decide
    obtain ⟨hnot, hending⟩ := hforeseen (e, d) hscript
    rw [declarationPath_script hscript, IsForeseen, or_iff_right hnot]
    by_cases hname : Path.HasName s
    · rw [if_pos hname, String.append_right_inj, hending, and_iff_left hname]
    · rw [if_neg hname, String.append_assoc, String.append_right_inj]
      exact iff_of_false (hlonger (e, d) hscript) fun hand => hname hand.2

end Module

def FileSystem.content? (fs : FileSystem) (cwd p : String) : Option ByteArray :=
  match fs.find? cwd p with
  | some (.file bytes) => some bytes
  | _ => none

theorem FileSystem.find?_of_content? {fs : FileSystem} {cwd p : String} {bytes : ByteArray}
    (h : fs.content? cwd p = some bytes) : fs.find? cwd p = some (.file bytes) := by
  unfold content? at h
  split at h
  · next hfile => rw [hfile, Option.some.inj h]
  · cases h

namespace Compiler

open DeclBundle.Action

variable {site : Site} {executable timeout : Value} {baseDir dir : String} {options : Record}
  {files : List String} {fs fs' : FileSystem} {found found' : List (String × String)} {p : Program}
  {path : String} {bytes : ByteArray}

/-- What is done to make a program until the call of the compiler has ended. -/
def emitting (site : Site) (executable timeout : Value) (baseDir : String) (options : Record)
    (files : List String) : Action Unit := do
  let fs ← Action.files
  let words ← Action.ofExcept (command site fs baseDir executable)
  let c := callOf site words baseDir (declarationDir site) options files timeout
  Action.change fun fs => fs.makeDirectory site.cwd (declarationDir site)
  Action.change (createFile site (configPath site baseDir) c.config)
  let _ ← Action.tidying (perform site (declarationDir site) c)
    fun fs => fs.without (· == FileSystem.placeOf (configPath site baseDir))

/-- The declarations are read from the files that the compiler left when its call ended. -/
theorem Compilation.reads_emitted
    (w : Compilation site executable timeout baseDir options files fs p fs') :
    (readDeclarations site baseDir (declarationDir site) [] p.files).Ends
      ((emitting site executable timeout baseDir options files) fs).files p.declarations w.left := by
  have hends : (emitting site executable timeout baseDir options files).Ends fs ()
      ((plantAll (declarationDir site) w.written w.configured).without
        (· == FileSystem.placeOf (configPath site baseDir))) := by
    simp only [emitting, ends_bind_iff, ends_files_iff, ends_ofExcept_iff, ends_change_iff,
      ends_tidying_iff, ends_perform_iff, ends_pure_iff]
    exact ⟨fs, fs, ⟨rfl, rfl⟩, w.words, fs, ⟨w.command_eq, rfl⟩, (), w.made, w.make_eq, (), w.configured,
      w.configure_eq, w.output, _, ⟨_, ⟨w.errors, w.status, w.written, w.answer_eq, w.isRegular, rfl⟩, rfl⟩,
      trivial, rfl⟩
  rw [hends.2, w.files_eq]
  exact w.reads

theorem declarationText?_eq_bind (hdecl : Module.isDeclaration path = false)
    (hunder : Path.isUnder baseDir path = true) : declarationText? site baseDir dir fs path =
      (fs.content? site.cwd (emittedPath site baseDir dir path)).bind Text.decode? := by
  rw [declarationText?, hdecl, hunder, if_neg (by decide), FileSystem.content?]
  cases fs.find? site.cwd (emittedPath site baseDir dir path) with
  | none => rfl
  | some entry => cases entry <;> rfl

theorem exists_decode?_of_ends (hends : (readDeclarations site baseDir dir found files).Ends fs found' fs')
    (hpath : path ∈ files) (hdecl : Module.isDeclaration path = false)
    (hunder : Path.isUnder baseDir path = true)
    (hfile : fs.find? site.cwd (emittedPath site baseDir dir path) = some (.file bytes)) :
    ∃ text, Text.decode? bytes = some text := by
  induction files generalizing found with
  | nil => cases hpath
  | cons g files ih =>
      obtain ⟨_, _, hfirst, hrest⟩ := ends_bind_iff.1 hends
      obtain ⟨rfl, -⟩ := of_ends_readDeclaration hfirst
      rcases List.mem_cons.1 hpath with rfl | hpath
      · rw [readDeclaration, hdecl, hunder, if_neg (by decide), ends_bind_iff] at hfirst
        obtain ⟨_, _, hfiles, hfirst⟩ := hfirst
        obtain ⟨rfl, rfl⟩ := ends_files_iff.1 hfiles
        simp only [hfile] at hfirst
        cases htext : Text.decode? bytes with
        | some text => exact ⟨text, rfl⟩
        | none =>
            simp only [htext] at hfirst
            exact absurd hfirst ends_fail_iff
      · exact ih hrest hpath

end Compiler

namespace Assembly

variable {a : Assembly} {fs : FileSystem} {p : Program} {path text : String}

/-- A file stands in a bundle with some declarations: they are what it is represented by, and what is
emitted of them stands behind what the files before it add. -/
structure HoldsDeclarations (a : Assembly) (fs : FileSystem) (p : Program) (path text : String) :
    Prop where
  given : a.declarations? fs p path = some text
  stands : ∃ f, ParsedFile.ofCst? (declaredPath path) text (a.tree text) = some f ∧
    (a.emission f).failure = none ∧ ∀ before after, p.files = before ++ path :: after →
      ∃ rest, (a.bundle fs p).text = a.upTo fs p before ++ (a.emission f).text ++ rest

/-- In a bundle that succeeds a file that goes into it stands with its declarations. -/
theorem holdsDeclarations_iff (h : (a.bundle fs p).failure = none) (hpath : path ∈ p.files)
    (hbundled : a.isBundled path = true) (text : String) :
    a.HoldsDeclarations fs p path text ↔ a.declarations? fs p path = some text := by
  refine ⟨HoldsDeclarations.given, fun hgiven => ⟨hgiven, ?_⟩⟩
  have hcontributes := (a.bundle_concatenated h).contributes path hpath
  rw [hgiven] at hcontributes
  obtain ⟨f, hf, hok, hadded⟩ := hcontributes.exists_file hbundled
  refine ⟨f, hf, hok, fun before after hfiles => ?_⟩
  obtain ⟨rest, htext⟩ := text_eq_upTo h hfiles
  rw [hgiven, hadded] at htext
  exact ⟨rest, htext⟩

theorem text_bundle_without (h : (a.bundle fs p).failure = none)
    (hnone : a.declarations? fs p path = none) :
    (a.bundle fs { p with files := p.files.filter (· ≠ path) }).text = (a.bundle fs p).text := by
  have hok : (a.bundle fs { p with files := p.files.filter (· ≠ path) }).failure = none :=
    a.bundle_ok_of_files h fun f hf _ => (List.mem_filter.1 hf).1
  rw [a.text_bundle _ hok, a.text_bundle p.files h, join_map_filter]
  intro f _ hf
  obtain rfl : f = path := by simpa using hf
  rw [hnone]
  simp [contribution]

end Assembly

namespace Bundler

variable {b : Bundler} {site : Site} {fs fs' : FileSystem} {path text : String} {bytes : ByteArray}

/-- What is done in a run until the call of the compiler has ended. -/
def emitting (b : Bundler) (site : Site) : Action Unit := do
  let settings ← b.settings site
  Compiler.emitting site b.options.tsc b.options.timeout b.baseDir settings.options settings.files

/-- What the compiler wrote for a path in a run, below the directory for declarations. -/
def wrote? (b : Bundler) (site : Site) (fs : FileSystem) (path : String) : Option ByteArray :=
  (b.emitting site fs).files.content? site.cwd
    (Path.join (Compiler.declarationDir site) (Path.relative site.cwd path b.baseDir))

namespace Success

variable (w : b.Success site fs fs')

include w

theorem exists_reads : ∃ left, (Compiler.readDeclarations site b.baseDir (Compiler.declarationDir site) []
    w.program.files).Ends (b.emitting site fs).files w.program.declarations left := by
  obtain ⟨settled, _, hsettings, ⟨c⟩⟩ := w.exists_compilation
  rw [emitting, hsettings.bind_eq]
  exact ⟨c.left, c.reads_emitted⟩

theorem isUnder_of_isBundled (hpath : path ∈ w.program.files) (hbundled : w.assembly.isBundled path = true) :
    Path.isUnder b.baseDir path = true := by
  have hinside := Assembly.isInside_of_isBundled hbundled
  rwa [Assembly.isInside, w.normalize_of_mem hpath] at hinside

/-- A file is represented by what the compiler wrote where its declarations are looked for. -/
theorem declarations?_eq (hpath : path ∈ w.program.files) (hbundled : w.assembly.isBundled path = true)
    (hdecl : Module.isDeclaration path = false) :
    w.assembly.declarations? w.opened w.program path =
      (b.wrote? site fs (Module.declarationPath path)).bind Text.decode? := by
  obtain ⟨left, hreads⟩ := w.exists_reads
  have hlookup := Compiler.lookup_eq_declarationText? (fun g hg => w.normalize_of_mem hg) hpath hreads
  rw [Assembly.declarations?, hdecl, if_neg Bool.false_ne_true, w.normalize_of_mem hpath, hlookup,
    Compiler.declarationText?_eq_bind hdecl (w.isUnder_of_isBundled hpath hbundled), wrote?,
    Compiler.emittedPath]

theorem exists_decode?_of_wrote? (hpath : path ∈ w.program.files)
    (hbundled : w.assembly.isBundled path = true) (hdecl : Module.isDeclaration path = false)
    (hwrote : b.wrote? site fs (Module.declarationPath path) = some bytes) :
    ∃ text, Text.decode? bytes = some text := by
  obtain ⟨left, hreads⟩ := w.exists_reads
  exact Compiler.exists_decode?_of_ends hreads hpath hdecl (w.isUnder_of_isBundled hpath hbundled)
    (FileSystem.find?_of_content? hwrote)

/-- The bundle holds some bytes as the declarations of a file. -/
def Holds (path : String) (bytes : ByteArray) : Prop :=
  ∃ text, Text.decode? bytes = some text ∧ w.assembly.HoldsDeclarations w.opened w.program path text

/-- The bundle holds as the declarations of a file what was written where they are looked for. -/
theorem holds_iff (hpath : path ∈ w.program.files) (hbundled : w.assembly.isBundled path = true)
    (hdecl : Module.isDeclaration path = false) :
    w.Holds path bytes ↔ b.wrote? site fs (Module.declarationPath path) = some bytes := by
  have hiff := w.assembly.holdsDeclarations_iff w.failure_eq hpath hbundled
  have hgiven := w.declarations?_eq hpath hbundled hdecl
  constructor
  · rintro ⟨text, htext, hholds⟩
    rw [(hiff text).1 hholds, eq_comm, Option.bind_eq_some_iff] at hgiven
    obtain ⟨bytes', hwrote, htext'⟩ := hgiven
    rw [hwrote, ← Text.encode_of_decode? htext', Text.encode_of_decode? htext]
  · intro hwrote
    obtain ⟨text, htext⟩ := w.exists_decode?_of_wrote? hpath hbundled hdecl hwrote
    rw [hwrote, Option.bind_some, htext] at hgiven
    exact ⟨text, htext, (hiff text).2 hgiven⟩

/-- What becomes of the declarations that the compiler wrote of a file: the bundle holds them if they are
where they are looked for, and nothing of the file if nothing is there. -/
structure Keeps (s e : String) (bytes : ByteArray) : Prop where
  holds_iff : w.Holds (s ++ e) bytes ↔
    Module.IsForeseen s e ∨ b.wrote? site fs (Module.declarationPath (s ++ e)) = some bytes
  left_out : b.wrote? site fs (Module.declarationPath (s ++ e)) = none →
    w.text = (w.assembly.bundle w.opened
      { w.program with files := w.program.files.filter (· ≠ s ++ e) }).text

end Success

/-- A run that ends well wrote a bundle that holds the declarations that the compiler wrote of a bundled
file exactly if their path is foreseen, or the same is written where they are looked for. -/
theorem run_keeps (hrun : (b.run site).Ends fs () fs') :
    ∃ w : b.Success site fs fs', fs'.read site.cwd w.out = .ok (Text.encode w.text) ∧
      ∀ s e d bytes, (e, d) ∈ Module.sourceDeclarations ++ Module.scriptDeclarations →
        s ++ e ∈ w.program.files → w.assembly.isBundled (s ++ e) = true →
        Module.isDeclaration (s ++ e) = false → b.wrote? site fs (s ++ d) = some bytes →
          w.Keeps s e bytes := by
  obtain ⟨w⟩ := exists_success hrun
  refine ⟨w, w.read_out, fun s e d bytes hed hpath hbundled hdecl hwrote => ⟨?_, fun hnone => ?_⟩⟩
  · rw [w.holds_iff hpath hbundled hdecl]
    refine ⟨Or.inr, fun h => h.elim (fun hforeseen => ?_) id⟩
    rw [(Module.declarationPath_eq_iff hed hdecl).2 hforeseen, hwrote]
  · have hgiven := w.declarations?_eq hpath hbundled hdecl
    rw [hnone] at hgiven
    exact (w.assembly.text_bundle_without w.failure_eq hgiven).symm

/-- A script and a source, of both of which the compiler writes declarations. -/
def mixedSources : Bundler :=
  { twoScripts with
    options := { twoScripts.options with files := [.text "b.mjs", .text "c.mts"] } }

def mixedSourcesSite : Site :=
  { twoScriptsSite with
    answer := fun _ => .finished "/p/b.mjs\n/p/c.mts\n" "" 0
      [("b.d.mts", some (Text.encode "declare var b;\n")),
        ("c.d.mts", some (Text.encode "declare var c;\n"))] }

def mixedSourcesFiles : FileSystem :=
  ⟨[(["p"], .directory), (["tmp"], .directory),
    (["p", "b.mjs"], .file (Text.encode "var b;\n")),
    (["p", "c.mts"], .file (Text.encode "var c;\n"))]⟩

/-- The files after the run on the script and the source. -/
def mixedSourcesLeft : FileSystem := (mixedSources.run mixedSourcesSite mixedSourcesFiles).files

theorem ends_run_mixedSources :
    (mixedSources.run mixedSourcesSite).Ends mixedSourcesFiles () mixedSourcesLeft :=
  Action.ends_of_toOption_eq_some (by decide +kernel)

theorem wrote?_mixedSources :
    mixedSources.wrote? mixedSourcesSite mixedSourcesFiles "/p/b.d.mts" =
        some (Text.encode "declare var b;\n") ∧
      mixedSources.wrote? mixedSourcesSite mixedSourcesFiles "/p/c.d.mts" =
        some (Text.encode "declare var c;\n") := by
  decide +kernel

theorem facts_prepare_mixedSources :
    ∀ x ∈ (mixedSources.prepare mixedSourcesSite mixedSourcesFiles).result.toOption,
      let a := mixedSources.assembly mixedSourcesSite x.1.eol
      let fs := (mixedSources.prepare mixedSourcesSite mixedSourcesFiles).files
      x.2.1.files = ["/p/b.mjs", "/p/c.mts"] ∧ a.isBundled "/p/b.mjs" = true ∧
        a.isBundled "/p/c.mts" = true ∧ a.declarations? fs x.2.1 "/p/b.mjs" = none ∧
        (a.bundle fs x.2.1).text = "//\n// Auto-generated by dts-bundler\n//\n\ndeclare var c;\n" := by
  decide +kernel

theorem Success.facts_mixedSources
    (w : mixedSources.Success mixedSourcesSite mixedSourcesFiles mixedSourcesLeft) :
    w.program.files = ["/p/b.mjs", "/p/c.mts"] ∧ w.assembly.isBundled "/p/b.mjs" = true ∧
      w.assembly.isBundled "/p/c.mts" = true ∧
      w.assembly.declarations? w.opened w.program "/p/b.mjs" = none ∧
      w.text = "//\n// Auto-generated by dts-bundler\n//\n\ndeclare var c;\n" := by
  obtain ⟨hresult, hopened⟩ := w.prepare_ends
  have hfacts := facts_prepare_mixedSources (w.settings, w.program, w.out) (by rw [hresult]; rfl)
  rw [hopened] at hfacts
  exact hfacts

/-- What the compiler wrote of the script is in no place of the bundle. -/
theorem not_holds_mixedSources :
    (mixedSources.run mixedSourcesSite).Ends mixedSourcesFiles () mixedSourcesLeft ∧
      (".mjs", ".d.mts") ∈ Module.sourceDeclarations ++ Module.scriptDeclarations ∧
      Module.isDeclaration "/p/b.mjs" = false ∧
      mixedSources.wrote? mixedSourcesSite mixedSourcesFiles "/p/b.d.mts" =
        some (Text.encode "declare var b;\n") ∧
      ∃ w : mixedSources.Success mixedSourcesSite mixedSourcesFiles mixedSourcesLeft,
        "/p/b.mjs" ∈ w.program.files ∧ w.assembly.isBundled "/p/b.mjs" = true ∧
          w.text = "//\n// Auto-generated by dts-bundler\n//\n\ndeclare var c;\n" ∧
          ¬ w.Holds "/p/b.mjs" (Text.encode "declare var b;\n") := by
  obtain ⟨w⟩ := exists_success ends_run_mixedSources
  obtain ⟨hfiles, hbundled, -, hnone, htext⟩ := w.facts_mixedSources
  refine ⟨ends_run_mixedSources, by decide, by decide, wrote?_mixedSources.1, w, ?_, hbundled, htext, ?_⟩
  · rw [hfiles]
    exact List.mem_cons_self
  · rintro ⟨text, -, hholds⟩
    rw [hholds.given] at hnone
    cases hnone

theorem run_keeps_mixedSources :
    (mixedSources.run mixedSourcesSite).Ends mixedSourcesFiles () mixedSourcesLeft ∧
      ∃ w : mixedSources.Success mixedSourcesSite mixedSourcesFiles mixedSourcesLeft,
        mixedSourcesLeft.read mixedSourcesSite.cwd w.out = .ok (Text.encode w.text) ∧
          (".mts", ".d.mts") ∈ Module.sourceDeclarations ++ Module.scriptDeclarations ∧
          "/p/c" ++ ".mts" ∈ w.program.files ∧ w.assembly.isBundled ("/p/c" ++ ".mts") = true ∧
          Module.isDeclaration ("/p/c" ++ ".mts") = false ∧
          mixedSources.wrote? mixedSourcesSite mixedSourcesFiles ("/p/c" ++ ".d.mts") =
            some (Text.encode "declare var c;\n") ∧
          w.Keeps "/p/c" ".mts" (Text.encode "declare var c;\n") ∧
          w.Holds ("/p/c" ++ ".mts") (Text.encode "declare var c;\n") := by
  obtain ⟨w, hread, hkeeps⟩ := run_keeps ends_run_mixedSources
  obtain ⟨hfiles, -, hbundled, -, -⟩ := w.facts_mixedSources
  have hending : (".mts", ".d.mts") ∈ Module.sourceDeclarations ++ Module.scriptDeclarations := by decide
  have hlisted : "/p/c" ++ ".mts" ∈ w.program.files := by
    rw [hfiles]
    decide
  have hdecl : Module.isDeclaration ("/p/c" ++ ".mts") = false := by decide
  have hwrote : mixedSources.wrote? mixedSourcesSite mixedSourcesFiles ("/p/c" ++ ".d.mts") =
      some (Text.encode "declare var c;\n") := wrote?_mixedSources.2
  have hkept := hkeeps "/p/c" ".mts" ".d.mts" _ hending hlisted hbundled hdecl hwrote
  exact ⟨ends_run_mixedSources, w, hread, hending, hlisted, hbundled, hdecl, hwrote, hkept,
    hkept.holds_iff.2 (.inl (by decide))⟩

end Bundler

end DeclBundle
