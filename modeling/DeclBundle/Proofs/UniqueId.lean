import DeclBundle.Proofs.Compilation
import DeclBundle.Proofs.DeclarationPath
import DeclBundle.Proofs.LineStart
import DeclBundle.Proofs.Places
import Mathlib.Data.List.Basic

/-!
# Ids that files share

Of the way to a file its id leaves out the extension. So two files under the base directory share an id
exactly if they lie in one directory under names that differ in nothing but their extensions
(`SameModule`, `idOf_eq_iff`), like the two declaration files `a.d.ts` and `a.d.mts`, and like a source and
the file of its declarations (`declarationPath_sharesId`). The ids in a finished bundle are distinct exactly
if no two of its files are of this kind (`run_tellsApart`).
-/

namespace DeclBundle

theorem Text.join_inj {xs ys : List (List Char)} (hx : ∀ x ∈ xs, '/' ∉ x) (hy : ∀ y ∈ ys, '/' ∉ y)
    (hxne : xs ≠ []) (hyne : ys ≠ []) : join ['/'] xs = join ['/'] ys ↔ xs = ys := by
  constructor
  · intro h
    rw [← pieces_join hxne hx, h, pieces_join hyne hy]
  · rintro rfl
    rfl

/-- A path that lies under a directory and is more than an anchor. -/
def Path.NamedUnder (dir p : String) : Prop := StrictlyUnder dir p ∧ name (normalize p) ≠ ""

namespace Module

open DeclBundle.Path

variable {cwd baseDir name f g : String}

/-- Two files lie in one directory, under names that differ at most in their extensions. -/
def SameModule (f g : String) : Prop :=
  stepsOf (directory (Path.normalize f)).toList = stepsOf (directory (Path.normalize g)).toList ∧
    stripExtension (Path.name (Path.normalize f)) = stripExtension (Path.name (Path.normalize g))

instance (f g : String) : Decidable (SameModule f g) := inferInstanceAs (Decidable (_ ∧ _))

theorem sameModule_iff {steps fdirs gdirs : List (List Char)} {m n : List Char}
    (hf : Rooted (normal f.toList) (steps ++ (fdirs ++ [m])))
    (hg : Rooted (normal g.toList) (steps ++ (gdirs ++ [n]))) :
    SameModule f g ↔ fdirs = gdirs ∧
      stripExtension (String.ofList m) = stripExtension (String.ofList n) := by
  rw [← List.append_assoc] at hf hg
  rw [SameModule, (rooted_directory_of_name hf).stepsOf_eq, (rooted_directory_of_name hg).stepsOf_eq,
    List.append_cancel_left_eq, name_of_rooted hf, name_of_rooted hg]

/-- Files under the base directory share an id exactly if they are one module. -/
theorem idOf_eq_iff (hb : isAbsolute baseDir = true) (hf : NamedUnder baseDir f)
    (hg : NamedUnder baseDir g) : idOf cwd baseDir f name = idOf cwd baseDir g name ↔ SameModule f g := by
  obtain ⟨steps, hbase⟩ := exists_rooted_of_isAbsolute hb
  obtain ⟨fdirs, m, hfway⟩ := exists_steps_of_name hbase hf.1 hf.2
  obtain ⟨gdirs, n, hgway⟩ := exists_steps_of_name hbase hg.1 hg.2
  have hsegments : ∀ {p : String} {dirs : List (List Char)} {k : List Char},
      Rooted (normal p.toList) (steps ++ (dirs ++ [k])) →
        ∀ s ∈ Text.pieces '/' name.toList ++ dirs ++ [(stripExtension (String.ofList k)).toList],
          '/' ∉ s := by
    intro p dirs k hp s hs
    simp only [List.mem_append, List.mem_singleton] at hs
    obtain (hs | hs) | rfl := hs
    · exact Text.not_mem_of_mem_pieces hs
    · exact (hp.1 s (by simp [hs])).2
    · exact not_mem_stripExtension (hp.1 k (by simp)).2
  rw [← String.toList_inj, toList_idOf_of_name hbase hfway, toList_idOf_of_name hbase hgway,
    Text.join_inj (hsegments hfway) (hsegments hgway) (by simp) (by simp), sameModule_iff hfway hgway,
    List.append_assoc, List.append_assoc, List.append_cancel_left_eq, List.append_singleton_inj,
    String.toList_inj]

theorem idOf_declarationPath_of_namedUnder (hb : isAbsolute baseDir = true)
    (hnormal : Path.normalize f = f) (hf : NamedUnder baseDir f) (cwd name : String) :
    idOf cwd baseDir (declarationPath f) name = idOf cwd baseDir f name := by
  obtain ⟨steps, hbase⟩ := exists_rooted_of_isAbsolute hb
  obtain ⟨dirs, n, hway⟩ := exists_steps_of_name hbase hf.1 hf.2
  exact idOf_declarationPath hbase hway hnormal cwd name

/-- The path of declarations is that of a declaration file, where nothing is left to be done: it is its own
path of declarations and loses the extension that the file loses. So a file and its declarations share an
id. -/
theorem declarationPath_sharesId (p : String) :
    isDeclaration (declarationPath p) = true ∧ declarationPath (declarationPath p) = declarationPath p ∧
      stripExtension (declarationPath p) = stripExtension p ∧
      ∀ cwd baseDir name, isAbsolute baseDir = true → Path.normalize p = p → NamedUnder baseDir p →
        idOf cwd baseDir (declarationPath p) name = idOf cwd baseDir p name := by
  have hdecl := isDeclaration_declarationPath p
  exact ⟨hdecl, declarationPath_of_isDeclaration hdecl, stripExtension_declarationPath p,
    fun cwd _ name hb hnormal hp => idOf_declarationPath_of_namedUnder hb hnormal hp cwd name⟩

/-- A source whose name ends in the endings of a declaration file and of a source. -/
theorem declarationPath_sharesId_doubled :
    declarationPath "/lib/x/a.d.mts.ts" = "/lib/x/a.d.mts.d.ts" ∧
      isAbsolute "/lib/./" = true ∧ Path.normalize "/lib/x/a.d.mts.ts" = "/lib/x/a.d.mts.ts" ∧
      NamedUnder "/lib/./" "/lib/x/a.d.mts.ts" ∧
      idOf "/" "/lib/./" "/lib/x/a.d.mts.ts" "pkg" = "pkg/x/a.d.mts" ∧
      idOf "/" "/lib/./" "/lib/x/a.d.mts.d.ts" "pkg" = "pkg/x/a.d.mts" := by
  have hpath : declarationPath "/lib/x/a.d.mts.ts" = "/lib/x/a.d.mts.d.ts" := by decide +kernel
  have hid : idOf "/" "/lib/./" "/lib/x/a.d.mts.ts" "pkg" = "pkg/x/a.d.mts" := by decide +kernel
  have hnormal : Path.normalize "/lib/x/a.d.mts.ts" = "/lib/x/a.d.mts.ts" := by decide +kernel
  have hunder : NamedUnder "/lib/./" "/lib/x/a.d.mts.ts" := ⟨⟨by decide, by decide⟩, by decide⟩
  have hshared := (declarationPath_sharesId "/lib/x/a.d.mts.ts").2.2.2 "/" "/lib/./" "pkg" (by decide)
    hnormal hunder
  rw [hpath] at hshared
  exact ⟨hpath, by decide, hnormal, hunder, hid, hshared.trans hid⟩

end Module

namespace Assembly

variable {a : Assembly} {fs : FileSystem} {p : Program}

/-- The declarations of a file that goes into a bundle as a module. -/
def module? (a : Assembly) (fs : FileSystem) (p : Program) (path : String) : Option ParsedFile :=
  (a.file? fs p path).filter ParsedFile.isModule

/-- The ids of the modules in a bundle, in order. -/
def blockIds (a : Assembly) (fs : FileSystem) (p : Program) : List String :=
  p.files.filterMap fun path =>
    (a.module? fs p path).map fun f => Module.idOf a.cwd a.baseDir f.path a.name

/-- Which ids in a bundle are distinct: those of the bundled files, those of the blocks, and those of
excluded files from those of bundled ones. -/
structure TellsApart (a : Assembly) (fs : FileSystem) (p : Program) : Prop where
  sameId_iff : ∀ f ∈ p.files, ∀ g ∈ p.files, a.isInside f = true → a.isInside g = true →
    (a.idOf f = a.idOf g ↔ Module.SameModule f g)
  files_iff : ((p.files.filter a.isBundled).map a.idOf).Nodup ↔
    (p.files.filter a.isBundled).Pairwise fun f g => ¬ Module.SameModule f g
  blocks_iff : (a.blockIds fs p).Nodup ↔
    (p.files.filter fun f => (a.module? fs p f).isSome).Pairwise fun f g => ¬ Module.SameModule f g
  package : a.name ∉ a.blockIds fs p
  excluded_iff : (∀ f ∈ p.files, a.isBundled f = true →
      a.idOf f ∉ Bundler.excludedIds (a.bundle fs p).events) ↔
    ∀ f ∈ p.files, ∀ g ∈ p.files, a.isBundled f = true → a.isInside g = true →
      a.isExcluded g = true → ¬ Module.SameModule f g

theorem idOf_ne_name (cwd baseDir path name : String) : Module.idOf cwd baseDir path name ≠ name := by
  intro h
  have hlength := congrArg (fun s => s.toList.length) h
  simp only [Module.idOf, String.toList_append, List.length_append] at hlength
  have hslash : "/".toList.length = 1 := rfl
  omega

theorem isInside_of_isBundled {path : String} (h : a.isBundled path = true) : a.isInside path = true := by
  rw [isBundled, Bool.and_eq_true] at h
  exact h.1

theorem path_of_file? {path : String} {f : ParsedFile} (h : a.file? fs p path = some f) :
    a.isBundled path = true ∧ f.path = declaredPath path := by
  obtain ⟨hbundled, _, -, hf⟩ := exists_of_file?_eq_some h
  exact ⟨hbundled, (ParsedFile.path_and_text hf).1⟩

theorem idOf_declaredPath {path : String} (hb : Path.isAbsolute a.baseDir = true)
    (hnamed : Path.NamedUnder a.baseDir path) (hnormal : Path.normalize path = path) :
    Module.idOf a.cwd a.baseDir (declaredPath path) a.name = a.idOf path := by
  unfold declaredPath idOf
  split
  · rfl
  · rw [hnormal, Module.idOf_declarationPath_of_namedUnder hb hnormal hnamed]

theorem isBundled_of_module? {path : String} (h : (a.module? fs p path).isSome = true) :
    a.isBundled path = true := by
  obtain ⟨f, hf⟩ := Option.isSome_iff_exists.1 h
  exact (path_of_file? (Option.filter_eq_some_iff.1 hf).1).1

theorem blockIds_eq_map (hb : Path.isAbsolute a.baseDir = true)
    (hnamed : ∀ path ∈ p.files, a.isInside path = true → Path.NamedUnder a.baseDir path)
    (hnormal : ∀ path ∈ p.files, Path.normalize path = path) :
    a.blockIds fs p = (p.files.filter fun f => (a.module? fs p f).isSome).map a.idOf := by
  rw [blockIds, ← List.filterMap_eq_map, List.filterMap_filter]
  apply List.filterMap_congr
  intro path hpath
  cases hmodule : a.module? fs p path with
  | none => rfl
  | some f =>
      obtain ⟨hbundled, hf⟩ := path_of_file? (Option.filter_eq_some_iff.1 hmodule).1
      have hinside := isInside_of_isBundled hbundled
      have hid := idOf_declaredPath hb (hnamed path hpath hinside) (hnormal path hpath)
      rw [Option.map_some, hf, hid]
      rfl

/-- Where the files share ids as modules do, the ids of a row are distinct exactly if its modules are. -/
theorem nodup_map_idOf_iff {files : List String}
    (h : ∀ f ∈ files, ∀ g ∈ files, (a.idOf f = a.idOf g ↔ Module.SameModule f g)) :
    (files.map a.idOf).Nodup ↔ files.Pairwise fun f g => ¬ Module.SameModule f g := by
  rw [List.Nodup, List.pairwise_map]
  exact List.Pairwise.iff_of_mem fun hf hg => not_congr (h _ hf _ hg)

theorem mem_excludedIds_iff (h : (a.bundle fs p).failure = none) {id : String} :
    id ∈ Bundler.excludedIds (a.bundle fs p).events ↔
      ∃ f ∈ p.files, a.isInside f = true ∧ a.isExcluded f = true ∧ a.idOf f = id := by
  have hids : Bundler.excludedIds (a.bundle fs p).events =
      ((p.files.filter fun f => a.isInside f && a.isExcluded f).map a.idOf).eraseDups :=
    congrArg List.eraseDups (a.exclusions_bundle h)
  rw [hids, List.mem_eraseDups, List.mem_map]
  simp only [List.mem_filter, Bool.and_eq_true, and_assoc]

/-- In a bundle that succeeds ids are distinct exactly if no two of the files in question are one module. -/
theorem tellsApart (hb : Path.isAbsolute a.baseDir = true) (h : (a.bundle fs p).failure = none)
    (hnamed : ∀ path ∈ p.files, a.isInside path = true → Path.NamedUnder a.baseDir path)
    (hnormal : ∀ path ∈ p.files, Path.normalize path = path) : a.TellsApart fs p := by
  have hsame : ∀ f ∈ p.files, ∀ g ∈ p.files, a.isInside f = true → a.isInside g = true →
      (a.idOf f = a.idOf g ↔ Module.SameModule f g) := by
    intro f hf g hg hfin hgin
    rw [idOf, idOf, hnormal f hf, hnormal g hg]
    exact Module.idOf_eq_iff hb (hnamed f hf hfin) (hnamed g hg hgin)
  have hfilter : ∀ keep : String → Bool, (∀ f, keep f = true → a.isBundled f = true) →
      ∀ f ∈ p.files.filter keep, ∀ g ∈ p.files.filter keep,
        (a.idOf f = a.idOf g ↔ Module.SameModule f g) := by
    intro keep hkeep f hf g hg
    obtain ⟨hf, hfkeep⟩ := List.mem_filter.1 hf
    obtain ⟨hg, hgkeep⟩ := List.mem_filter.1 hg
    exact hsame f hf g hg (isInside_of_isBundled (hkeep f hfkeep)) (isInside_of_isBundled (hkeep g hgkeep))
  constructor
  case sameId_iff => exact hsame
  case files_iff => exact nodup_map_idOf_iff (hfilter a.isBundled fun _ hf => hf)
  case blocks_iff =>
    rw [blockIds_eq_map hb hnamed hnormal]
    exact nodup_map_idOf_iff (hfilter _ fun _ => isBundled_of_module?)
  case package =>
    rw [blockIds_eq_map hb hnamed hnormal, List.mem_map]
    rintro ⟨f, -, hid⟩
    exact idOf_ne_name _ _ _ _ hid
  case excluded_iff =>
    constructor
    · intro hdistinct f hf g hg hfb hgin hgex hmodule
      refine hdistinct f hf hfb ((mem_excludedIds_iff h).2 ⟨g, hg, hgin, hgex, ?_⟩)
      exact ((hsame f hf g hg (isInside_of_isBundled hfb) hgin).2 hmodule).symm
    · intro hapart f hf hfb hid
      obtain ⟨g, hg, hgin, hgex, heq⟩ := (mem_excludedIds_iff h).1 hid
      exact hapart f hf g hg hfb hgin hgex
        ((hsame f hf g hg (isInside_of_isBundled hfb) hgin).1 heq.symm)

end Assembly

namespace Bundler

variable {o : Options} {b : Bundler} {site : Site} {fs fs' : FileSystem}

theorem isAbsolute_of_ofOptions (hcwd : Path.isAbsolute site.cwd = true)
    (hb : ofOptions site.cwd o = .ok b) : Path.isAbsolute b.baseDir = true := by
  obtain ⟨-, -, dir, hdir⟩ := of_ofOptions hb
  obtain ⟨steps, hrooted⟩ := Path.rooted_absolute hcwd dir
  rw [hdir]
  exact Path.isAbsolute_iff.2 hrooted.exists_cons

theorem Success.normalize_of_mem (w : b.Success site fs fs') {path : String}
    (hpath : path ∈ w.program.files) : Path.normalize path = path := by
  obtain ⟨_, _, -, ⟨c⟩⟩ := w.exists_compilation
  rw [c.files_eq] at hpath
  obtain ⟨steps, hrooted⟩ := Report.rooted_of_read c.read_eq hpath
  exact hrooted.normalize_eq

/-- A run that ends well wrote blocks under ids that are distinct exactly if no two of its modules lie in
one directory under names that only differ in their extensions. -/
theorem run_tellsApart (hcwd : Path.isAbsolute site.cwd = true) (hb : ofOptions site.cwd o = .ok b)
    (hrun : (b.run site).Ends fs () fs') :
    ∃ w : b.Success site fs fs', fs'.read site.cwd w.out = .ok (Text.encode w.text) ∧
      w.assembly.BlocksBeginLines w.opened w.program ∧
      ((∀ path ∈ w.program.files, w.assembly.isInside path = true → Path.NamedUnder b.baseDir path) →
        w.assembly.TellsApart w.opened w.program) := by
  obtain ⟨w⟩ := exists_success hrun
  have hbase : Path.isAbsolute w.assembly.baseDir = true := isAbsolute_of_ofOptions hcwd hb
  refine ⟨w, w.read_out, Assembly.blocksBeginLines (w.isEol hb) w.failure_eq, fun hnamed => ?_⟩
  exact Assembly.tellsApart hbase w.failure_eq hnamed fun path hpath => w.normalize_of_mem hpath

/-- Two modules in declaration files of different kinds. -/
def twins : Bundler :=
  { twoScripts with
    options := { twoScripts.options with files := [.text "a.d.ts", .text "a.d.mts"] } }

def twinsSite : Site :=
  { twoScriptsSite with
    answer := fun _ => .finished "/p/a.d.ts\n/p/a.d.mts\n" "" 0 []
    tree := Assembly.mixed.tree }

def twinsFiles : FileSystem :=
  ⟨[(["p"], .directory), (["tmp"], .directory),
    (["p", "a.d.ts"], .file (Text.encode "export \x7b\x7d;\n")),
    (["p", "a.d.mts"], .file (Text.encode "export \x7b\x7d;\n"))]⟩

/-- The files after the run on the two modules. -/
def twinsLeft : FileSystem := (twins.run twinsSite twinsFiles).files

theorem ofOptions_twins : ofOptions twinsSite.cwd twins.options = .ok twins :=
  ofOptions_eq_ok (by decide +kernel) rfl (by decide +kernel)

theorem ends_run_twins : (twins.run twinsSite).Ends twinsFiles () twinsLeft :=
  Action.ends_of_toOption_eq_some (by decide +kernel)

theorem facts_prepare_twins : ∀ x ∈ (twins.prepare twinsSite twinsFiles).result.toOption,
    x.2.1.files = ["/p/a.d.ts", "/p/a.d.mts"] ∧
      (twins.assembly twinsSite x.1.eol).blockIds (twins.prepare twinsSite twinsFiles).files x.2.1 =
        ["pkg/a", "pkg/a"] := by
  decide +kernel

theorem Success.facts_twins (w : twins.Success twinsSite twinsFiles twinsLeft) :
    w.program.files = ["/p/a.d.ts", "/p/a.d.mts"] ∧
      w.assembly.blockIds w.opened w.program = ["pkg/a", "pkg/a"] := by
  obtain ⟨hresult, hopened⟩ := w.prepare_ends
  obtain ⟨hfiles, hids⟩ := facts_prepare_twins (w.settings, w.program, w.out) (by rw [hresult]; rfl)
  rw [hopened] at hids
  exact ⟨hfiles, hids⟩

/-- Both modules are declared under one id. -/
theorem not_nodup_blockIds_twins :
    ofOptions twinsSite.cwd twins.options = .ok twins ∧
      (twins.run twinsSite).Ends twinsFiles () twinsLeft ∧
      ∃ w : twins.Success twinsSite twinsFiles twinsLeft,
        w.program.files = ["/p/a.d.ts", "/p/a.d.mts"] ∧
          w.assembly.blockIds w.opened w.program = ["pkg/a", "pkg/a"] ∧
          ¬ (w.assembly.blockIds w.opened w.program).Nodup := by
  obtain ⟨w⟩ := exists_success ends_run_twins
  obtain ⟨hfiles, hids⟩ := w.facts_twins
  refine ⟨ofOptions_twins, ends_run_twins, w, hfiles, hids, ?_⟩
  rw [hids]
  decide

theorem run_tellsApart_twins :
    Path.isAbsolute twinsSite.cwd = true ∧ ofOptions twinsSite.cwd twins.options = .ok twins ∧
      (twins.run twinsSite).Ends twinsFiles () twinsLeft ∧
      ∃ w : twins.Success twinsSite twinsFiles twinsLeft,
        twinsLeft.read twinsSite.cwd w.out = .ok (Text.encode w.text) ∧
          w.assembly.BlocksBeginLines w.opened w.program ∧
          (∀ path ∈ w.program.files, w.assembly.isInside path = true →
            Path.NamedUnder twins.baseDir path) ∧
          w.assembly.TellsApart w.opened w.program := by
  have hcwd : Path.isAbsolute twinsSite.cwd = true := by decide
  obtain ⟨w, hread, hblocks, htells⟩ := run_tellsApart hcwd ofOptions_twins ends_run_twins
  have hnamed : ∀ path ∈ w.program.files, w.assembly.isInside path = true →
      Path.NamedUnder twins.baseDir path := by
    intro path hpath _
    rw [w.facts_twins.1] at hpath
    have hall : ∀ path ∈ ["/p/a.d.ts", "/p/a.d.mts"], Path.isUnder "/p" path = true ∧
        Path.normalize path ≠ Path.normalize "/p" ∧ Path.name (Path.normalize path) ≠ "" := by decide
    obtain ⟨hunder, hne, hname⟩ := hall path hpath
    exact ⟨⟨hunder, hne⟩, hname⟩
  exact ⟨hcwd, ofOptions_twins, ends_run_twins, w, hread, hblocks, hnamed, htells hnamed⟩

end Bundler

end DeclBundle
