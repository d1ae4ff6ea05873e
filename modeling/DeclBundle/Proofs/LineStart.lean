import DeclBundle.Proofs.Contribution
import DeclBundle.Proofs.Written
import DeclBundle.Yaml.Node
import Mathlib.Data.List.Induction

/-!
# Where lines begin

In a bundle every block of a module begins a line, since a line end stands before it, and so does the
block that stands for the package (`blocksBeginLines`). The text of a script is copied as it is, with
nothing before it, and begins a line only if what was written before it ends one. So all scripts begin
lines exactly if no script that another one follows ends inside a line (`scriptsBeginLines_iff`).
-/

namespace DeclBundle

namespace Text

/-- The characters at which a line of a declaration file ends, and with it a comment up to its end. -/
def endsLine (c : Char) : Bool := c = '\n' ∨ c = '\r' ∨ c = '\u2028' ∨ c = '\u2029'

/-- Behind a text a line begins: the text is empty or ends with a line end. -/
def AtLineStart (s : String) : Prop := ∀ c, s.toList.getLast? = some c → endsLine c = true

/-- A part begins a line of a text, and this stands before it. -/
structure BeginsLine (whole before part : String) : Prop where
  exists_rest : ∃ rest, whole = before ++ part ++ rest
  atLineStart : AtLineStart before

theorem atLineStart_empty : AtLineStart "" := fun c h => by simp at h

theorem atLineStart_append_of_ne {t : String} (ht : t ≠ "") (s : String) :
    AtLineStart (s ++ t) ↔ AtLineStart t := by
  have hne : t.toList ≠ [] := fun h => ht (String.toList_injective h)
  rw [AtLineStart, AtLineStart, String.toList_append, List.getLast?_append,
    List.getLast?_eq_some_getLast hne, Option.some_or]

theorem AtLineStart.append {s t : String} (hs : AtLineStart s) (ht : AtLineStart t) :
    AtLineStart (s ++ t) := by
  by_cases h : t = ""
  · rw [h, String.append_empty]
    exact hs
  · exact (atLineStart_append_of_ne h s).2 ht

end Text

theorem Settings.IsEol.ne_empty {eol : String} (h : IsEol eol) : eol ≠ "" := by
  rcases h with rfl | rfl <;> decide

theorem Settings.IsEol.atLineStart {eol : String} (h : IsEol eol) (s : String) :
    Text.AtLineStart (s ++ eol) := by
  rw [Text.atLineStart_append_of_ne h.ne_empty]
  rcases h with rfl | rfl
  · intro c hc
    obtain rfl : '\n' = c := by simpa using hc
    rfl
  · intro c hc
    obtain rfl : '\n' = c := by simpa using hc
    rfl

/-- A block begins with a line end and its opening line, and ends with a line end. -/
theorem Emission.block_eq (l : Layout) (id : String) (f : ParsedFile) :
    ∃ s, block l id f = l.eol ++ ("declare module '" ++ id ++ "' \x7b" ++ l.eol) ++ s ++ l.eol := by
  refine ⟨l.indent ++ nest l.eol l.indent (body id f) ++ l.eol ++ "\x7d", ?_⟩
  rw [block]
  simp only [String.append_assoc]

theorem ParsedFile.path_and_text {path text : String} {tree : SyntaxTree} {f : ParsedFile}
    (h : ofCst? path text tree = some f) : f.path = path ∧ f.text = text := by
  obtain ⟨-, hf⟩ := Option.ite_none_right_eq_some.1 h
  obtain rfl := Option.some.inj hf
  exact ⟨rfl, rfl⟩

namespace Assembly

open Text

variable (a : Assembly) (fs : FileSystem) (p : Program)

def file? (path : String) : Option ParsedFile :=
  if a.isBundled path then
    (a.declarations? fs p path).bind fun text =>
      ParsedFile.ofCst? (declaredPath path) text (a.tree text)
  else none

/-- The text of a bundle up to where the contributions of some files end. -/
def upTo (files : List String) : String :=
  a.opening ++ String.join (files.map fun f => a.contribution f (a.declarations? fs p f))

def blockLine (id : String) : String := "declare module '" ++ id ++ "' \x7b" ++ a.eol

/-- The blocks of modules begin lines. -/
structure BlocksBeginLines : Prop where
  file : ∀ before path after f, p.files = before ++ path :: after → a.file? fs p path = some f →
    f.isModule = true →
    BeginsLine (a.bundle fs p).text (a.upTo fs p before ++ a.eol)
      (a.blockLine (Module.idOf a.cwd a.baseDir f.path a.name))
  package : ∀ m, a.main = some m →
    BeginsLine (a.bundle fs p).text (a.upTo fs p p.files ++ a.eol) (a.blockLine a.name)

/-- The texts of scripts that are not empty begin lines. -/
def ScriptsBeginLines : Prop :=
  ∀ before path after f, p.files = before ++ path :: after → a.file? fs p path = some f →
    f.isModule = false → f.text ≠ "" →
    BeginsLine (a.bundle fs p).text (a.upTo fs p before) f.text

/-- A script ends with a line end if the next file that adds anything is a script. -/
def ScriptsEndLines : Prop :=
  ∀ before path between path' after f f', p.files = before ++ path :: (between ++ path' :: after) →
    a.file? fs p path = some f → f.isModule = false →
    (∀ q ∈ between, a.contribution q (a.declarations? fs p q) = "") →
    a.file? fs p path' = some f' → f'.isModule = false → f'.text ≠ "" →
    AtLineStart f.text

variable {a fs p}

theorem exists_of_file?_eq_some {path : String} {f : ParsedFile} (hf : a.file? fs p path = some f) :
    a.isBundled path = true ∧ ∃ text, a.declarations? fs p path = some text ∧
      ParsedFile.ofCst? (declaredPath path) text (a.tree text) = some f := by
  obtain ⟨hbundled, hbind⟩ := Option.ite_none_right_eq_some.1 hf
  exact ⟨hbundled, Option.bind_eq_some_iff.1 hbind⟩

theorem contribution_of_file?_eq_some {path : String} {f : ParsedFile}
    (hf : a.file? fs p path = some f) :
    a.contribution path (a.declarations? fs p path) = (a.emission f).text := by
  obtain ⟨hbundled, hbind⟩ := Option.ite_none_right_eq_some.1 hf
  rw [contribution, if_pos hbundled, hbind]

theorem contribution_of_file?_eq_none {path : String} (hf : a.file? fs p path = none) :
    a.contribution path (a.declarations? fs p path) = "" := by
  unfold contribution
  split
  case isTrue hbundled =>
    rw [file?, if_pos hbundled] at hf
    rw [hf]
  case isFalse => rfl

@[simp] theorem upTo_nil : a.upTo fs p [] = a.opening := String.append_empty

theorem upTo_append (xs ys : List String) :
    a.upTo fs p (xs ++ ys) =
      a.upTo fs p xs ++ String.join (ys.map fun f => a.contribution f (a.declarations? fs p f)) := by
  rw [upTo, upTo, List.map_append, String.join_append, String.append_assoc]

theorem upTo_append_singleton (xs : List String) (path : String) :
    a.upTo fs p (xs ++ [path]) = a.upTo fs p xs ++ a.contribution path (a.declarations? fs p path) := by
  rw [upTo_append, List.map_singleton, String.join_cons, String.join_nil, String.append_empty]

theorem upTo_append_of_empty {xs ys : List String}
    (h : ∀ q ∈ ys, a.contribution q (a.declarations? fs p q) = "") :
    a.upTo fs p (xs ++ ys) = a.upTo fs p xs := by
  rw [upTo_append]
  induction ys with
  | nil => exact String.append_empty
  | cons q ys ih =>
      rw [List.map_cons, String.join_cons, h q List.mem_cons_self, String.empty_append]
      exact ih fun q' hq' => h q' (List.mem_cons_of_mem q hq')

theorem atLineStart_opening (h : Settings.IsEol a.eol) : AtLineStart a.opening := by
  rw [opening]
  refine AtLineStart.append (h.atLineStart _) ?_
  generalize a.externs = externs
  induction externs with
  | nil => exact atLineStart_empty
  | cons path externs ih =>
      rw [List.map_cons, String.join_cons]
      exact AtLineStart.append (h.atLineStart _) ih

theorem closing_eq {m : String} (h : a.main = some m) :
    ∃ s, a.closing = a.eol ++ (a.blockLine a.name ++ s) := by
  refine ⟨a.indent.getD "" ++ "export * from '" ++ m ++ "';" ++ a.eol ++ "\x7d" ++ a.eol, ?_⟩
  unfold closing blockLine
  rw [h]
  simp only [String.append_assoc]

theorem text_eq_upTo (h : (a.bundle fs p).failure = none) {before after : List String}
    {path : String} (hfiles : p.files = before ++ path :: after) :
    ∃ rest, (a.bundle fs p).text =
      a.upTo fs p before ++ a.contribution path (a.declarations? fs p path) ++ rest := by
  have htext : (a.bundle fs p).text = a.upTo fs p p.files ++ a.closing := a.text_bundle p.files h
  refine ⟨String.join (after.map fun f => a.contribution f (a.declarations? fs p f)) ++ a.closing, ?_⟩
  rw [htext, hfiles, upTo_append, List.map_cons, String.join_cons]
  simp only [String.append_assoc]

/-- A file that goes into a bundle and has declarations adds what is emitted of them. -/
theorem Contributes.exists_file {path text added : String} {ds : List Diagnostic}
    (h : a.Contributes path (some text) ds added) (hbundled : a.isBundled path = true) :
    ∃ f, ParsedFile.ofCst? (declaredPath path) text (a.tree text) = some f ∧
      (a.emission f).failure = none ∧ added = (a.emission f).text := by
  rw [isBundled, Bool.and_eq_true, Bool.not_eq_true'] at hbundled
  cases h with
  | outside hin => simp [hin] at hbundled
  | excluded _ hex => simp [hex] at hbundled
  | emitted _ _ _ hf hok => exact ⟨_, hf, hok, rfl⟩

theorem Contributes.emission_ok {path text : String} {text? : Option String} {ds : List Diagnostic}
    {f : ParsedFile} (h : a.Contributes path text? ds text) (hbundled : a.isBundled path = true)
    (hf : (text?.bind fun text => ParsedFile.ofCst? (declaredPath path) text (a.tree text)) = some f) :
    (a.emission f).failure = none := by
  obtain ⟨_, rfl, hf⟩ := Option.bind_eq_some_iff.1 hf
  obtain ⟨_, hf', hok, -⟩ := h.exists_file hbundled
  obtain rfl := Option.some.inj (hf'.symm.trans hf)
  exact hok

/-- What a file adds to a bundle that succeeds: a block if it is a module, else its text. -/
theorem contribution_of_file? (h : (a.bundle fs p).failure = none) {path : String}
    (hmem : path ∈ p.files) {f : ParsedFile} (hf : a.file? fs p path = some f) :
    (f.isModule = false → a.contribution path (a.declarations? fs p path) = f.text) ∧
      (f.isModule = true → ∃ s, a.contribution path (a.declarations? fs p path) =
        a.eol ++ a.blockLine (Module.idOf a.cwd a.baseDir f.path a.name) ++ s ++ a.eol) := by
  have hok : (a.emission f).failure = none := by
    have hadds := a.adds_of_fragment (((a.bundle_failure_eq_none_iff fs p).1 h).1 path hmem)
    obtain ⟨hbundled, hbind⟩ := Option.ite_none_right_eq_some.1 hf
    exact hadds.2.emission_ok hbundled hbind
  rw [contribution_of_file?_eq_some hf]
  cases hindent : a.indent with
  | none =>
      simp only [emission, hindent] at hok ⊢
      exact ⟨fun hmodule => by simp [hmodule], fun hmodule => by simp [hmodule] at hok⟩
  | some i =>
      have htext : (a.emission f).text = (a.layout i).emission f := by simp only [emission, hindent]
      rw [htext]
      refine ⟨fun hmodule => if_neg (by simp [hmodule]), fun hmodule => ?_⟩
      obtain ⟨s, hs⟩ := Emission.block_eq (a.layout i) ((a.layout i).idOf f.path) f
      exact ⟨s, (if_pos hmodule).trans hs⟩

theorem blocksBeginLines (heol : Settings.IsEol a.eol) (h : (a.bundle fs p).failure = none) :
    a.BlocksBeginLines fs p where
  file before path after f hfiles hf hmodule := by
    obtain ⟨rest, htext⟩ := text_eq_upTo h hfiles
    obtain ⟨s, hs⟩ := (contribution_of_file? h (by simp [hfiles]) hf).2 hmodule
    refine ⟨⟨s ++ a.eol ++ rest, ?_⟩, heol.atLineStart _⟩
    rw [htext, hs]
    simp only [String.append_assoc]
  package m hmain := by
    have htext : (a.bundle fs p).text = a.upTo fs p p.files ++ a.closing := a.text_bundle p.files h
    obtain ⟨s, hs⟩ := closing_eq hmain
    refine ⟨⟨s, ?_⟩, heol.atLineStart _⟩
    rw [htext, hs]
    simp only [String.append_assoc]

/-- Behind the files before a script a line begins if the last of them that adds anything and is a
script ends with a line end. -/
theorem atLineStart_upTo (heol : Settings.IsEol a.eol) (h : (a.bundle fs p).failure = none)
    (hscripts : a.ScriptsEndLines fs p) {before between after : List String} {path : String}
    {f : ParsedFile} (hfiles : p.files = before ++ (between ++ path :: after))
    (hf : a.file? fs p path = some f) (hmodule : f.isModule = false) (hne : f.text ≠ "")
    (hbetween : ∀ q ∈ between, a.contribution q (a.declarations? fs p q) = "") :
    AtLineStart (a.upTo fs p before) := by
  induction before using List.reverseRecOn generalizing between with
  | nil => exact upTo_nil ▸ atLineStart_opening heol
  | append_singleton before q ih =>
      have hfiles' : p.files = before ++ q :: (between ++ path :: after) := by
        rw [hfiles, List.append_assoc, List.singleton_append]
      by_cases hq : a.contribution q (a.declarations? fs p q) = ""
      · -- A file that adds nothing is one more between.
        rw [upTo_append_of_empty (by simpa using hq)]
        have hmore : ∀ r ∈ q :: between, a.contribution r (a.declarations? fs p r) = "" :=
          List.forall_mem_cons.2 ⟨hq, hbetween⟩
        exact ih hfiles' hmore
      · rw [upTo_append_singleton, atLineStart_append_of_ne hq]
        cases hfile : a.file? fs p q with
        | none => exact absurd (contribution_of_file?_eq_none hfile) hq
        | some g =>
            obtain ⟨hscript, hblock⟩ := contribution_of_file? h (by simp [hfiles']) hfile
            cases hg : g.isModule with
            | false =>
                rw [hscript hg]
                exact hscripts before q between path after g f hfiles' hfile hg hbetween hf hmodule hne
            | true =>
                obtain ⟨s, hs⟩ := hblock hg
                rw [hs]
                exact heol.atLineStart _

/-- All scripts begin lines exactly if none that another one follows ends inside a line. -/
theorem scriptsBeginLines_iff (heol : Settings.IsEol a.eol) (h : (a.bundle fs p).failure = none) :
    a.ScriptsBeginLines fs p ↔ a.ScriptsEndLines fs p := by
  constructor
  · intro hbegin before path between path' after f f' hfiles hf hmodule hbetween hf' hmodule' hne
    have hfiles' : p.files = (before ++ path :: between) ++ path' :: after := by
      rw [hfiles, List.append_assoc, List.cons_append]
    have hstart := (hbegin _ path' after f' hfiles' hf' hmodule' hne).atLineStart
    have hscript := (contribution_of_file? h (by simp [hfiles]) hf).1 hmodule
    have hupTo : a.upTo fs p (before ++ path :: between) = a.upTo fs p before ++ f.text := by
      rw [← List.singleton_append, ← List.append_assoc, upTo_append_of_empty hbetween,
        upTo_append_singleton, hscript]
    rw [hupTo] at hstart
    by_cases hempty : f.text = ""
    · exact hempty ▸ atLineStart_empty
    · exact (atLineStart_append_of_ne hempty _).1 hstart
  · intro hscripts before path after f hfiles hf hmodule hne
    obtain ⟨rest, htext⟩ := text_eq_upTo h hfiles
    have hscript := (contribution_of_file? h (by simp [hfiles]) hf).1 hmodule
    rw [hscript] at htext
    have hnone : ∀ q ∈ ([] : List String), a.contribution q (a.declarations? fs p q) = "" :=
      List.forall_mem_nil _
    exact ⟨⟨rest, htext⟩, atLineStart_upTo heol h hscripts hfiles hf hmodule hne hnone⟩

end Assembly

namespace Bundler

/-- In the output file of a run that ends well all blocks begin lines, and all scripts do exactly if
none that another one follows ends inside a line. -/
theorem run_begins_lines {o : Options} {b : Bundler} {site : Site} {fs fs' : FileSystem}
    (hb : ofOptions site.cwd o = .ok b) (hrun : (b.run site).Ends fs () fs') :
    ∃ w : b.Success site fs fs', fs'.read site.cwd w.out = .ok (Text.encode w.text) ∧
      w.assembly.BlocksBeginLines w.opened w.program ∧
      (w.assembly.ScriptsBeginLines w.opened w.program ↔
        w.assembly.ScriptsEndLines w.opened w.program) := by
  obtain ⟨w⟩ := exists_success hrun
  have heol := w.isEol hb
  exact ⟨w, w.read_out, Assembly.blocksBeginLines heol w.failure_eq,
    Assembly.scriptsBeginLines_iff heol w.failure_eq⟩

/-- Two scripts, `// a` without a line end and `declare var b;` behind it. -/
def twoScripts : Bundler where
  options := {
    baseDir := .text "/p"
    name := .text "pkg"
    out := .text "/p/pkg.d.ts"
    files := [.text "a.d.ts", .text "b.d.ts"]
    excludes := []
    externs := []
    eol := .null
    indent := .text "\t"
    main := .null
    target := .null
    tsc := .null
    project := .null
    timeout := .null }
  baseDir := "/p"

def twoScriptsSite : Site where
  cwd := "/p"
  temporary := "/tmp"
  tokens := ⟨"x", "y"⟩
  environment := []
  installed := some "/bin/tsc"
  answer _ := .finished "/p/a.d.ts\n/p/b.d.ts\n" "" 0 []
  tree text :=
    if text = "// a" then
      ⟨⟨⟨"program", true, none⟩, 0, 4, [⟨⟨"comment", true, none⟩, 0, 4, []⟩]⟩, false⟩
    else
      ⟨⟨⟨"program", true, none⟩, 0, 15, [
        ⟨⟨"ambient_declaration", true, none⟩, 0, 14, [
          ⟨⟨"declare", false, none⟩, 0, 7, []⟩,
          ⟨⟨"variable_declaration", true, none⟩, 8, 14, [
            ⟨⟨"var", false, none⟩, 8, 11, []⟩,
            ⟨⟨"variable_declarator", true, none⟩, 12, 13, [
              ⟨⟨"identifier", true, some "name"⟩, 12, 13, []⟩]⟩,
            ⟨⟨";", false, none⟩, 13, 14, []⟩]⟩]⟩]⟩, false⟩
  yaml := Yaml.simpleReader

def twoScriptsFiles : FileSystem :=
  ⟨[(["p"], .directory), (["tmp"], .directory),
    (["p", "a.d.ts"], .file (Text.encode "// a")),
    (["p", "b.d.ts"], .file (Text.encode "declare var b;\n"))]⟩

/-- The files after the run on the two scripts. -/
def twoScriptsLeft : FileSystem := (twoScripts.run twoScriptsSite twoScriptsFiles).files

theorem ofOptions_twoScripts : ofOptions twoScriptsSite.cwd twoScripts.options = .ok twoScripts :=
  ofOptions_eq_ok (by decide +kernel) rfl (by decide +kernel)

theorem ends_run_twoScripts : (twoScripts.run twoScriptsSite).Ends twoScriptsFiles () twoScriptsLeft :=
  Action.ends_of_toOption_eq_some (by decide +kernel)

/-- What is declared behind a comment that ends no line is in the comment. -/
theorem not_scriptsBeginLines_twoScripts :
    ofOptions twoScriptsSite.cwd twoScripts.options = .ok twoScripts ∧
      (twoScripts.run twoScriptsSite).Ends twoScriptsFiles () twoScriptsLeft ∧
      ∃ w : twoScripts.Success twoScriptsSite twoScriptsFiles twoScriptsLeft,
        w.text = "//\n// Auto-generated by dts-bundler\n//\n\n// adeclare var b;\n" ∧
          ¬ w.assembly.ScriptsBeginLines w.opened w.program := by
  obtain ⟨w⟩ := exists_success ends_run_twoScripts
  refine ⟨ofOptions_twoScripts, ends_run_twoScripts, w, ?_⟩
  have hfacts : ∀ x ∈ (twoScripts.prepare twoScriptsSite twoScriptsFiles).result.toOption,
      let a := twoScripts.assembly twoScriptsSite x.1.eol
      let fs := (twoScripts.prepare twoScriptsSite twoScriptsFiles).files
      (a.bundle fs x.2.1).text =
          "//\n// Auto-generated by dts-bundler\n//\n\n// adeclare var b;\n" ∧
        x.2.1.files = ["/p/a.d.ts", "/p/b.d.ts"] ∧
        ((a.file? fs x.2.1 "/p/b.d.ts").map fun f => (f.isModule, f.text)) =
          some (false, "declare var b;\n") ∧
        (a.upTo fs x.2.1 ["/p/a.d.ts"]).toList.getLast? = some 'a' := by
    decide +kernel
  obtain ⟨hresult, hopened⟩ := w.prepare_ends
  obtain ⟨htext, hfiles, hfile, hlast⟩ := hfacts (w.settings, w.program, w.out) (by rw [hresult]; rfl)
  rw [hopened] at htext hfile hlast
  refine ⟨htext, fun hbegin => ?_⟩
  obtain ⟨f, hf, hpair⟩ := Option.map_eq_some_iff.1 hfile
  obtain ⟨hmodule, hf'⟩ := Prod.mk.inj hpair
  have hstart := hbegin ["/p/a.d.ts"] "/p/b.d.ts" [] f hfiles hf hmodule (by rw [hf']; decide)
  exact absurd (hstart.atLineStart 'a' hlast) (by decide)

theorem run_begins_lines_twoScripts :
    ofOptions twoScriptsSite.cwd twoScripts.options = .ok twoScripts ∧
      (twoScripts.run twoScriptsSite).Ends twoScriptsFiles () twoScriptsLeft ∧
      ∃ w : twoScripts.Success twoScriptsSite twoScriptsFiles twoScriptsLeft,
        twoScriptsLeft.read twoScriptsSite.cwd w.out = .ok (Text.encode w.text) ∧
          w.assembly.BlocksBeginLines w.opened w.program ∧
          (w.assembly.ScriptsBeginLines w.opened w.program ↔
            w.assembly.ScriptsEndLines w.opened w.program) :=
  ⟨ofOptions_twoScripts, ends_run_twoScripts,
    run_begins_lines ofOptions_twoScripts ends_run_twoScripts⟩

end Bundler

end DeclBundle
