import DeclBundle.Proofs.Compilation
import DeclBundle.Proofs.FailFast

/-!
# Which diagnostics are heeded

A run pays attention to two kinds of diagnostics (`Bundler.heeds`): errors of the program as a whole, and
whatever is said about a file that goes into the bundle and is no declaration file. A run that ends well
had a report without heeded diagnostics, and with another report of the same files it would have ended in
the same way exactly if that has none either (`run_heeds`). So an error in a file that is not listed, such
as the configuration with which the compiler was called, goes unnoticed.
-/

namespace DeclBundle

open DeclBundle.Action

/-- Whether every error in a report is about one of its files. -/
def Report.ErrorsListed (r : Report) : Prop :=
  ∀ d ∈ r.diagnostics, d.category = .error → ∃ path ∈ r.files, d.isOf path = true

instance (r : Report) : Decidable r.ErrorsListed :=
  inferInstanceAs (Decidable (∀ d ∈ r.diagnostics, d.category = .error →
    ∃ path ∈ r.files, d.isOf path = true))

theorem Program.diagnosticsOf_eq_filter (p : Program) (path : String) :
    p.diagnosticsOf path = p.diagnostics.filter fun d => d.isOf path := rfl

def Event.directory? : Event → Option String
  | .call c => some c.directory
  | _ => none

namespace Assembly

variable {a : Assembly} {fs : FileSystem} {p : Program} {path : String} {ds : List Diagnostic}

/-- Only what is said about a source that goes into the bundle makes a difference to it. -/
theorem fragment_reporting (h : a.isBundled path = true → Module.isDeclaration path = false →
      ({ p with diagnostics := ds } : Program).diagnosticsOf path = p.diagnosticsOf path) :
    a.fragment fs { p with diagnostics := ds } path = a.fragment fs p path := by
  cases hbundled : a.isBundled path with
  | false => rw [fragment_of_not_isBundled hbundled, fragment_of_not_isBundled hbundled]
  | true =>
      rw [fragment_of_isBundled hbundled, fragment_of_isBundled hbundled, made, made]
      cases hdecl : Module.isDeclaration path with
      | true => rfl
      | false =>
          simp only [compiled, Program.emitted, h hbundled hdecl]
          rfl

theorem bundle_reporting (h : ∀ path ∈ p.files, a.isBundled path = true →
      Module.isDeclaration path = false →
      ({ p with diagnostics := ds } : Program).diagnosticsOf path = p.diagnosticsOf path) :
    a.bundle fs { p with diagnostics := ds } = a.bundle fs p := by
  rw [bundle, bundle, Fragment.chain_congr fun path hpath => fragment_reporting (h path hpath)]

theorem diagnosticsOf_eq_nil (hbundle : (a.bundle fs p).failure = none) (hpath : path ∈ p.files)
    (hbundled : a.isBundled path = true) (hdecl : Module.isDeclaration path = false) :
    p.diagnosticsOf path = [] := by
  have hok := ((a.bundle_failure_eq_none_iff fs p).1 hbundle).1 path hpath
  by_contra hne
  have hfaulty : a.isFaulty p path = true := by simp [isFaulty, hbundled, hdecl, hne]
  rw [fragment_failure_of_isFaulty hfaulty] at hok
  cases hok

theorem directory?_eq_none_of_mem_bundle (hbundle : (a.bundle fs p).failure = none) {e : Event}
    (he : e ∈ (a.bundle fs p).events) : e.directory? = none := by
  have hreferences : (a.externs.flatMap fun path => (a.reference path).told Event.directory?) = [] :=
    List.flatMap_eq_nil_iff.2 fun _ _ => rfl
  have hfates : ((p.files.filter a.isInside).flatMap fun f => (a.fate f).filterMap Event.directory?) =
      [] := by
    refine List.flatMap_eq_nil_iff.2 fun f _ => ?_
    unfold fate
    split
    · rfl
    · rfl
  have hmain : a.mainBlock.told Event.directory? = [] := by
    unfold mainBlock
    split
    · rfl
    · split
      · rfl
      · rfl
  have htold : (a.bundle fs p).told Event.directory? = [] := by
    rw [a.told_bundle (fun _ _ => rfl) hbundle, hreferences, hfates, hmain, List.append_nil,
      List.append_nil]
  exact List.filterMap_eq_nil_iff.1 htold e he

end Assembly

namespace Bundler

variable {b : Bundler} {site : Site} {fs fs' : FileSystem} {d : Diagnostic} {files : List String}

/-- Whether a run pays attention to a diagnostic, if the program has some files: to errors of the program as
a whole, and to all diagnostics of a file that goes into the bundle and is no declaration file. -/
def heeds (b : Bundler) (site : Site) (files : List String) (d : Diagnostic) : Bool :=
  d.isGlobalError || files.any fun path =>
    (b.assembly site "\n").isBundled path && !Module.isDeclaration path && d.isOf path

theorem heeds_eq_false_iff : b.heeds site files d = false ↔
    d.isGlobalError = false ∧ ∀ path ∈ files, (b.assembly site "\n").isBundled path = true →
      Module.isDeclaration path = false → d.isOf path = false := by
  simp [heeds, List.any_eq_false]

/-- Without heeded diagnostics nothing is said about the sources in a bundle. -/
theorem diagnosticsOf_eq_nil_of_unheeded {p : Program} (h : ∀ d ∈ p.diagnostics, b.heeds site files d = false)
    {path : String} (hpath : path ∈ files) (hbundled : (b.assembly site "\n").isBundled path = true)
    (hdecl : Module.isDeclaration path = false) : p.diagnosticsOf path = [] := by
  rw [Program.diagnosticsOf_eq_filter, List.filter_eq_nil_iff]
  intro d hd
  rw [(heeds_eq_false_iff.1 (h d hd)).2 path hpath hbundled hdecl]
  exact Bool.false_ne_true

section Answering

variable (b : Bundler) (site : Site) (outcome : CallOutcome)

theorem settings_answering : b.settings (site.answering outcome) = b.settings site := by
  simp [settings]

theorem assembly_answering (eol : String) :
    b.assembly (site.answering outcome) eol = b.assembly site eol := by
  simp [assembly]

theorem write_answering (eol out : String) (p : Program) :
    b.write (site.answering outcome) eol out p = b.write site eol out p := by
  simp [write, assembly_answering]

theorem heeds_answering (files : List String) (d : Diagnostic) :
    b.heeds (site.answering outcome) files d = b.heeds site files d := by
  simp only [heeds, assembly_answering]

end Answering

/-- The bundle is written to an output file that is open, and nothing fails in it. -/
theorem ends_write_iff {eol out : String} {p : Program} : (b.write site eol out p).Ends fs () fs' ↔
    ∃ opened, (openOutput site out).Ends fs () opened ∧
      ((b.assembly site eol).bundle opened p).failure = none ∧
      opened.write site.cwd out (Text.encode ((b.assembly site eol).bundle opened p).text) = .ok fs' := by
  simp only [write, openOutput, ends_bind_iff, ends_change_iff, ends_files_iff, List.forM_eq_forM,
    ends_forM_tell_iff]
  constructor
  · rintro ⟨_, made, hmake, _, opened, hempty, _, _, ⟨rfl, rfl⟩, _, _, rfl, _, left, hwrite, hend⟩
    cases hfailure : ((b.assembly site eol).bundle opened p).failure with
    | some e => simp [hfailure] at hend
    | none =>
        rw [hfailure] at hend
        obtain ⟨-, rfl⟩ := ends_pure_iff.1 hend
        exact ⟨opened, ⟨(), made, hmake, hempty⟩, hfailure, hwrite⟩
  · rintro ⟨opened, ⟨_, made, hmake, hempty⟩, hfailure, hwrite⟩
    refine ⟨(), made, hmake, (), opened, hempty, opened, opened, ⟨rfl, rfl⟩, (), opened, rfl, (), fs',
      hwrite, ?_⟩
    rw [hfailure]
    exact ends_pure_iff.2 ⟨rfl, rfl⟩

/-- A run comes to its output file if it comes to settings, a program and the path of that file. -/
theorem ends_load_iff {settings : Settings} {p : Program} {out : String} :
    (b.load site).Ends fs (settings, p, out) fs' ↔
      ∃ settled, (b.settings site).Ends fs settings settled ∧
        (Compiler.create site b.options.tsc b.options.timeout b.baseDir settings.options
          settings.files).Ends settled p fs' ∧
        b.outPath site.cwd = .ok out := by
  simp only [load, ends_bind_iff, ends_note_iff, ends_ofExcept_iff, ends_pure_iff, Prod.mk.injEq]
  constructor
  · rintro ⟨_, settled, hsettings, _, _, rfl, _, _, hcreate, _, _, ⟨hout, rfl⟩, ⟨rfl, rfl, rfl⟩, rfl⟩
    exact ⟨settled, hsettings, hcreate, hout⟩
  · rintro ⟨settled, hsettings, hcreate, hout⟩
    exact ⟨settings, settled, hsettings, (), _, rfl, p, fs', hcreate, out, _, ⟨hout, rfl⟩,
      ⟨rfl, rfl, rfl⟩, rfl⟩

theorem ends_run_iff : (b.run site).Ends fs () fs' ↔
    ∃ settings p out loaded, (b.load site).Ends fs (settings, p, out) loaded ∧
      (b.write site settings.eol out p).Ends loaded () fs' := by
  simp only [run_eq, ends_bind_iff, ends_note_iff]
  constructor
  · rintro ⟨⟨settings, p, out⟩, loaded, hload, _, _, hwrite, rfl⟩
    exact ⟨settings, p, out, loaded, hload, hwrite⟩
  · rintro ⟨settings, p, out, loaded, hload, hwrite⟩
    exact ⟨(settings, p, out), loaded, hload, (), fs', hwrite, rfl⟩

section Calls

variable {settings : Settings} {settled loaded : FileSystem} {p : Program} {out : String} {c : CompilerCall}

theorem call_mem_load_iff (hsettings : (b.settings site).Ends fs settings settled)
    (w : Compiler.Compilation site b.options.tsc b.options.timeout b.baseDir settings.options
      settings.files settled p loaded)
    (hout : b.outPath site.cwd = .ok out) : Event.call c ∈ (b.load site fs).events ↔ c = w.call := by
  have hquiet : Event.call c ∉ (b.settings site fs).events := fun hc => by
    obtain ⟨level, text, hentry⟩ := (b.looks_settings site fs).2 _ hc
    cases hentry
  have hnote : ∀ level text, (note level text).Ends settled () settled := fun _ _ => ⟨rfl, rfl⟩
  have hpath : (ofExcept (b.outPath site.cwd)).Ends loaded out loaded :=
    ends_ofExcept_iff.2 ⟨hout, rfl⟩
  rw [load, hsettings.mem_events_bind_iff, (hnote _ _).mem_events_bind_iff, w.ends.mem_events_bind_iff,
    hpath.mem_events_bind_iff, w.call_mem_events_iff]
  simp [hquiet, note, Action.ofExcept]

theorem call_mem_run_iff (hload : (b.load site).Ends fs (settings, p, out) loaded)
    (hwrite : (b.write site settings.eol out p).Ends loaded () fs') :
    Event.call c ∈ (b.run site fs).events ↔ Event.call c ∈ (b.load site fs).events := by
  obtain ⟨opened, hopen, hfailure, -⟩ := ends_write_iff.1 hwrite
  obtain ⟨left, -, heq⟩ := write_of_open b settings.eol p hopen
  have hquiet : Event.call c ∉ (b.write site settings.eol out p loaded).events := by
    rw [heq]
    exact fun hc => Option.some_ne_none _ (Assembly.directory?_eq_none_of_mem_bundle hfailure hc)
  rw [run_eq, hload.mem_events_bind_iff, hwrite.mem_events_bind_iff]
  simp [hquiet, note]

end Calls

/-- What the compiler reported in a run: the one call that was made, its output and the report in it, and
the declarations that it wrote. -/
structure Reported (b : Bundler) (site : Site) (fs : FileSystem) (call : CompilerCall) (output : String)
    (written : List (String × Option ByteArray)) (report : Report) : Prop where
  called : ∀ c, Event.call c ∈ (b.run site fs).events ↔ c = call
  answered : ∃ errors status, site.answer call = .finished output errors status written ∧
    Compiler.IsRegular status
  read_eq : Report.read b.baseDir output = (report, none)

/-- A bundle is not finished if something is heeded that is said about its program. -/
theorem unheeded_of_write {eol out : String} {p : Program}
    (hwrite : (b.write site eol out p).Ends fs () fs')
    (hglobal : p.diagnostics.filter Diagnostic.isGlobalError = []) :
    ∀ d ∈ p.diagnostics, b.heeds site p.files d = false := by
  obtain ⟨opened, -, hfailure, -⟩ := ends_write_iff.1 hwrite
  intro d hd
  refine heeds_eq_false_iff.2 ⟨?_, fun path hpath hbundled hdecl => ?_⟩
  · simpa using List.filter_eq_nil_iff.1 hglobal d hd
  · have hnil := Assembly.diagnosticsOf_eq_nil hfailure hpath hbundled hdecl
    rw [Program.diagnosticsOf_eq_filter] at hnil
    simpa using List.filter_eq_nil_iff.1 hnil d hd

theorem reported_of_compilation {settings : Settings} {settled loaded : FileSystem} {p : Program}
    {out : String} (hsettings : (b.settings site).Ends fs settings settled)
    (w : Compiler.Compilation site b.options.tsc b.options.timeout b.baseDir settings.options
      settings.files settled p loaded)
    (hout : b.outPath site.cwd = .ok out)
    (hwrite : (b.write site settings.eol out p).Ends loaded () fs') :
    b.Reported site fs w.call w.output w.written w.report ∧
      ∀ d ∈ w.report.diagnostics, b.heeds site w.report.files d = false := by
  have hload := ends_load_iff.2 ⟨settled, hsettings, w.ends, hout⟩
  refine ⟨⟨fun c => ?_, ⟨w.errors, w.status, w.answer_eq, w.isRegular⟩, w.read_eq⟩, ?_⟩
  · rw [call_mem_run_iff hload hwrite, call_mem_load_iff hsettings w hout]
  · rw [← w.files_eq, ← w.diagnostics_eq]
    exact unheeded_of_write hwrite (by rw [w.diagnostics_eq]; exact w.no_global)

/-- With other diagnostics of its files, none of which is heeded, the same bundle is written of a program. -/
theorem write_reporting {eol out : String} {p : Program} {ds : List Diagnostic}
    (hold : ∀ d ∈ p.diagnostics, b.heeds site p.files d = false)
    (hnew : ∀ d ∈ ds, b.heeds site p.files d = false) :
    b.write site eol out { p with diagnostics := ds } = b.write site eol out p := by
  have hbundle (opened : FileSystem) : (b.assembly site eol).bundle opened { p with diagnostics := ds } =
      (b.assembly site eol).bundle opened p := by
    refine Assembly.bundle_reporting fun path hpath hbundled hdecl => ?_
    rw [diagnosticsOf_eq_nil_of_unheeded (p := p) hold hpath hbundled hdecl]
    exact diagnosticsOf_eq_nil_of_unheeded (p := { p with diagnostics := ds }) hnew hpath hbundled hdecl
  simp only [write, hbundle]

/-- Where the answer of the compiler does not depend on its call, that answer was not heeded. -/
theorem unheeded_of_answering {output errors : String} {status : Int}
    {written : List (String × Option ByteArray)} {report : Report}
    (hrun : (b.run (site.answering (.finished output errors status written))).Ends fs () fs')
    (hread : Report.read b.baseDir output = (report, none)) :
    ∀ d ∈ report.diagnostics, b.heeds site report.files d = false := by
  obtain ⟨settings, p, out, loaded, hload, hwrite⟩ := ends_run_iff.1 hrun
  obtain ⟨settled, hsettings, hcreate, hout⟩ := ends_load_iff.1 hload
  obtain ⟨w⟩ := Compiler.exists_compilation hcreate
  obtain ⟨-, hunheeded⟩ := reported_of_compilation hsettings w hout hwrite
  have houtput : output = w.output := (CallOutcome.finished.inj w.answer_eq).1
  rw [houtput, w.read_eq] at hread
  obtain rfl : w.report = report := congrArg Prod.fst hread
  intro d hd
  rw [← heeds_answering]
  exact hunheeded d hd

/-- A run that ends well heeded nothing that was reported, and with another report of the same files it
would have ended in the same way exactly if nothing in that is heeded. -/
theorem run_heeds (hrun : (b.run site).Ends fs () fs') :
    ∃ call output written report, b.Reported site fs call output written report ∧
      (∀ d ∈ report.diagnostics, b.heeds site report.files d = false) ∧
      ∀ output' errors' status' report', Compiler.IsRegular status' →
        Report.read b.baseDir output' = (report', none) → report'.files = report.files →
        ((b.run (site.answering (.finished output' errors' status' written))).Ends fs () fs' ↔
          ∀ d ∈ report'.diagnostics, b.heeds site report.files d = false) := by
  obtain ⟨settings, p, out, loaded, hload, hwrite⟩ := ends_run_iff.1 hrun
  obtain ⟨settled, hsettings, hcreate, hout⟩ := ends_load_iff.1 hload
  obtain ⟨w⟩ := Compiler.exists_compilation hcreate
  obtain ⟨hreported, hunheeded⟩ := reported_of_compilation hsettings w hout hwrite
  refine ⟨w.call, w.output, w.written, w.report, hreported, hunheeded, ?_⟩
  intro output' errors' status' report' hstatus hread hfiles
  constructor
  · intro hrun'
    rw [← hfiles]
    exact unheeded_of_answering hrun' hread
  · intro hnew
    have hglobal : report'.diagnostics.filter Diagnostic.isGlobalError = [] :=
      List.filter_eq_nil_iff.2 fun d hd => by simp [(heeds_eq_false_iff.1 (hnew d hd)).1]
    have w' := w.reporting hstatus hread hfiles hglobal errors'
    rw [← w.files_eq] at hunheeded hnew
    rw [← w.diagnostics_eq] at hunheeded
    refine ends_run_iff.2 ⟨settings, { p with diagnostics := report'.diagnostics }, out, loaded,
      ends_load_iff.2 ⟨settled, ?_, w'.ends, hout⟩, ?_⟩
    · rwa [settings_answering]
    · rw [write_answering, write_reporting hunheeded hnew]
      exact hwrite

/-- What the compiler prints when it rejects an option in the configuration that it is called with. -/
def rejection : String :=
  "/p/a.d.ts\n/p/b.d.ts\n.dts-bundler-x.json(4,5): error TS5023: Unknown compiler option 'x'.\n"

def rejected : Report where
  files := ["/p/a.d.ts", "/p/b.d.ts"]
  diagnostics :=
    [⟨some "/p/.dts-bundler-x.json", 4, 5, 5023, "Unknown compiler option 'x'.", .error⟩]
  ignored := []

/-- A site at which the compiler rejects an option. -/
def rejectingSite : Site := twoScriptsSite.answering (.finished rejection "" 2 [])

theorem read_rejection : Report.read twoScripts.baseDir rejection = (rejected, none) := by
  have hreport : (Report.read twoScripts.baseDir rejection).1 = rejected := by decide +kernel
  have hbad : (Report.read twoScripts.baseDir rejection).2 = none :=
    Option.isNone_iff_eq_none.1 (by decide +kernel)
  exact Prod.ext hreport hbad

/-- A run in which the compiler rejects an option ends well, though the error is located in none of the
files of the program. -/
theorem not_errorsListed_rejection :
    (twoScripts.run rejectingSite).Ends twoScriptsFiles ()
        (twoScripts.run rejectingSite twoScriptsFiles).files ∧
      (∀ call, rejectingSite.answer call = .finished rejection "" 2 []) ∧
      Report.read twoScripts.baseDir rejection = (rejected, none) ∧ ¬ rejected.ErrorsListed :=
  ⟨ends_of_toOption_eq_some (by decide +kernel), fun _ => rfl, read_rejection, by decide +kernel⟩

/-- It ends as it would have ended without the error. -/
theorem run_heeds_rejection :
    (twoScripts.run twoScriptsSite).Ends twoScriptsFiles () twoScriptsLeft ∧
      (twoScripts.run rejectingSite).Ends twoScriptsFiles () twoScriptsLeft := by
  refine ⟨ends_run_twoScripts, ?_⟩
  obtain ⟨call, output, written, report, hreported, -, hsame⟩ := run_heeds ends_run_twoScripts
  obtain ⟨errors, status, hanswer, -⟩ := hreported.answered
  obtain ⟨rfl, -, -, rfl⟩ := CallOutcome.finished.inj hanswer
  have hfiles : (Report.read twoScripts.baseDir "/p/a.d.ts\n/p/b.d.ts\n").1.files = rejected.files := by
    decide +kernel
  rw [hreported.read_eq] at hfiles
  refine (hsame rejection "" 2 rejected (.inr (.inr rfl)) read_rejection hfiles.symm).2 ?_
  rw [hfiles]
  decide +kernel

end Bundler

end DeclBundle
