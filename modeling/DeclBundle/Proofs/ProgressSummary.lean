import DeclBundle.CommandLine.Session
import DeclBundle.Proofs.Heeded
import DeclBundle.Proofs.LineStart
import DeclBundle.Proofs.SoundOptions

/-!
# What a summary of the progress says

The progress keeps the messages that it was told and counts them by the words that they begin with, whatever
is told and in whatever order (`summarizes_after`); phases follow from what each call brings and from the
phase before (`phase_apply`). A run that ends well tells one message for each reference, one for each file
that is left out, and one for each file that goes into the bundle (`Success.messages_run`). Among these
are files without declarations that the assembly then passes over, so that the number of processed files
is that of the files written and of these together (`summary_of_run`); a session says so at its end
(`tallies_bundle`).
-/

namespace DeclBundle

namespace Progress

/-- A call that tells of the progress. -/
inductive Call where
  | told (message : String)
  | updated (message : String) (phase : Option Phase)
  | compiling
  | completed (out : String)
  | failed (error : String)

namespace Call

def apply (p : Progress) : Call → Progress
  | told message => p.update message none
  | updated message phase => p.update message phase
  | compiling => p.compiling
  | completed out => p.completed out
  | failed error => p.failed error

def message : Call → String
  | told message => message
  | updated message _ => message
  | compiling => "Compiling declarations"
  | completed out => "Wrote " ++ out
  | failed error => "Bundling failed: " ++ error

def phase? : Call → Option Phase
  | told _ => none
  | updated _ phase => phase
  | compiling => some .compiling
  | completed _ => some .completed
  | failed _ => some .failed

theorem apply_eq (p : Progress) (c : Call) : c.apply p = p.update c.message c.phase? := by
  cases c <;> rfl

end Call

def after (p : Progress) (calls : List Call) : Progress := calls.foldl Call.apply p

def begins (words message : String) : Bool := words.toList.isPrefixOf message.toList

/-- The progress keeps some messages, and what was counted is what they begin with. -/
structure Summarizes (p : Progress) (messages : List String) : Prop where
  messages_eq : p.updates.map Prod.snd = messages
  processed : p.processed = messages.countP (begins "Processing ")
  excluded : p.excluded = messages.countP (begins "Excluding ")
  externs : p.externs = messages.countP (begins "Writing external dependency ")

/-- The progress goes on with some messages. -/
structure Gains (p : Progress) (messages : List String) (q : Progress) : Prop where
  messages_eq : q.updates.map Prod.snd = p.updates.map Prod.snd ++ messages
  processed : q.processed = p.processed + messages.countP (begins "Processing ")
  excluded : q.excluded = p.excluded + messages.countP (begins "Excluding ")
  externs : q.externs = p.externs + messages.countP (begins "Writing external dependency ")

/-- Whether a phase stays when a message comes that brings none. -/
def Settled (phase : Phase) : Prop := phase ≠ .initializing ∧ phase ≠ .compiling

instance : DecidablePred Settled := fun _ => instDecidableAnd

theorem opensWith_eq (words message : String) : opensWith words message = begins words message := by
  rw [opensWith, begins, Bool.eq_iff_iff, Option.isSome_iff_exists, List.isPrefixOf_iff_prefix]
  simp only [Text.after?_eq_some_iff]
  exact ⟨fun ⟨t, h⟩ => ⟨t, h.symm⟩, fun ⟨t, h⟩ => ⟨t, h.symm⟩⟩

theorem tally_eq (words message : String) : tally words message = [message].countP (begins words) := by
  rw [tally, opensWith_eq, List.countP_singleton]

theorem begins_append (words s : String) : begins words (words ++ s) = true := by
  rw [begins, String.toList_append, List.isPrefixOf_iff_prefix]
  exact List.prefix_append _ _

/-- Words neither of which go on with the others begin different messages. -/
theorem begins_append_of_apart {words words' : String} (h : ¬ words.toList <+: words'.toList)
    (h' : ¬ words'.toList <+: words.toList) (s : String) : begins words (words' ++ s) = false := by
  rw [begins, String.toList_append, Bool.eq_false_iff, Ne, List.isPrefixOf_iff_prefix]
  intro hprefix
  exact (List.prefix_or_prefix_of_prefix hprefix (List.prefix_append _ _)).elim h h'

/-! ### Calls -/

theorem gains_update (p : Progress) (message : String) (phase : Option Phase) :
    p.Gains [message] (p.update message phase) where
  messages_eq := by rw [updates_update, List.map_append]; rfl
  processed := by rw [← tally_eq]; rfl
  excluded := by rw [← tally_eq]; rfl
  externs := by rw [← tally_eq]; rfl

theorem Gains.trans {p q r : Progress} {messages messages' : List String} (h : p.Gains messages q)
    (h' : q.Gains messages' r) : p.Gains (messages ++ messages') r where
  messages_eq := by rw [h'.messages_eq, h.messages_eq, List.append_assoc]
  processed := by rw [h'.processed, h.processed, List.countP_append, Nat.add_assoc]
  excluded := by rw [h'.excluded, h.excluded, List.countP_append, Nat.add_assoc]
  externs := by rw [h'.externs, h.externs, List.countP_append, Nat.add_assoc]

theorem gains_after (p : Progress) (calls : List Call) :
    p.Gains (calls.map Call.message) (p.after calls) := by
  induction calls generalizing p with
  | nil => exact ⟨(List.append_nil _).symm, rfl, rfl, rfl⟩
  | cons c calls ih =>
      have hc := gains_update p c.message c.phase?
      rw [← Call.apply_eq] at hc
      exact hc.trans (ih (c.apply p))

theorem summarizes_after (calls : List Call) :
    (start.after calls).Summarizes (calls.map Call.message) := by
  obtain ⟨hmessages, hprocessed, hexcluded, hexterns⟩ := gains_after start calls
  exact ⟨hmessages, hprocessed.trans (Nat.zero_add _), hexcluded.trans (Nat.zero_add _),
    hexterns.trans (Nat.zero_add _)⟩

/-- A call brings its phase, or begins the writing unless the phase is settled. -/
theorem phase_apply (p : Progress) (c : Call) :
    (c.apply p).phase = c.phase?.getD (if Settled p.phase then p.phase else .writing) := by
  have hnext (phase : Phase) : nextPhase phase = if Settled phase then phase else .writing := by
    cases phase <;> rfl
  rw [Call.apply_eq, phase_update, hnext]

theorem phase_after_of_settled {p : Progress} (hp : Settled p.phase) {calls : List Call}
    (hplain : ∀ c ∈ calls, c.phase? = none) : (p.after calls).phase = p.phase := by
  induction calls generalizing p with
  | nil => rfl
  | cons c calls ih =>
      obtain ⟨hc, hcalls⟩ := List.forall_mem_cons.1 hplain
      have hphase : (c.apply p).phase = p.phase := by
        rw [phase_apply, hc, if_pos hp, Option.getD_none]
      rw [after, List.foldl_cons, ← after, ih (hphase.symm ▸ hp) hcalls, hphase]

/-- The progress after what events tell of it. -/
def hear (p : Progress) (events : List Event) : Progress :=
  p.after ((events.filterMap Event.message?).map .told)

theorem gains_hear (p : Progress) (events : List Event) :
    p.Gains (events.filterMap Event.message?) (p.hear events) := by
  have hcalls := gains_after p ((events.filterMap Event.message?).map .told)
  rw [List.map_map] at hcalls
  exact (List.map_id (events.filterMap Event.message?)) ▸ hcalls

theorem progressOf_eq (events : List Event) :
    CommandLine.Session.progressOf events = start.hear events := by
  rw [CommandLine.Session.progressOf, hear, after, List.foldl_map]
  rfl

end Progress

namespace Assembly

variable {a : Assembly} {fs : FileSystem} {p : Program}

def isWritten (a : Assembly) (fs : FileSystem) (p : Program) (path : String) : Bool :=
  (a.file? fs p path).isSome

/-- Whether a file is passed over, as it goes into the bundle and has no declarations. -/
def isPassedOver (a : Assembly) (fs : FileSystem) (p : Program) (path : String) : Bool :=
  a.isBundled path && (a.declarations? fs p path).isNone

theorem isBundled_of_isWritten {path : String} (h : a.isWritten fs p path = true) :
    a.isBundled path = true := by
  obtain ⟨f, hf⟩ := Option.isSome_iff_exists.1 h
  exact (exists_of_file?_eq_some hf).1

/-- A file that goes into a bundle that succeeds is written, or it is passed over and no file of the
language. -/
theorem written_or_passedOver (h : (a.bundle fs p).failure = none) {path : String}
    (hpath : path ∈ p.files) (hbundled : a.isBundled path = true) :
    a.isWritten fs p path = true ∧ a.isPassedOver fs p path = false ∨
      a.isWritten fs p path = false ∧ a.isPassedOver fs p path = true ∧
        Module.isDeclaration path = false ∧ Module.isTypeScript (Path.normalize path) = false := by
  have hcontributes := (a.bundle_concatenated h).contributes path hpath
  have hboth := hbundled
  rw [isBundled, Bool.and_eq_true, Bool.not_eq_true'] at hboth
  rw [isWritten, isPassedOver, file?, if_pos hbundled, hbundled, Bool.true_and]
  generalize a.contribution path (a.declarations? fs p path) = added at hcontributes
  generalize a.declarations? fs p path = text? at hcontributes ⊢
  generalize p.diagnosticsOf path = ds at hcontributes
  cases hcontributes with
  | outside hin => cases hin.symm.trans hboth.1
  | excluded _ hex => cases hex.symm.trans hboth.2
  | silent _ _ hdecl hts => exact .inr ⟨rfl, rfl, hdecl, hts⟩
  | emitted _ _ _ hf _ => exact .inl ⟨by rw [Option.bind_some, hf]; rfl, rfl⟩

/-- Among some files of a bundle that succeeds, those that go into it are the written ones and those that
are passed over. -/
theorem countP_isBundled (h : (a.bundle fs p).failure = none) {files : List String}
    (hfiles : ∀ path ∈ files, path ∈ p.files) :
    files.countP a.isBundled =
      files.countP (a.isWritten fs p) + files.countP (a.isPassedOver fs p) := by
  induction files with
  | nil => rfl
  | cons path files ih =>
      obtain ⟨hpath, hfiles⟩ := List.forall_mem_cons.1 hfiles
      rw [List.countP_cons, List.countP_cons, List.countP_cons, ih hfiles]
      cases hbundled : a.isBundled path with
      | true =>
          rcases written_or_passedOver h hpath hbundled with ⟨hwritten, hover⟩ | ⟨hwritten, hover, -⟩
          · rw [hwritten, hover]
            simp only [if_true, Bool.false_eq_true, if_false]
            omega
          · rw [hwritten, hover]
            simp only [if_true, Bool.false_eq_true, if_false]
            omega
      | false =>
          have hwritten : a.isWritten fs p path = false :=
            Bool.eq_false_iff.2 fun hwritten => by
              rw [isBundled_of_isWritten hwritten] at hbundled
              cases hbundled
          have hover : a.isPassedOver fs p path = false := by rw [isPassedOver, hbundled, Bool.false_and]
          rw [hwritten, hover]
          simp

section Messages

open Progress

theorem countP_begins_of_apart {α : Type} {words words' : String} (h : ¬ words.toList <+: words'.toList)
    (h' : ¬ words'.toList <+: words.toList) (f : α → String) (xs : List α) :
    (xs.map fun x => words' ++ f x).countP (begins words) = 0 := by
  rw [List.countP_eq_zero, List.forall_mem_map]
  intro x _
  rw [begins_append_of_apart h h']
  exact Bool.false_ne_true

theorem countP_begins_self {α : Type} (words : String) (f : α → String) (xs : List α) :
    (xs.map fun x => words ++ f x).countP (begins words) = xs.length := by
  rw [List.countP_eq_length.2 (List.forall_mem_map.2 fun x _ => begins_append words (f x)),
    List.length_map]

theorem countP_aliases {words : String} (h : ¬ words.toList <+: "Aliased main module ".toList)
    (h' : ¬ "Aliased main module ".toList <+: words.toList) :
    a.aliases.countP (begins words) = 0 := by
  unfold aliases
  cases a.main with
  | none => rfl
  | some m =>
      rw [List.countP_singleton, String.append_assoc, String.append_assoc,
        begins_append_of_apart h h']
      rfl

/-- A notice tells that a file is left out, or that it goes into the bundle. -/
theorem begins_notice (path : String) :
    begins "Excluding " (a.notice path) = a.isExcluded path ∧
      begins "Processing " (a.notice path) = !a.isExcluded path ∧
      begins "Writing external dependency " (a.notice path) = false := by
  unfold notice
  cases a.isExcluded path with
  | true =>
      exact ⟨begins_append _ _, begins_append_of_apart (by decide) (by decide) _,
        begins_append_of_apart (by decide) (by decide) _⟩
  | false =>
      exact ⟨begins_append_of_apart (by decide) (by decide) _, begins_append _ _,
        begins_append_of_apart (by decide) (by decide) _⟩

theorem countP_messages (h : (a.bundle fs p).failure = none) :
    ((a.bundle fs p).told Event.message?).countP (begins "Writing external dependency ") =
        a.externs.length ∧
      ((a.bundle fs p).told Event.message?).countP (begins "Excluding ") =
        p.files.countP (fun path => a.isInside path && a.isExcluded path) ∧
      ((a.bundle fs p).told Event.message?).countP (begins "Processing ") =
        p.files.countP a.isBundled := by
  have hnotices (words : String) : ((p.files.filter a.isInside).map a.notice).countP (begins words) =
      p.files.countP fun path => a.isInside path && begins words (a.notice path) := by
    rw [List.countP_map, List.countP_filter]
    exact List.countP_congr fun path _ => by simp [and_comm]
  rw [a.messages_bundle h]
  simp only [List.countP_append, hnotices, begins_notice]
  refine ⟨?_, ?_, ?_⟩
  · rw [countP_begins_self, countP_aliases (by decide) (by decide)]
    simp
  · rw [countP_begins_of_apart (by decide) (by decide), countP_aliases (by decide) (by decide),
      Nat.zero_add, Nat.add_zero]
  · rw [countP_begins_of_apart (by decide) (by decide), countP_aliases (by decide) (by decide),
      Nat.zero_add, Nat.add_zero]
    rfl

end Messages

end Assembly

namespace Bundler

variable {b : Bundler} {site : Site} {fs fs' : FileSystem}

theorem Success.exists_load (w : b.Success site fs fs') :
    ∃ loaded, (b.load site).Ends fs (w.settings, w.program, w.out) loaded ∧
      (openOutput site w.out).Ends loaded () w.opened := by
  have hprepare := w.prepare_ends
  simp only [prepare, Action.ends_bind_iff, Action.ends_ofExcept_iff, Action.ends_pure_iff,
    Prod.mk.injEq] at hprepare
  obtain ⟨_, settled, hsettings, _, loaded, hcreate, _, _, ⟨hout, rfl⟩, _, made, hmake, _, _, hempty,
    ⟨rfl, rfl, rfl⟩, rfl⟩ := hprepare
  exact ⟨loaded, ends_load_iff.2 ⟨settled, hsettings, hcreate, hout⟩,
    Action.ends_bind_iff.2 ⟨(), made, hmake, hempty⟩⟩

theorem Success.messages_run (w : b.Success site fs fs') :
    (b.run site fs).events.filterMap Event.message? =
      (w.assembly.bundle w.opened w.program).told Event.message? := by
  obtain ⟨left, hload, hopen⟩ := w.exists_load
  obtain ⟨_, -, hwrite⟩ := write_of_open b w.settings.eol w.program hopen
  rw [(run_of_load hload).2.2, hwrite]
  rfl

/-- What hearing of a run adds to the counts. -/
structure Success.Tallies (w : b.Success site fs fs') (p q : Progress) : Prop where
  externs : q.externs = p.externs + b.options.externs.length
  excluded : q.excluded = p.excluded + w.program.files.countP fun path =>
    w.assembly.isInside path && w.assembly.isExcluded path
  processed : q.processed = p.processed +
    (w.program.files.countP (w.assembly.isWritten w.opened w.program) +
      w.program.files.countP (w.assembly.isPassedOver w.opened w.program))
  /-- They are the written ones exactly if none is passed over. -/
  processed_iff : q.processed =
      p.processed + w.program.files.countP (w.assembly.isWritten w.opened w.program) ↔
    ∀ path ∈ w.program.files, w.assembly.isPassedOver w.opened w.program path = false
  passedOver : ∀ path ∈ w.program.files, w.assembly.isPassedOver w.opened w.program path = true →
    Module.isDeclaration path = false ∧ Module.isTypeScript (Path.normalize path) = false

theorem length_externs {cwd : String} {o : Options} (hb : ofOptions cwd o = .ok b) :
    (Options.texts b.options.externs).length = b.options.externs.length := by
  obtain ⟨hproblem, rfl, -⟩ := of_ofOptions hb
  rw [Options.texts, List.filterMap_length_eq_length]
  exact fun v hv => Value.isText_iff.1 ((Options.problem?_eq_none_iff.1 hproblem).externs v hv)

theorem Success.tallies (w : b.Success site fs fs') {o : Options} (hb : ofOptions site.cwd o = .ok b)
    (p : Progress) : w.Tallies p (p.hear (b.run site fs).events) := by
  have hheard := p.gains_hear (b.run site fs).events
  have hok : (w.assembly.bundle w.opened w.program).failure = none := w.failure_eq
  obtain ⟨hexterns, hexcluded, hprocessed⟩ := Assembly.countP_messages hok
  have hfiles := Assembly.countP_isBundled hok fun _ hpath => hpath
  rw [w.messages_run] at hheard
  have hcount := hheard.processed.trans (congrArg _ (hprocessed.trans hfiles))
  refine ⟨?_, ?_, hcount, ?_, fun path hpath hpassed => ?_⟩
  · rw [hheard.externs, ← length_externs hb]
    exact congrArg _ hexterns
  · rw [hheard.excluded]
    exact congrArg _ hexcluded
  · rw [hcount, Nat.add_left_cancel_iff, Nat.add_eq_left, List.countP_eq_zero]
    exact forall₂_congr fun path _ => Bool.eq_false_iff.symm
  · have hbundled : w.assembly.isBundled path = true := (Bool.and_eq_true_iff.1 hpassed).1
    rcases Assembly.written_or_passedOver hok hpath hbundled with ⟨-, hnot⟩ | ⟨-, -, hkinds⟩
    · cases hnot.symm.trans hpassed
    · exact hkinds

end Bundler

namespace CommandLine.Session

open DeclBundle.Action

theorem tells_loadOptions (site : Site) (file : Option String) (overrides : Record) :
    (Options.load site file overrides).Tells Event.IsAside := by
  have hnote (level : Level) (text : String) : (note level text).Tells Event.IsAside := tells_tell rfl
  have hvalue {α : Type} (x : Except Failure α) : (Action.ofExcept x).Tells Event.IsAside :=
    tells_of_nil fun _ => rfl
  have hrecord : ∀ r, (Options.ofRecord r).Tells Event.IsAside := fun r =>
    (forM_induction (tells_pure ()) (fun hx hy => hx.bind fun _ => hy) (fun k => hnote _ _)
      (Options.unknownKeys r)).bind fun _ => hvalue _
  have hfile : ∀ f, (Options.loadRecord site f).Tells Event.IsAside := fun f => by
    refine Tells.bind (tells_of_nil fun _ => rfl) fun fs => (hvalue _).bind fun v => ?_
    split
    · exact (hnote _ _).bind fun _ => tells_pure _
    · exact tells_fail _
  cases file with
  | none => exact (tells_pure _).bind fun r => (hrecord _).bind fun _ => hvalue _
  | some f => exact (hfile f).bind fun r => (hrecord _).bind fun _ => hvalue _

/-- What a session that ends well has counted when it says how it went. -/
theorem tallies_bundle {site : Site} {file : Option String} {overrides : Record} {o : Options}
    {fs fs' : FileSystem} (h : (bundle site file overrides).Ends fs o fs') :
    ∃ b loaded, Bundler.ofOptions site.cwd o = .ok b ∧ ∃ w : b.Success site loaded fs',
      w.Tallies (Progress.start.update Progress.compilingMessage none)
        (progressOf (bundle site file overrides fs).events) := by
  simp only [bundle, ends_bind_iff, ends_note_iff, ends_tell_iff, ends_ofExcept_iff, ends_pure_iff] at h
  obtain ⟨o', loaded, hload, _, _, rfl, _, _, rfl, b, _, ⟨hb, rfl⟩, _, _, hrun, rfl, rfl⟩ := h
  obtain ⟨w⟩ := Bundler.exists_success hrun
  refine ⟨b, loaded, hb, w, ?_⟩
  have haside : (Options.load site file overrides fs).events.filterMap Event.message? = [] :=
    List.filterMap_eq_nil_iff.2 (tells_loadOptions site file overrides fs)
  have hmessages : (bundle site file overrides fs).events.filterMap Event.message? =
      Progress.compilingMessage :: (b.run site loaded).events.filterMap Event.message? := by
    have hmade : ofExcept (Bundler.ofOptions site.cwd o') loaded = ⟨loaded, [], .ok b⟩ :=
      congrArg (Effect.mk loaded []) hb
    rw [bundle, hload.bind_eq, List.filterMap_append, haside, List.nil_append, note,
      bind_of_told (tell_apply _ loaded), bind_of_told (tell_apply _ loaded), bind_of_untold hmade,
      hrun.bind_eq]
    simp only [pure_apply, List.append_nil, List.singleton_append]
    rfl
  rw [Progress.progressOf_eq, Progress.hear, hmessages]
  exact w.tallies hb (Progress.start.update Progress.compilingMessage none)

end CommandLine.Session

namespace Bundler

open Progress

/-- The progress keeps the messages of all calls in order and counts them by their beginnings, and a message
that brings no phase begins the writing unless the phase is settled. Hearing of a run that ends well it
counts its references and the files that are left out, and the files written and passed over as
processed. -/
theorem summary_of_run (p : Progress) (calls : List Call) :
    (start.after calls).Summarizes (calls.map Call.message) ∧
      (∀ c : Call, (c.apply p).phase =
        c.phase?.getD (if Settled p.phase then p.phase else .writing)) ∧
      (Settled p.phase → (∀ c ∈ calls, c.phase? = none) → (p.after calls).phase = p.phase) ∧
      ∀ {o : Options} {b : Bundler} {site : Site} {fs fs' : FileSystem},
        ofOptions site.cwd o = .ok b → (b.run site).Ends fs () fs' →
        ∃ w : b.Success site fs fs', ∀ q : Progress, w.Tallies q (q.hear (b.run site fs).events) := by
  refine ⟨summarizes_after calls, phase_apply p, fun hp => phase_after_of_settled hp, ?_⟩
  intro o b site fs fs' hb hrun
  obtain ⟨w⟩ := exists_success hrun
  exact ⟨w, fun q => w.tallies hb q⟩

/-- A script, a file that is left out, and a module of data. -/
def withData : Bundler where
  options := { twoScripts.options with
    excludes := [.text "*.spec.d.ts"]
    externs := [.text "node.d.ts"] }
  baseDir := "/p"

def withDataSite : Site :=
  { twoScriptsSite with
    answer _ := .finished "/p/a.d.ts\n/p/a.spec.d.ts\n/p/data.json\n" "" 0 [] }

def withDataFiles : FileSystem :=
  ⟨[(["p"], .directory), (["tmp"], .directory),
    (["p", "a.d.ts"], .file (Text.encode "// a")),
    (["p", "a.spec.d.ts"], .file (Text.encode "// a")),
    (["p", "data.json"], .file (Text.encode "1"))]⟩

def withDataLeft : FileSystem := (withData.run withDataSite withDataFiles).files

theorem ofOptions_withData : ofOptions withDataSite.cwd withData.options = .ok withData :=
  ofOptions_eq_ok (by decide +kernel) rfl (by decide +kernel)

theorem ends_run_withData : (withData.run withDataSite).Ends withDataFiles () withDataLeft :=
  Action.ends_of_toOption_eq_some (by decide +kernel)

/-- The module of data is told to be bundled and is not in the bundle. -/
theorem not_processed_written_withData :
    ofOptions withDataSite.cwd withData.options = .ok withData ∧
      (withData.run withDataSite).Ends withDataFiles () withDataLeft ∧
      CommandLine.Session.summary
          (CommandLine.Session.progressOf (withData.run withDataSite withDataFiles).events) "1" =
        "Bundled 2 files (1 excluded) in 1s" ∧
      ∃ w : withData.Success withDataSite withDataFiles withDataLeft,
        w.text = "//\n// Auto-generated by dts-bundler\n//\n\n" ++
            "/// <reference path=\"node.d.ts\" />\n" ++ "// a" ∧
          w.program.files.countP (w.assembly.isWritten w.opened w.program) = 1 := by
  obtain ⟨w⟩ := exists_success ends_run_withData
  refine ⟨ofOptions_withData, ends_run_withData, by decide +kernel, w, ?_⟩
  have hfacts : ∀ x ∈ (withData.prepare withDataSite withDataFiles).result.toOption,
      let a := withData.assembly withDataSite x.1.eol
      let fs := (withData.prepare withDataSite withDataFiles).files
      (a.bundle fs x.2.1).text = "//\n// Auto-generated by dts-bundler\n//\n\n" ++
          "/// <reference path=\"node.d.ts\" />\n" ++ "// a" ∧
        x.2.1.files.countP (a.isWritten fs x.2.1) = 1 := by
    decide +kernel
  obtain ⟨hresult, hopened⟩ := w.prepare_ends
  have hw := hfacts (w.settings, w.program, w.out) (by rw [hresult]; rfl)
  rw [hopened] at hw
  exact hw

theorem summary_of_run_withData :
    (after start [.told "Processing a", .compiling, .updated "Excluding b" none,
        .failed "OSError"]).Summarizes
          ["Processing a", "Compiling declarations", "Excluding b", "Bundling failed: OSError"] ∧
      (Call.apply start (.told "Processing a")).phase = .writing ∧
      (after (start.completed "out.d.ts") [.told "x", .updated "y" none]).phase = .completed ∧
      ofOptions withDataSite.cwd withData.options = .ok withData ∧
      (withData.run withDataSite).Ends withDataFiles () withDataLeft ∧
      ∃ w : withData.Success withDataSite withDataFiles withDataLeft,
        ∀ q : Progress, w.Tallies q (q.hear (withData.run withDataSite withDataFiles).events) := by
  obtain ⟨hcalls, hphase, -, hruns⟩ := summary_of_run start [.told "Processing a", .compiling,
    .updated "Excluding b" none, .failed "OSError"]
  obtain ⟨-, -, hplain, -⟩ := summary_of_run (start.completed "out.d.ts") [.told "x", .updated "y" none]
  exact ⟨hcalls, hphase _, hplain (by decide) (by decide), ofOptions_withData, ends_run_withData,
    hruns ofOptions_withData ends_run_withData⟩

end Bundler

end DeclBundle
