import DeclBundle.Proofs.Told
import DeclBundle.Proofs.Written

/-!
# What actions tell, and how they fail

`Action.Tells P x` says that everything `x` tells has the property `P`, and `Action.Fails P x` that every
failure of `x` has it, whatever the files are; `Action.Looks x` says that `x` changes no files and writes
only to the journal. They hold of actions one after another if they hold of each of them, so that a run is
looked through action by action. The settings and what the compiler reported are found by looking at the
files (`Settings.looks_resolve`, `Compiler.looks_programOf`), and until its output file is open, a run
tells nothing of its progress (`tells_load`).
-/

namespace DeclBundle

namespace Action

variable {α β : Type}

/-- Going on after an action that tells something and ends with a value. -/
theorem bind_of_told {x : Action α} {fs fs' : FileSystem} {events : List Event} {a : α}
    (h : x fs = ⟨fs', events, .ok a⟩) (f : α → Action β) :
    (x >>= f) fs = ⟨(f a fs').files, events ++ (f a fs').events, (f a fs').result⟩ := by
  rw [bind_apply, h]

/-- Going on after an action that tells nothing and ends with a value. -/
theorem bind_of_untold {x : Action α} {fs fs' : FileSystem} {a : α} (h : x fs = ⟨fs', [], .ok a⟩)
    (f : α → Action β) : (x >>= f) fs = f a fs' := by
  rw [bind_of_told h, List.nil_append]

/-- Going on after an action that ends with a value, whatever it tells. -/
theorem Ends.bind_eq {x : Action α} {fs fs' : FileSystem} {a : α} (h : x.Ends fs a fs')
    (f : α → Action β) :
    (x >>= f) fs = ⟨(f a fs').files, (x fs).events ++ (f a fs').events, (f a fs').result⟩ := by
  rw [bind_of_ok h.1, h.2]

protected theorem bind_assoc {γ : Type} (x : Action α) (f : α → Action β) (g : β → Action γ) :
    x >>= f >>= g = x >>= fun a => f a >>= g := by
  funext fs
  cases hx : (x fs).result with
  | error e =>
      have hfirst := bind_of_error hx f
      rw [bind_of_error (congrArg Effect.result hfirst), hfirst, bind_of_error hx]
  | ok a =>
      have hfirst := bind_of_ok hx f
      rw [bind_of_ok hx]
      cases hf : (f a (x fs).files).result with
      | error e =>
          have hboth := (congrArg Effect.result hfirst).trans hf
          rw [bind_of_error hboth, bind_of_error hf, hfirst]
      | ok b =>
          have hboth := (congrArg Effect.result hfirst).trans hf
          rw [bind_of_ok hboth, bind_of_ok hf, hfirst, List.append_assoc]

/-- Actions one after another may be put together in any way. -/
instance : LawfulMonad Action :=
  LawfulMonad.mk' Action
    (fun x => by
      funext fs
      change (x >>= fun a => pure a) fs = x fs
      rw [bind_apply]
      split
      · next h => rw [← h]
      · next h => simp [← h])
    (fun a f => funext fun fs => bind_of_untold (pure_apply a fs) f)
    Action.bind_assoc

theorem change_of_ok {f : FileSystem → Except FileSystem.Fault FileSystem} {fs fs' : FileSystem}
    (h : f fs = .ok fs') : change f fs = ⟨fs', [], .ok ()⟩ := by
  rw [change, h]

theorem forM_tell_apply (events : List Event) (fs : FileSystem) :
    (forM events tell : Action Unit) fs = ⟨fs, events, .ok ()⟩ := by
  induction events with
  | nil => rfl
  | cons e events ih =>
      rw [List.forM_cons, bind_of_told (tell_apply e fs), ih]
      rfl

/-- What holds of doing nothing and of actions one after another holds of a row of actions. -/
theorem forM_induction {ι : Type} {Q : Action Unit → Prop} (hpure : Q (pure ()))
    (hbind : ∀ {x y : Action Unit}, Q x → Q y → Q (x >>= fun _ => y)) {f : ι → Action Unit}
    (hf : ∀ i, Q (f i)) (is : List ι) : Q (forM is f) := by
  induction is with
  | nil => exact hpure
  | cons i is ih =>
      rw [List.forM_cons]
      exact hbind (hf i) ih

def Tells (P : Event → Prop) (x : Action α) : Prop := ∀ fs, ∀ e ∈ (x fs).events, P e

section Tells

variable {P : Event → Prop}

theorem tells_of_nil {x : Action α} (h : ∀ fs, (x fs).events = []) : x.Tells P := by
  intro fs e he
  rw [h fs] at he
  cases he

theorem tells_pure (a : α) : (pure a : Action α).Tells P := tells_of_nil fun _ => rfl

theorem tells_fail (e : Failure) : (fail e : Action α).Tells P := tells_of_nil fun _ => rfl

theorem tells_change (f : FileSystem → Except FileSystem.Fault FileSystem) : (change f).Tells P := by
  refine tells_of_nil fun fs => ?_
  rw [change]
  split
  · rfl
  · rfl

theorem tells_tell {e : Event} (h : P e) : (tell e).Tells P := by
  intro fs e' he'
  obtain rfl := List.mem_singleton.1 he'
  exact h

theorem Tells.bind {x : Action α} {f : α → Action β} (hx : x.Tells P) (hf : ∀ a, (f a).Tells P) :
    (x >>= f).Tells P := by
  intro fs e he
  rw [bind_apply] at he
  split at he
  · exact hx fs e he
  · exact (List.mem_append.1 he).elim (hx fs e) (hf _ _ e)

theorem Tells.tidying {x : Action α} (hx : x.Tells P) (tidy : FileSystem → FileSystem) :
    (x.tidying tidy).Tells P := hx

theorem tells_makeDirectoriesTo (P : Event → Prop) (cwd anchor : String) (above : List String) :
    (makeDirectoriesTo cwd anchor above).Tells P := by
  induction above with
  | nil => exact tells_pure ()
  | cons s above ih =>
      unfold makeDirectoriesTo
      refine Tells.bind (tells_of_nil fun _ => rfl) fun fs => Tells.bind ?_ fun _ => tells_change _
      split
      · exact tells_pure ()
      · exact ih

theorem makeDirectoriesTo_of_ends {cwd anchor : String} {above : List String} {fs fs' : FileSystem}
    (h : (makeDirectoriesTo cwd anchor above).Ends fs () fs') :
    makeDirectoriesTo cwd anchor above fs = ⟨fs', [], .ok ()⟩ := by
  have hsilent : (makeDirectoriesTo cwd anchor above fs).events = [] :=
    List.eq_nil_iff_forall_not_mem.2 (tells_makeDirectoriesTo (fun _ => False) cwd anchor above fs)
  have heta : makeDirectoriesTo cwd anchor above fs = ⟨(makeDirectoriesTo cwd anchor above fs).files,
    (makeDirectoriesTo cwd anchor above fs).events, (makeDirectoriesTo cwd anchor above fs).result⟩ := rfl
  rw [heta, hsilent, h.1, h.2]

end Tells

def Fails (P : Failure → Prop) (x : Action α) : Prop := ∀ fs e, (x fs).result = .error e → P e

section Fails

variable {P : Failure → Prop}

theorem fails_of_ok {x : Action α} (h : ∀ fs, ∃ a, (x fs).result = .ok a) : x.Fails P := by
  intro fs e he
  obtain ⟨a, ha⟩ := h fs
  rw [ha] at he
  cases he

theorem fails_pure (a : α) : (pure a : Action α).Fails P := fails_of_ok fun _ => ⟨a, rfl⟩

theorem fails_fail {e : Failure} (h : P e) : (fail e : Action α).Fails P := by
  intro fs e' he'
  obtain rfl : e = e' := Except.error.inj he'
  exact h

theorem fails_files : files.Fails P := fails_of_ok fun fs => ⟨fs, rfl⟩

theorem fails_tell (e : Event) : (tell e).Fails P := fails_of_ok fun _ => ⟨(), rfl⟩

theorem fails_change {f : FileSystem → Except FileSystem.Fault FileSystem}
    (h : ∀ fault, P (.system fault)) : (change f).Fails P := by
  intro fs e he
  rw [change] at he
  split at he
  · cases he
  · obtain rfl := Except.error.inj he
    exact h _

theorem Fails.bind {x : Action α} {f : α → Action β} (hx : x.Fails P) (hf : ∀ a, (f a).Fails P) :
    (x >>= f).Fails P := by
  intro fs e he
  rw [bind_apply] at he
  split at he
  case h_1 e' he' =>
    obtain rfl : e' = e := Except.error.inj he
    exact hx fs e' he'
  case h_2 a _ => exact hf a _ e he

theorem fails_makeDirectoriesTo (h : ∀ fault, P (.system fault)) (cwd anchor : String)
    (above : List String) : (makeDirectoriesTo cwd anchor above).Fails P := by
  induction above with
  | nil => exact fails_pure ()
  | cons s above ih =>
      unfold makeDirectoriesTo
      refine fails_files.bind fun fs => Fails.bind ?_ fun _ => fails_change h
      split
      · exact fails_pure ()
      · exact ih

theorem Fails.forM {ι : Type} {f : ι → Action Unit} (hf : ∀ i, (f i).Fails P) (is : List ι) :
    (forM is f : Action Unit).Fails P :=
  forM_induction (fails_pure ()) (fun hx hy => hx.bind fun _ => hy) hf is

end Fails

/-- An action only looks at the files: it changes none, and tells nothing but entries in the journal. -/
def Looks (x : Action α) : Prop :=
  ∀ fs, (x fs).files = fs ∧ ∀ e ∈ (x fs).events, ∃ level text, e = .entry level text

theorem looks_of_nil {x : Action α} (h : ∀ fs, (x fs).files = fs ∧ (x fs).events = []) : x.Looks := by
  intro fs
  refine ⟨(h fs).1, fun e he => ?_⟩
  rw [(h fs).2] at he
  cases he

theorem looks_pure (a : α) : (pure a : Action α).Looks := looks_of_nil fun _ => ⟨rfl, rfl⟩

theorem looks_fail (e : Failure) : (fail e : Action α).Looks := looks_of_nil fun _ => ⟨rfl, rfl⟩

theorem looks_ofExcept (x : Except Failure α) : (ofExcept x).Looks := looks_of_nil fun _ => ⟨rfl, rfl⟩

theorem looks_files : files.Looks := looks_of_nil fun _ => ⟨rfl, rfl⟩

theorem looks_note (level : Level) (text : String) : (note level text).Looks :=
  fun _ => ⟨rfl, fun _ he => ⟨level, text, List.mem_singleton.1 he⟩⟩

theorem Looks.bind {x : Action α} {f : α → Action β} (hx : x.Looks) (hf : ∀ a, (f a).Looks) :
    (x >>= f).Looks := by
  intro fs
  rw [bind_apply]
  split
  · exact hx fs
  case h_2 a _ =>
    obtain ⟨hfiles, hevents⟩ := hf a (x fs).files
    exact ⟨hfiles.trans (hx fs).1, fun e he => (List.mem_append.1 he).elim ((hx fs).2 e) (hevents e)⟩

theorem Looks.forM {ι : Type} {f : ι → Action Unit} (hf : ∀ i, (f i).Looks) (is : List ι) :
    (forM is f : Action Unit).Looks :=
  forM_induction (looks_pure ()) (fun hx hy => hx.bind fun _ => hy) hf is

/-- An action that only looks tells what entries in the journal have to say. -/
theorem Looks.tells {P : Event → Prop} {x : Action α} (h : x.Looks)
    (hentry : ∀ level text, P (.entry level text)) : x.Tells P := by
  intro fs e he
  obtain ⟨level, text, rfl⟩ := (h fs).2 e he
  exact hentry level text

end Action

open DeclBundle.Action

theorem Settings.looks_resolveFrom (cwd path baseDir : String) (files : List String)
    (eol : Option String) (target : Value) : (resolveFrom cwd path baseDir files eol target).Looks := by
  unfold resolveFrom
  refine (looks_note _ _).bind fun _ => looks_files.bind fun fs => ?_
  refine (looks_ofExcept _).bind fun config => (looks_ofExcept _).bind fun options => ?_
  obtain ⟨merged, lineEnd⟩ := merge options eol target
  refine (looks_ofExcept _).bind fun listed => ?_
  split
  · exact (looks_note _ _).bind fun _ => looks_pure _
  · exact looks_pure _

theorem Settings.looks_resolve (cwd baseDir : String) (files : List String) (eol : Option String)
    (target project : Value) : (resolve cwd baseDir files eol target project).Looks := by
  unfold resolve
  refine (looks_ofExcept _).bind fun path => looks_files.bind fun fs => ?_
  refine (looks_ofExcept _).bind fun found => ?_
  split
  · exact looks_resolveFrom _ _ _ _ _ _
  · split
    · exact looks_fail _
    · exact (looks_note _ _).bind fun _ => looks_pure _

namespace Compiler

theorem looks_readReport (baseDir output : String) : (readReport baseDir output).Looks := by
  unfold readReport
  obtain ⟨report, bad⟩ := Report.read baseDir output
  have hignored : (forM report.ignored fun l =>
      note .debug ("Ignoring compiler output line: " ++ l) : Action Unit).Looks :=
    Looks.forM (fun l => looks_note _ _) _
  refine hignored.bind fun _ => ?_
  split
  · exact looks_fail _
  · exact looks_pure _

theorem looks_readDeclaration (site : Site) (baseDir dir : String) (found : List (String × String))
    (path : String) : (readDeclaration site baseDir dir found path).Looks := by
  unfold readDeclaration
  split
  · exact looks_pure found
  · refine looks_files.bind fun fs => ?_
    split
    · split
      · exact looks_pure _
      · exact looks_fail _
    · exact (looks_note _ _).bind fun _ => looks_pure found

theorem looks_readDeclarations (site : Site) (baseDir dir : String) (files : List String)
    (found : List (String × String)) : (readDeclarations site baseDir dir found files).Looks := by
  induction files generalizing found with
  | nil => exact looks_pure found
  | cons path files ih =>
      exact (looks_readDeclaration site baseDir dir found path).bind fun found => ih found

/-- It is a failure if declarations cannot be decoded, and none if there are none. -/
theorem fails_readDeclarations {P : Failure → Prop} (h : P .undecodable) (site : Site)
    (baseDir dir : String) (files : List String) (found : List (String × String)) :
    (readDeclarations site baseDir dir found files).Fails P := by
  induction files generalizing found with
  | nil => exact fails_pure found
  | cons path files ih =>
      refine Fails.bind ?_ fun found => ih found
      unfold readDeclaration
      split
      · exact fails_pure found
      · refine fails_files.bind fun fs => ?_
        split
        · split
          · exact fails_pure _
          · exact fails_fail h
        · exact (fails_tell _).bind fun _ => fails_pure found

theorem looks_programOf (site : Site) (baseDir dir : String) (report : Report) :
    (programOf site baseDir dir report).Looks := by
  simp only [programOf]
  split
  · exact (looks_readDeclarations site baseDir dir _ _).bind fun _ => looks_pure _
  · exact looks_fail _

def callOf (site : Site) (words : List String) (baseDir dir : String) (options : Record)
    (files : List String) (timeout : Value) : CompilerCall where
  command := words ++ ["-p", configPath site baseDir, "--listFiles", "--pretty", "false"]
  directory := baseDir
  config := (configuration (declarationOptions options baseDir dir) files).text
  timeout := timeoutOf timeout

section Tells

variable {P : Event → Prop} (site : Site) {words : List String} (executable : Value) {timeout : Value}
  {baseDir dir : String} {options : Record} {files : List String}

theorem tells_perform (dir : String) {c : CompilerCall} (hcall : P (.call c)) :
    (perform site dir c).Tells P := by
  unfold perform
  refine (tells_tell hcall).bind fun _ => ?_
  split
  · exact (tells_change _).bind fun _ => tells_fail _
  · exact tells_fail _
  · refine (tells_change _).bind fun _ => ?_
    split
    · exact tells_pure _
    · exact tells_fail _

variable (hentry : ∀ level text, P (.entry level text))

include hentry

theorem tells_createIn (hcall : P (.call (callOf site words baseDir dir options files timeout))) :
    (createIn site words baseDir dir options files timeout).Tells P := by
  unfold createIn
  refine (tells_change _).bind fun _ => ((looks_ofExcept _).tells hentry).bind fun _ =>
    Tells.bind (Tells.tidying ?_ _) fun output => ?_
  · exact ((looks_note _ _).tells hentry).bind fun _ => tells_perform site dir hcall
  · exact Looks.tells ((looks_readReport baseDir output).bind fun report =>
      looks_programOf site baseDir dir report) hentry

theorem tells_create
    (hcall : ∀ words, P (.call (callOf site words baseDir (declarationDir site) options files timeout))) :
    (create site executable timeout baseDir options files).Tells P := by
  unfold create
  refine (looks_files.tells hentry).bind fun fs => ((looks_ofExcept _).tells hentry).bind fun words => ?_
  refine (tells_change _).bind fun _ => ?_
  refine Tells.bind (Tells.tidying (tells_createIn site hentry (hcall words)) _) fun p => ?_
  exact ((looks_note _ _).bind fun _ => looks_pure _).tells hentry

end Tells

end Compiler

namespace Event

def IsAside (e : Event) : Prop := e.message? = none

end Event

namespace Bundler

/-- What a run does until it comes to its output file: it finds settings, a program and the path of that
file. -/
def load (b : Bundler) (site : Site) : Action (Settings × Program × String) := do
  let settings ← b.settings site
  Action.note .info ("Bundling " ++ toString (Module.entryPaths site.cwd b.baseDir
    (Options.texts b.options.files)).length ++ " entry files from " ++ b.baseDir ++ " as '" ++
    b.options.name.display ++ "'")
  let program ← Compiler.create site b.options.tsc b.options.timeout b.baseDir settings.options
    settings.files
  let out ← Action.ofExcept (b.outPath site.cwd)
  pure (settings, program, out)

/-- A run comes to its output file, writes the bundle to it and says so. -/
theorem run_eq (b : Bundler) (site : Site) :
    b.run site = (do
      let x ← b.load site
      b.write site x.1.eol x.2.2 x.2.1
      Action.note .info ("Wrote declaration bundle to " ++ x.2.2)) := by
  simp only [run, load, settings, bind_assoc, pure_bind]

theorem looks_settings (b : Bundler) (site : Site) : (b.settings site).Looks :=
  Settings.looks_resolve _ _ _ _ _ _

theorem tells_load (b : Bundler) (site : Site) : (b.load site).Tells Event.IsAside := by
  have hentry : ∀ level text, Event.IsAside (.entry level text) := fun _ _ => rfl
  unfold load
  refine ((b.looks_settings site).tells hentry).bind fun settings => ?_
  refine ((looks_note _ _).tells hentry).bind fun _ => ?_
  refine (Compiler.tells_create site _ hentry fun _ => rfl).bind fun p => ?_
  exact ((looks_ofExcept _).bind fun out => looks_pure _).tells hentry

end Bundler

end DeclBundle
