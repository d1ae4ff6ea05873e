import DeclBundle.Bundle.Run
import Mathlib.Tactic.SplitIfs

/-!
# What a run leaves behind

`Action.Ends` says with which value and which files an action ends; for actions one after another it is
composed like a relation (`ends_bind_iff`). So a run that ends well did certain things (`Success`): it
came to settings, a program and an output file, and wrote the bundle of the program to that file. What
was written is what is read there afterwards (`Success.read_out`), and the text that ends lines is one of
the two that may be asked for (`Success.isEol`).
-/

namespace DeclBundle

namespace Action

variable {α β : Type}

/-- An action ends with a value and some files. -/
def Ends (x : Action α) (fs : FileSystem) (a : α) (fs' : FileSystem) : Prop :=
  (x fs).result = .ok a ∧ (x fs).files = fs'

/-- An action that has a value ends with it and with the files that it left. -/
theorem ends_of_toOption_eq_some {x : Action α} {fs : FileSystem} {a : α}
    (h : (x fs).result.toOption = some a) : x.Ends fs a (x fs).files := by
  refine ⟨?_, rfl⟩
  cases hresult : (x fs).result with
  | error e => simp [hresult, Except.toOption] at h
  | ok a' =>
      rw [hresult] at h
      obtain rfl : a' = a := Option.some.inj h
      rfl

theorem ends_bind_iff {x : Action α} {f : α → Action β} {fs fs' : FileSystem} {b : β} :
    (x >>= f).Ends fs b fs' ↔ ∃ a fs₁, x.Ends fs a fs₁ ∧ (f a).Ends fs₁ b fs' := by
  constructor
  · intro h
    cases hx : (x fs).result with
    | error e =>
        rw [Ends, bind_of_error hx] at h
        exact absurd h.1 (by simp)
    | ok a =>
        rw [Ends, bind_of_ok hx] at h
        exact ⟨a, (x fs).files, ⟨hx, rfl⟩, h⟩
  · rintro ⟨a, fs₁, ⟨hx, rfl⟩, hf⟩
    rw [Ends, bind_of_ok hx]
    exact hf

@[simp] theorem ends_pure_iff {a b : α} {fs fs' : FileSystem} :
    (pure a : Action α).Ends fs b fs' ↔ a = b ∧ fs = fs' := by
  simp [Ends]

@[simp] theorem ends_fail_iff {e : Failure} {a : α} {fs fs' : FileSystem} :
    ¬ (fail e : Action α).Ends fs a fs' := by
  simp [Ends]

@[simp] theorem ends_tell_iff {e : Event} {u : Unit} {fs fs' : FileSystem} :
    (tell e).Ends fs u fs' ↔ fs = fs' := by
  simp [Ends]

@[simp] theorem ends_note_iff {level : Level} {text : String} {u : Unit} {fs fs' : FileSystem} :
    (note level text).Ends fs u fs' ↔ fs = fs' := ends_tell_iff

@[simp] theorem ends_files_iff {fs fs' fs'' : FileSystem} :
    files.Ends fs fs' fs'' ↔ fs = fs' ∧ fs = fs'' := by
  simp [Ends]

@[simp] theorem ends_ofExcept_iff {x : Except Failure α} {a : α} {fs fs' : FileSystem} :
    (ofExcept x).Ends fs a fs' ↔ x = .ok a ∧ fs = fs' := Iff.rfl

@[simp] theorem ends_change_iff {f : FileSystem → Except FileSystem.Fault FileSystem} {u : Unit}
    {fs fs' : FileSystem} : (change f).Ends fs u fs' ↔ f fs = .ok fs' := by
  rw [Ends, change]
  cases f fs with
  | ok fs₁ => simp
  | error fault => simp

@[simp] theorem ends_forM_tell_iff {events : List Event} {u : Unit} {fs fs' : FileSystem} :
    (forM events tell : Action Unit).Ends fs u fs' ↔ fs = fs' := by
  induction events with
  | nil => exact ends_pure_iff.trans (and_iff_right rfl)
  | cons e events ih =>
      rw [List.forM_cons, ends_bind_iff]
      simp [ih]

end Action

namespace FileSystem

variable {fs fs' : FileSystem} {cwd p : String} {content : ByteArray}

/-- Steps lead where they led before a file was put at a place that is no directory. -/
theorem follow_put {l : Place} (hl : l ≠ []) (hfile : fs.get? l ≠ some .directory)
    {here : Place} {steps : List String} {there : Place} (h : fs.follow here steps = .ok there) :
    (fs.put l (.file content)).follow here steps = .ok there := by
  induction steps generalizing here with
  | nil => exact h
  | cons s steps ih =>
      rw [follow] at h ⊢
      cases hget : fs.get? here with
      | none => simp [hget] at h
      | some e =>
          cases e with
          | file old => simp [hget] at h
          | directory =>
              have hne : ¬ l = here := fun heq => hfile (heq ▸ hget)
              rw [get?_put fs hl, if_neg hne]
              simp only [hget] at h ⊢
              split_ifs at h ⊢
              · exact ih h
              · exact ih h
              · exact ih h

theorem read_of_write (h : fs.write cwd p content = .ok fs') : fs'.read cwd p = .ok content := by
  unfold write writable at h
  cases hplace : fs.place cwd p with
  | error c => simp [hplace, Except.map] at h
  | ok l =>
      simp only [hplace] at h
      split at h
      case isTrue => simp [Except.map] at h
      case isFalse hfile =>
        obtain rfl : fs.put l (.file content) = fs' := by simpa [Except.map] using h
        have hl : l ≠ [] := by
          rintro rfl
          exact hfile fs.get?_root
        have hplace' : (fs.put l (.file content)).place cwd p = .ok l := by
          unfold place at hplace ⊢
          split_ifs at hplace ⊢
          exact follow_put hl hfile hplace
        rw [read, hplace']
        simp [get?_put fs hl]

end FileSystem

namespace Settings

/-- A text that may end the lines of a bundle. -/
def IsEol (eol : String) : Prop := eol = "\n" ∨ eol = "\r\n"

instance (eol : String) : Decidable (IsEol eol) := inferInstanceAs (Decidable (_ ∨ _))

theorem isEol_of_problem? {o : Options} (h : o.problem? = none) {e : String}
    (he : o.eol.text? = some e) : IsEol e := by
  cases heol : o.eol with
  | text s =>
      obtain rfl : s = e := by simpa [heol, Value.text?] using he
      refine Decidable.byContradiction fun hnot => ?_
      have hbad : (!Options.isNull o.eol && !Options.isEol o.eol) = true := by
        simpa [heol, Options.isNull, Options.isEol, IsEol] using hnot
      rw [Options.problem?, if_pos hbad] at h
      split at h
      · cases h
      · split at h
        · cases h
        · cases h
  | _ => simp [heol, Value.text?] at he

theorem isEol_eolOf (name : Value) : IsEol (eolOf name) := by
  rw [eolOf]
  split
  · exact Or.inr rfl
  · exact Or.inl rfl

theorem isEol_merge {eol : Option String} (h : ∀ e, eol = some e → IsEol e) (options : Record)
    (target : Value) : IsEol (merge options eol target).2 := by
  cases heol : requestedEol? eol with
  | some e =>
      have he := h e (Option.filter_eq_some_iff.1 heol).1
      simpa [merge, heol] using he
  | none =>
      have hdefault : IsEol ((eolOfOption? (Record.put options (.text "declaration")
          (.bool true))).getD defaultEol) := by
        unfold eolOfOption?
        split
        · split
          · exact isEol_eolOf _
          · exact Or.inl rfl
        · exact Or.inl rfl
      simpa [merge, heol] using hdefault

theorem isEol_of_resolveFrom {cwd path baseDir : String} {files : List String} {eol : Option String}
    {target : Value} {fs fs' : FileSystem} {settings : Settings} (h : ∀ e, eol = some e → IsEol e)
    (hends : (resolveFrom cwd path baseDir files eol target).Ends fs settings fs') :
    IsEol settings.eol := by
  simp only [resolveFrom, Action.ends_bind_iff, Action.ends_ofExcept_iff, Action.ends_files_iff,
    Action.ends_note_iff] at hends
  obtain ⟨_, _, rfl, _, _, ⟨rfl, rfl⟩, config, _, ⟨-, rfl⟩, options, _, ⟨-, rfl⟩, listed, _, ⟨-, rfl⟩,
    hends⟩ := hends
  split_ifs at hends
  · obtain ⟨_, _, -, hpure⟩ := Action.ends_bind_iff.1 hends
    obtain ⟨rfl, -⟩ := Action.ends_pure_iff.1 hpure
    exact isEol_merge h options target
  · obtain ⟨rfl, -⟩ := Action.ends_pure_iff.1 hends
    exact isEol_merge h options target

theorem isEol_of_resolve {cwd baseDir : String} {files : List String} {eol : Option String}
    {target project : Value} {fs fs' : FileSystem} {settings : Settings}
    (h : ∀ e, eol = some e → IsEol e)
    (hends : (resolve cwd baseDir files eol target project).Ends fs settings fs') :
    IsEol settings.eol := by
  simp only [resolve, Action.ends_bind_iff, Action.ends_ofExcept_iff, Action.ends_files_iff] at hends
  obtain ⟨path, _, ⟨-, rfl⟩, _, _, ⟨rfl, rfl⟩, found, _, ⟨-, rfl⟩, hends⟩ := hends
  split_ifs at hends
  · exact isEol_of_resolveFrom h hends
  · exact absurd hends Action.ends_fail_iff
  · obtain ⟨_, _, -, hpure⟩ := Action.ends_bind_iff.1 hends
    obtain ⟨rfl, -⟩ := Action.ends_pure_iff.1 hpure
    cases heol : requestedEol? eol with
    | some e => exact h e (Option.filter_eq_some_iff.1 heol).1
    | none => exact Or.inl rfl

end Settings

namespace Bundler

def settings (b : Bundler) (site : Site) : Action Settings :=
  Settings.resolve site.cwd b.baseDir
    (Module.entryPaths site.cwd b.baseDir (Options.texts b.options.files)) b.options.eol.text?
    b.options.target b.options.project

/-- What a run does until its output file is open: it comes to settings, a program and the path of that
file. -/
def prepare (b : Bundler) (site : Site) : Action (Settings × Program × String) := do
  let settings ← b.settings site
  let program ← Compiler.create site b.options.tsc b.options.timeout b.baseDir settings.options
    settings.files
  let out ← Action.ofExcept (b.outPath site.cwd)
  Action.makeDirectories site.cwd (Path.directory out)
  Action.change fun fs => fs.write site.cwd out ByteArray.empty
  pure (settings, program, out)

/-- What a run did that began with some files, ended well and left others. -/
structure Success (b : Bundler) (site : Site) (fs fs' : FileSystem) where
  settings : Settings
  program : Program
  out : String
  opened : FileSystem
  prepare_ends : (b.prepare site).Ends fs (settings, program, out) opened
  failure_eq : ((b.assembly site settings.eol).bundle opened program).failure = none
  write_eq : opened.write site.cwd out
    (Text.encode ((b.assembly site settings.eol).bundle opened program).text) = .ok fs'

namespace Success

variable {b : Bundler} {site : Site} {fs fs' : FileSystem}

def assembly (w : Success b site fs fs') : Assembly := b.assembly site w.settings.eol

def text (w : Success b site fs fs') : String := (w.assembly.bundle w.opened w.program).text

theorem read_out (w : Success b site fs fs') : fs'.read site.cwd w.out = .ok (Text.encode w.text) :=
  FileSystem.read_of_write w.write_eq

end Success

theorem exists_success {b : Bundler} {site : Site} {fs fs' : FileSystem}
    (h : (b.run site).Ends fs () fs') : Nonempty (Success b site fs fs') := by
  simp only [run, write, Action.ends_bind_iff, Action.ends_note_iff, Action.ends_ofExcept_iff,
    Action.ends_change_iff, Action.ends_files_iff, List.forM_eq_forM, Action.ends_forM_tell_iff] at h
  obtain ⟨settings, settled, hsettings, _, _, rfl, p, compiled, hcreate, out, _, ⟨hout, rfl⟩, _, _,
    ⟨_, made, hmake, _, opened, hempty, _, _, ⟨rfl, rfl⟩, _, _, rfl, _, _, hwrite, hend⟩, rfl⟩ := h
  have hprepare : (b.prepare site).Ends fs (settings, p, out) opened := by
    simp only [prepare, Action.ends_bind_iff, Action.ends_ofExcept_iff, Action.ends_change_iff,
      Action.ends_pure_iff]
    exact ⟨settings, _, hsettings, p, _, hcreate, out, _, ⟨hout, rfl⟩, (), made, hmake, (), opened,
      hempty, rfl, rfl⟩
  cases hfailure : ((b.assembly site settings.eol).bundle opened p).failure with
  | some e => exact absurd hend (by simp [hfailure])
  | none =>
      rw [hfailure] at hend
      obtain ⟨-, rfl⟩ := Action.ends_pure_iff.1 hend
      exact ⟨⟨settings, p, out, opened, hprepare, hfailure, hwrite⟩⟩

theorem ofOptions_eq_ok {b : Bundler} {cwd dir : String} (hproblem : b.options.problem?.isNone = true)
    (hdir : b.options.baseDir = .text dir) (hbase : Path.absolute cwd dir = b.baseDir) :
    ofOptions cwd b.options = .ok b := by
  rw [ofOptions, Options.validate, Option.isNone_iff_eq_none.1 hproblem]
  simp only [bind, Except.bind, hdir, hbase]
  rfl

/-- A bundler has the options that it was made of, which were in order, and an absolute base directory. -/
theorem of_ofOptions {cwd : String} {o : Options} {b : Bundler} (h : ofOptions cwd o = .ok b) :
    o.problem? = none ∧ b.options = o ∧ ∃ dir, b.baseDir = Path.absolute cwd dir := by
  unfold ofOptions Options.validate at h
  cases hproblem : o.problem? with
  | some problem => simp [hproblem, bind, Except.bind] at h
  | none =>
      simp only [hproblem, bind, Except.bind] at h
      split at h
      · next dir _ =>
          obtain rfl := Except.ok.inj h
          exact ⟨rfl, rfl, dir, rfl⟩
      · simp [throw, throwThe, MonadExceptOf.throw] at h

theorem isEol_of_ofOptions {cwd : String} {o : Options} {b : Bundler} (h : ofOptions cwd o = .ok b)
    {e : String} (he : b.options.eol.text? = some e) : Settings.IsEol e := by
  obtain ⟨hproblem, rfl, -⟩ := of_ofOptions h
  exact Settings.isEol_of_problem? hproblem he

theorem Success.exists_create {b : Bundler} {site : Site} {fs fs' : FileSystem} (w : Success b site fs fs') :
    ∃ settled left, (b.settings site).Ends fs w.settings settled ∧
      (Compiler.create site b.options.tsc b.options.timeout b.baseDir w.settings.options
        w.settings.files).Ends settled w.program left := by
  have hprepare := w.prepare_ends
  simp only [prepare, Action.ends_bind_iff, Action.ends_pure_iff, Prod.mk.injEq] at hprepare
  obtain ⟨_, settled, hsettings, _, left, hcreate, _, _, -, _, _, -, _, _, -, ⟨rfl, rfl, -⟩, -⟩ := hprepare
  exact ⟨settled, left, hsettings, hcreate⟩

theorem Success.isEol {b : Bundler} {site : Site} {fs fs' : FileSystem} (w : Success b site fs fs')
    {cwd : String} {o : Options} (hb : ofOptions cwd o = .ok b) : Settings.IsEol w.settings.eol := by
  obtain ⟨_, _, hsettings, -⟩ := w.exists_create
  exact Settings.isEol_of_resolve (fun e he => isEol_of_ofOptions hb he) hsettings

end Bundler

end DeclBundle
