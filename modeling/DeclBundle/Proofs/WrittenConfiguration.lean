import DeclBundle.Proofs.MalformedFile

/-!
# Configurations that are written to their end

The settings of a run come from a document in JSON, from which nothing is read that cannot be written, and
from the level of the language that is asked for. So the configuration of the compiler is written to its end
exactly if that level can be written (`Bundler.obstacle_configuration_eq_none_iff`).
-/

namespace DeclBundle

open DeclBundle.Action Json

theorem exists_of_bind_eq_ok {α β : Type} {x : Except Failure α} {f : α → Except Failure β} {b : β}
    (h : x.bind f = .ok b) : ∃ a, x = .ok a ∧ f a = .ok b := by
  cases x with
  | error e => cases h
  | ok a => exact ⟨a, rfl, h⟩

namespace Settings

variable {config options : Record} {path : String}

theorem isFree_of_read {cwd : String} {fs : FileSystem} (h : read cwd path fs = .ok config) :
    ∀ e ∈ config, IsFree e := by
  unfold read at h
  split at h
  · cases h
  · split at h
    · cases h
    · exact isFree_of_parse h

theorem isFree_of_optionsOf (hconfig : ∀ e ∈ config, IsFree e) (h : optionsOf path config = .ok options) :
    ∀ e ∈ options, IsFree e := by
  unfold optionsOf at h
  split at h
  · obtain rfl := Except.ok.inj h
    nofun
  · next es hgiven =>
      obtain rfl := Except.ok.inj h
      exact obstacleAmong_eq_none_iff.1 (isFree_of_get? hconfig (Option.filter_eq_some_iff.1 hgiven).1)
  · cases h

theorem isFree_without {r : Record} (hr : ∀ e ∈ r, IsFree e) (drop : Value → Bool) :
    ∀ e ∈ r.without drop, IsFree e := fun e he => hr e (List.mem_filter.1 he).1

/-- Of the options that are merged all can be written if the level of the language can. -/
theorem isFree_merge (hoptions : ∀ e ∈ options, IsFree e) (eol : Option String) {target : Value}
    (htarget : target.isTruthy = true → obstacleOf target = none) :
    ∀ e ∈ (merge options eol target).1, IsFree e := by
  have hdeclared : ∀ e ∈ Record.put options (.text "declaration") (.bool true), IsFree e :=
    isFree_of_mem_put hoptions ⟨rfl, rfl⟩
  have hrest : ∀ r : Record, (∀ e ∈ r, IsFree e) →
      ∀ e ∈ if target.isTruthy = true then r.put (.text "target") target else r, IsFree e := by
    intro r hr
    split
    case isTrue htruthy => exact isFree_of_mem_put hr ⟨rfl, htarget htruthy⟩
    case isFalse => exact hr
  unfold merge
  cases requestedEol? eol with
  | some e =>
      dsimp only
      exact isFree_without (hrest _ (isFree_of_mem_put hdeclared ⟨rfl, obstacleOf_text _⟩)) _
  | none =>
      dsimp only
      exact isFree_without (hrest _ hdeclared) _

theorem isFree_defaults (eol : String) {target : Value}
    (htarget : target.isTruthy = true → obstacleOf target = none) : ∀ e ∈ defaults eol target, IsFree e := by
  have hlevel : obstacleOf (if target.isTruthy then target else .text defaultTarget) = none := by
    split
    case isTrue htruthy => exact htarget htruthy
    case isFalse => rfl
  simp [defaults, IsFree, hlevel]

theorem get?_merge_target (options : Record) (eol : Option String) {target : Value}
    (htruthy : target.isTruthy = true) : (merge options eol target).1.get? "target" = some target := by
  unfold merge
  simp only [if_pos htruthy]
  rw [Record.get?_without_of_not (by decide), Record.get?_put_self]

variable {cwd baseDir : String} {files : List String} {eol : Option String} {target project : Value}
  {fs fs' : FileSystem} {s : Settings}

/-- Settings come with the usual options, or with those of a file that was read. -/
theorem options_of_ends (h : (resolve cwd baseDir files eol target project).Ends fs s fs') :
    s.options = defaults s.eol target ∨
      ∃ options, (∀ e ∈ options, IsFree e) ∧ s.options = (merge options eol target).1 := by
  simp only [resolve, ends_bind_iff, ends_ofExcept_iff, ends_files_iff] at h
  obtain ⟨path, _, -, _, left, -, found, _, -, h⟩ := h
  split at h
  · refine .inr ?_
    have hresult := h.1
    rw [result_resolveFrom] at hresult
    obtain ⟨config, hread, hresult⟩ := exists_of_bind_eq_ok hresult
    obtain ⟨options, hoptions, hresult⟩ := exists_of_bind_eq_ok hresult
    cases hlisted : listedFiles baseDir config with
    | error e =>
        rw [hlisted] at hresult
        cases hresult
    | ok listed =>
        rw [hlisted] at hresult
        obtain rfl := Except.ok.inj hresult
        exact ⟨options, isFree_of_optionsOf (isFree_of_read hread) hoptions, rfl⟩
  · split at h
    · exact absurd h ends_fail_iff
    · simp only [ends_bind_iff, ends_note_iff, ends_pure_iff] at h
      obtain ⟨_, _, -, rfl, -⟩ := h
      exact .inl rfl

end Settings

namespace Compiler

variable {options : Record}

theorem obstacle_configuration (options : Record) (files : List String) :
    (configuration options files).obstacle = obstacleAmong options := by
  have hfiles : obstacleIn (files.map .text) = none := obstacleIn_eq_none_iff.2 (by simp)
  rw [configuration, obstacle_write, obstacleOf]
  simp [obstacleAmong, obstacleOf, hfiles]

theorem isFree_declarationOptions (h : ∀ e ∈ options, IsFree e) (baseDir dir : String) :
    ∀ e ∈ declarationOptions options baseDir dir, IsFree e := by
  have hkept := Settings.isFree_without h (isAmong conflicting)
  exact isFree_of_mem_put (isFree_of_mem_put (isFree_of_mem_put (isFree_of_mem_put hkept ⟨rfl, rfl⟩)
    ⟨rfl, rfl⟩) ⟨rfl, rfl⟩) ⟨rfl, rfl⟩

theorem get?_declarationOptions_target (options : Record) (baseDir dir : String) :
    (declarationOptions options baseDir dir).get? "target" = options.get? "target" := by
  simp only [declarationOptions]
  rw [Record.get?_put_of_ne (by decide), Record.get?_put_of_ne (by decide),
    Record.get?_put_of_ne (by decide), Record.get?_put_of_ne (by decide),
    Record.get?_without_of_not (by decide)]

end Compiler

namespace Bundler

variable {b : Bundler} {site : Site} {fs fs' : FileSystem} {settings : Settings}

/-- The level of the language that is asked for, if one is, can be written. -/
def HasWritableTarget (b : Bundler) : Prop :=
  b.options.target.isTruthy = true → obstacleOf b.options.target = none

theorem hasWritableTarget_of_text {s : String} (h : b.options.target = .text s) : b.HasWritableTarget := by
  intro _
  rw [h, obstacleOf_text]

theorem hasWritableTarget_of_null (h : b.options.target = .null) : b.HasWritableTarget := by
  intro htruthy
  rw [h] at htruthy
  cases htruthy

/-- With the settings of a run a configuration is written to its end exactly if the level of the language
that is asked for can be written. -/
theorem obstacle_configuration_eq_none_iff (h : (b.settings site).Ends fs settings fs') (baseDir dir : String)
    (files : List String) : (Compiler.configuration
      (Compiler.declarationOptions settings.options baseDir dir) files).obstacle = none ↔
        b.HasWritableTarget := by
  rw [Compiler.obstacle_configuration, obstacleAmong_eq_none_iff]
  constructor
  · intro hfree htruthy
    have htarget : settings.options.get? "target" = some b.options.target := by
      rcases Settings.options_of_ends h with hdefaults | ⟨options, -, hmerged⟩
      · rw [hdefaults, Settings.defaults, if_pos htruthy]
        rfl
      · rw [hmerged, Settings.get?_merge_target options _ htruthy]
    rw [← Compiler.get?_declarationOptions_target settings.options baseDir dir] at htarget
    exact isFree_of_get? hfree htarget
  · intro htarget
    refine Compiler.isFree_declarationOptions ?_ baseDir dir
    rcases Settings.options_of_ends h with hdefaults | ⟨options, hoptions, hmerged⟩
    · rw [hdefaults]
      exact Settings.isFree_defaults _ htarget
    · rw [hmerged]
      exact Settings.isFree_merge hoptions _ htarget

end Bundler

end DeclBundle
