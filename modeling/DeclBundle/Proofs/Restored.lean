import DeclBundle.Proofs.Actions
import DeclBundle.Proofs.TidyPath
import DeclBundle.Proofs.WrittenConfiguration

/-!
# Files that are put back

What a run of the compiler adds to the files stands in rows behind all others, and these rows are taken away
again. So the table of the files is the one it was, not only does everything lie where it lay
(`Compiler.files_create`), and a run leaves the files that it found until it comes to its output file
(`Bundler.files_load`).
-/

namespace DeclBundle

namespace FileSystem

variable {fs fs' : FileSystem} {extra : Place → Prop} {l p top : Place} {e : Entry}
  {es more : List (Place × Entry)}

/-! ### Rows -/

theorem forall_ne_of_lookUp (h : lookUp es p = none) : ∀ x ∈ es, x.1 ≠ p := by
  induction es with
  | nil => nofun
  | cons x es ih =>
      rw [lookUp] at h
      split at h
      · cases h
      · next hne => exact List.forall_mem_cons.2 ⟨hne, ih h⟩

theorem enter_append (h : ∀ x ∈ es, x.1 ≠ p) (more : List (Place × Entry)) (e : Entry) :
    enter (es ++ more) p e = es ++ enter more p e := by
  induction es with
  | nil => rfl
  | cons x es ih =>
      obtain ⟨hne, hes⟩ := List.forall_mem_cons.1 h
      rw [List.cons_append, enter, if_neg hne, ih hes, List.cons_append]

theorem forall_mem_enter {P : Place → Prop} (h : ∀ x ∈ es, P x.1) (hp : P p) (e : Entry) :
    ∀ x ∈ enter es p e, P x.1 := by
  induction es with
  | nil => simpa [enter] using hp
  | cons x es ih =>
      obtain ⟨hx, hes⟩ := List.forall_mem_cons.1 h
      rw [enter]
      split
      · exact List.forall_mem_cons.2 ⟨hp, hes⟩
      · exact List.forall_mem_cons.2 ⟨hx, ih hes⟩

theorem put_put (fs : FileSystem) (l : Place) (e e' : Entry) : (fs.put l e).put l e' = fs.put l e' := by
  have henter : ∀ es, enter (enter es l e) l e' = enter es l e' := by
    intro es
    induction es with
    | nil => simp [enter]
    | cons x es ih =>
        by_cases hx : x.1 = l
        · simp [enter, hx]
        · simp [enter, hx, ih]
  rw [put, put, put, henter]

/-- There are more rows at the end of a table, for places of some kind. -/
def Extends (extra : Place → Prop) (fs fs' : FileSystem) : Prop :=
  ∃ more, fs'.entries = fs.entries ++ more ∧ ∀ x ∈ more, extra x.1

def IsFree (extra : Place → Prop) (fs : FileSystem) : Prop := ∀ q, extra q → fs.get? q = none

theorem IsFree.not_extra (h : fs.IsFree extra) {x : Place × Entry} (hx : x ∈ fs.entries) :
    ¬ extra x.1 := by
  intro hextra
  have hnone := h _ hextra
  rw [get?, if_neg (ne_nil_of_free hnone)] at hnone
  exact forall_ne_of_lookUp hnone x hx rfl

theorem Extends.refl (extra : Place → Prop) (fs : FileSystem) : Extends extra fs fs :=
  ⟨[], (List.append_nil _).symm, nofun⟩

theorem Extends.put (h : Extends extra fs fs') (hfree : fs.IsFree extra) (hl : extra l) (e : Entry) :
    Extends extra fs (fs'.put l e) := by
  obtain ⟨more, hmore, hextra⟩ := h
  refine ⟨enter more l e, ?_, forall_mem_enter hextra hl e⟩
  rw [FileSystem.put, hmore, enter_append fun x hx heq => hfree.not_extra hx (heq ▸ hl)]

theorem lookUp_append (es more : List (Place × Entry)) (p : Place) :
    lookUp (es ++ more) p = (lookUp es p).or (lookUp more p) := by
  induction es with
  | nil => rfl
  | cons x es ih =>
      by_cases hx : x.1 = p
      · simp [lookUp, hx]
      · simp [lookUp, hx, ih]

theorem Extends.get?_eq_none (h : Extends extra fs fs') (hnone : fs'.get? l = none) : fs.get? l = none := by
  obtain ⟨more, hmore, -⟩ := h
  have hl := ne_nil_of_free hnone
  rw [get?, if_neg hl, hmore, lookUp_append, Option.or_eq_none_iff] at hnone
  rw [get?, if_neg hl, hnone.1]

theorem Extends.without (h : Extends extra fs fs') (hfree : fs.IsFree extra) {drop : Place → Bool}
    (hdrop : ∀ q, drop q = true → extra q) :
    Extends (fun q => extra q ∧ drop q = false) fs (fs'.without drop) := by
  obtain ⟨more, hmore, hextra⟩ := h
  have hkept : fs.entries.filter (fun x => !drop x.1) = fs.entries :=
    List.filter_eq_self.2 fun x hx => by
      have hnot : ¬ drop x.1 = true := fun hd => hfree.not_extra hx (hdrop _ hd)
      simpa using hnot
  refine ⟨more.filter fun x => !drop x.1, ?_, fun x hx => ?_⟩
  · rw [FileSystem.without, hmore, List.filter_append, hkept]
  · obtain ⟨hmem, hnot⟩ := List.mem_filter.1 hx
    exact ⟨hextra x hmem, by simpa using hnot⟩

theorem Extends.mono {extra' : Place → Prop} (h : Extends extra fs fs') (hle : ∀ q, extra q → extra' q) :
    Extends extra' fs fs' := by
  obtain ⟨more, hmore, hextra⟩ := h
  exact ⟨more, hmore, fun x hx => hle _ (hextra x hx)⟩

theorem Extends.eq (h : Extends extra fs fs') (hnone : ∀ q, ¬ extra q) : fs' = fs := by
  obtain ⟨more, hmore, hextra⟩ := h
  obtain rfl : more = [] := List.eq_nil_iff_forall_not_mem.2 fun x hx => hnone _ (hextra x hx)
  rw [List.append_nil] at hmore
  cases fs
  cases fs'
  exact congrArg FileSystem.mk hmore

/-- A directory that is taken away again, with all that lies below it, leaves no trace. -/
theorem get?_without_isWithin_put (hnone : fs.get? top = none) (hfree : fs.IsFree (top <+: ·)) (e : Entry)
    (q : Place) : ((fs.put top e).without (isWithin top)).get? q = fs.get? q := by
  by_cases hq : q = []
  · rw [hq, get?_root, get?_root]
  · rw [get?_without _ _ hq, get?_put fs (ne_nil_of_free hnone)]
    split
    case isTrue hbelow => exact (hfree q (isWithin_iff.1 hbelow)).symm
    case isFalse habove =>
      refine if_neg fun heq => habove (isWithin_iff.2 ?_)
      rw [heq]

/-- What is dropped need not have been put. -/
theorem get?_without_put_of_dropped {drop : Place → Bool} (hl : l ≠ []) (hdrop : drop l = true) (e : Entry)
    (q : Place) : ((fs.put l e).without drop).get? q = (fs.without drop).get? q := by
  by_cases hq : q = []
  · rw [hq, get?_root, get?_root]
  · rw [get?_without _ _ hq, get?_without _ _ hq, get?_put _ hl]
    split
    · rfl
    · next hkept => exact if_neg fun heq : l = q => hkept (heq ▸ hdrop)

theorem get?_without_put {drop : Place → Bool} (hl : l ≠ []) (hdrop : drop l = false) (e : Entry) (q : Place) :
    ((fs.put l e).without drop).get? q = if l = q then some e else (fs.without drop).get? q := by
  by_cases hq : q = []
  · rw [hq, get?_root, get?_root, if_neg hl]
  · rw [get?_without _ _ hq, get?_without _ _ hq, get?_put fs hl]
    split
    · next h =>
        rw [if_neg]
        rintro rfl
        rw [hdrop] at h
        cases h
    · rfl

/-! ### Planting -/

def IsReached (fs : FileSystem) (top : Place) : Prop := ∀ r, r <+: top → r ≠ top → fs.get? r ≠ none

theorem IsReached.put (h : fs.IsReached top) (hl : l ≠ []) (e : Entry) :
    (fs.put l e).IsReached top := by
  intro r hr hne
  rw [get?_put fs hl]
  split
  · exact Option.some_ne_none e
  · exact h r hr hne

/-- What is planted in related file systems leaves them related: directories are missing in both, and only
from some place on. -/
theorem plant_rel {R : FileSystem → FileSystem → Prop} (htop : top <+: l) (hne : top ≠ [])
    (hsame : ∀ c c' q, R c c' → q <+: l → (c.get? q).isSome = (c'.get? q).isSome)
    (hreach : ∀ c c', R c c' → c.IsReached top)
    (hput : ∀ c c' q e, R c c' → top <+: q → R (c.put q e) (c'.put q e)) (h : R fs fs') (e : Entry) :
    R (fs.plant l e) (fs'.plant l e) := by
  have hl : l ≠ [] := by
    rintro rfl
    exact hne (List.prefix_nil.1 htop)
  rw [plant, plant, if_neg hl, if_neg hl]
  refine hput _ _ l e (List.foldl_rel h fun n _ c c' hc => ?_) htop
  rw [hsame c c' _ hc (List.take_prefix n l)]
  split
  case isTrue => exact hc
  case isFalse hfree =>
    refine hput c c' _ _ hc ?_
    -- A place that is free does not lie above `top`.
    rw [← hsame c c' _ hc (List.take_prefix n l)] at hfree
    refine Decidable.byContradiction fun hoff => ?_
    have habove := (List.prefix_or_prefix_of_prefix htop (l.take_prefix n)).resolve_left hoff
    exact hreach c c' hc _ habove (fun heq => hoff (heq ▸ List.prefix_rfl)) (by simpa using hfree)

end FileSystem

namespace Action

variable {α β : Type}

theorem bind_of_failed {x : Action α} {fs fs' : FileSystem} {events : List Event} {e : Failure}
    (h : x fs = ⟨fs', events, .error e⟩) (f : α → Action β) : (x >>= f) fs = ⟨fs', events, .error e⟩ := by
  rw [bind_of_error (congrArg Effect.result h), h]

theorem tidying_of_failed {x : Action α} {fs fs' : FileSystem} {events : List Event} {e : Failure}
    (h : x fs = ⟨fs', events, .error e⟩) (tidy : FileSystem → FileSystem) :
    x.tidying tidy fs = ⟨tidy fs', events, .error e⟩ := by
  rw [tidying, h]

theorem files_bind {x : Action α} {f : α → Action β} (hf : ∀ a, (f a).Looks) (fs : FileSystem) :
    ((x >>= f) fs).files = (x fs).files := by
  rw [bind_apply]
  split
  · rfl
  · exact (hf _ _).1

theorem files_bind_of_eq {x : Action α} {f : α → Action β} {fs : FileSystem} (hx : (x fs).files = fs)
    (hf : ∀ a, x.Ends fs a fs → (f a fs).files = fs) : ((x >>= f) fs).files = fs := by
  rw [bind_apply]
  split
  · exact hx
  case h_2 a ha =>
    dsimp only
    rw [hx, hf a ⟨ha, hx⟩]

/-- A change of files comes to nothing, or the rest is done on what it made of them. -/
theorem files_change_bind (f : FileSystem → Except FileSystem.Fault FileSystem) (g : Unit → Action β)
    (fs : FileSystem) : ((change f >>= g) fs).files = fs ∨
      ∃ fs', f fs = .ok fs' ∧ ((change f >>= g) fs).files = (g () fs').files := by
  cases h : f fs with
  | ok fs' =>
      refine Or.inr ⟨fs', rfl, ?_⟩
      rw [bind_of_untold (change_of_ok h)]
  | error fault =>
      refine Or.inl ?_
      rw [bind_apply, change, h]

end Action

open DeclBundle.Action FileSystem

/-- A site whose directories are absolute and whose temporary files have names of one step. -/
structure Site.IsRegular (site : Site) : Prop where
  cwd : Path.isAbsolute site.cwd = true
  temporary : Path.isAbsolute site.temporary = true
  temporary_normal : Path.normalize site.temporary = site.temporary
  directory : '/' ∉ site.tokens.directory.toList
  configuration : '/' ∉ site.tokens.configuration.toList

/-- What the compiler writes until a call of it is over, whether it ended or was given up. -/
def CallOutcome.written : CallOutcome → List (String × Option ByteArray)
  | finished _ _ _ written => written
  | timedOut written => written
  | refused _ _ => []

/-- The compiler writes only below the directory that it is given for declarations. -/
def Site.WritesBelow (site : Site) : Prop :=
  ∀ c, ∀ w ∈ (site.answer c).written, placeOf (Compiler.declarationDir site) <+:
    placeOf (Path.normalize (Path.join (Compiler.declarationDir site) w.1))

namespace Compiler

variable {site : Site} {fs fs' : FileSystem} {dir : String}

theorem rooted_declarationDir (h : site.IsRegular) :
    ∃ steps, Path.Rooted (declarationDir site).toList steps := by
  obtain ⟨cs, hcs⟩ := Path.isAbsolute_iff.1 h.temporary
  have htemporary : Path.Rooted site.temporary.toList
      (Path.settle true (Path.stepsOf ('/' :: cs))) := by
    rw [← h.temporary_normal, Path.normalize, String.toList_ofList, hcs]
    exact Path.rooted_normal cs
  have hname : Path.Ordinary ("dts-bundler-" ++ site.tokens.directory).toList := by
    refine ⟨?_, ?_, ?_⟩
    · simp
    · simp [Path.here]
    · simp [Path.up]
  rw [declarationDir, Path.join, String.toList_ofList]
  exact ⟨_, htemporary.rooted_below hname (by simpa using h.directory)⟩

theorem rooted_configPath_below (h : site.IsRegular) {baseDir : String} {steps : List (List Char)}
    (hbase : Path.Rooted (Path.absolute site.cwd baseDir).toList steps) :
    Path.Rooted (configPath site baseDir).toList
      (steps ++ [(".dts-bundler-" ++ site.tokens.configuration ++ ".json").toList]) := by
  have hname : Path.Ordinary (".dts-bundler-" ++ site.tokens.configuration ++ ".json").toList := by
    refine ⟨?_, ?_, ?_⟩
    · simp
    · simp [Path.here]
    · simp [Path.up]
  rw [configPath, Path.join, String.toList_ofList]
  exact hbase.rooted_below hname (by simpa using h.configuration)

theorem rooted_configPath (h : site.IsRegular) (baseDir : String) :
    ∃ steps, Path.Rooted (configPath site baseDir).toList steps := by
  obtain ⟨steps, hbase⟩ := Path.rooted_absolute h.cwd baseDir
  exact ⟨_, rooted_configPath_below h hbase⟩

theorem eq_put_of_createFile {p text : String} {ss : List (List Char)}
    (hp : Path.Rooted p.toList ss) (h : createFile site p text fs = .ok fs') :
    fs.get? (placeOf p) = none ∧ fs' = fs.put (placeOf p) (.file (Text.encode text)) := by
  unfold createFile at h
  split at h
  · cases h
  case h_2 l hplace =>
    obtain rfl := place_eq_placeOf hp hplace
    split at h
    · cases h
    case isFalse hfree => exact ⟨by simpa using hfree, (Except.ok.inj h).symm⟩

theorem plantAll_rel {R : FileSystem → FileSystem → Prop} {written : List (String × Option ByteArray)}
    (hw : ∀ w ∈ written, placeOf dir <+: placeOf (Path.normalize (Path.join dir w.1)))
    (hne : placeOf dir ≠ [])
    (hsame : ∀ c c' q, R c c' → placeOf dir <+: q ∨ q <+: placeOf dir →
      (c.get? q).isSome = (c'.get? q).isSome)
    (hreach : ∀ c c', R c c' → c.IsReached (placeOf dir))
    (hput : ∀ c c' q e, R c c' → placeOf dir <+: q → R (c.put q e) (c'.put q e)) (h : R fs fs') :
    R (plantAll dir written fs) (plantAll dir written fs') :=
  List.foldl_rel h fun w hmem _ _ hc => plant_rel (hw w hmem) hne
    (fun c c' q hc hq => hsame c c' q hc (List.prefix_or_prefix_of_prefix (hw w hmem) hq)) hreach hput hc _

theorem files_perform (site : Site) (dir : String) (c : CompilerCall) (fs : FileSystem) :
    (perform site dir c fs).files = plantAll dir (site.answer c).written fs := by
  unfold perform
  rw [bind_of_told (tell_apply _ fs)]
  dsimp only
  cases site.answer c with
  | timedOut written =>
      dsimp only
      rw [files_bind fun _ => looks_fail _]
      rfl
  | refused code text => rfl
  | finished output errors status written =>
      dsimp only
      rw [files_bind]
      · rfl
      · intro _
        split
        · exact looks_pure _
        · exact looks_fail _

/-- The files behind a call: a configuration that was written to its end is taken away again. -/
theorem files_createIn (site : Site) (words : List String) (baseDir dir : String) {options : Record}
    {files : List String}
    (hcomplete : (configuration (declarationOptions options baseDir dir) files).obstacle = none)
    (timeout : Value) (fs : FileSystem) :
    (createIn site words baseDir dir options files timeout fs).files = fs ∨
      ∃ configured, createFile site (configPath site baseDir)
          (callOf site words baseDir dir options files timeout).config fs = .ok configured ∧
        (createIn site words baseDir dir options files timeout fs).files =
          (plantAll dir (site.answer (callOf site words baseDir dir options files timeout)).written
            configured).without (· == placeOf (configPath site baseDir)) := by
  simp only [createIn]
  rcases files_change_bind (createFile site (configPath site baseDir) _) _ fs with
    hsame | ⟨configured, hconfig, hfiles⟩
  · exact .inl hsame
  · refine .inr ⟨configured, hconfig, ?_⟩
    have hnote (level : Level) (text : String) : note level text configured =
        ⟨configured, [.entry level text], .ok ()⟩ := rfl
    have hwhole : ofExcept (completed (configuration (declarationOptions options baseDir dir) files))
        configured = ⟨configured, [], .ok ()⟩ := by
      rw [completed_eq_ok_iff.2 hcomplete]
      rfl
    rw [hfiles, bind_of_untold hwhole, files_bind fun output =>
      (looks_readReport baseDir output).bind fun report => looks_programOf site _ _ report, tidying,
      bind_of_told (hnote _ _), files_perform]
    rfl

/-- A configuration that cannot be written to its end ends the run, and remains. -/
theorem createIn_of_obstacle (site : Site) (words : List String) (baseDir dir : String) {options : Record}
    {files : List String} {o : Json.Obstacle}
    (hobstacle : (configuration (declarationOptions options baseDir dir) files).obstacle = some o)
    (timeout : Value) (fs : FileSystem) :
    (∃ e, createIn site words baseDir dir options files timeout fs = ⟨fs, [], .error e⟩) ∨
      ∃ configured, createFile site (configPath site baseDir)
          (configuration (declarationOptions options baseDir dir) files).text fs = .ok configured ∧
        createIn site words baseDir dir options files timeout fs =
          ⟨configured, [], .error (unwritable o)⟩ := by
  simp only [createIn]
  cases hconfig : createFile site (configPath site baseDir)
    (configuration (declarationOptions options baseDir dir) files).text fs with
  | error fault =>
      have hfail : change (createFile site (configPath site baseDir)
          (configuration (declarationOptions options baseDir dir) files).text) fs =
            ⟨fs, [], .error (.system fault)⟩ := by
        rw [change, hconfig]
      exact .inl ⟨_, bind_of_failed hfail _⟩
  | ok configured =>
      have hstop : ofExcept (completed (configuration (declarationOptions options baseDir dir) files))
          configured = ⟨configured, [], .error (unwritable o)⟩ := by
        rw [completed, hobstacle]
        rfl
      rw [bind_of_untold (change_of_ok hconfig)]
      exact .inr ⟨configured, rfl, bind_of_failed hstop _⟩

/-- Behind a call there are more rows only for places below the directory for declarations. -/
theorem extends_createIn (hsite : site.IsRegular) (hw : site.WritesBelow) {made : FileSystem}
    (hfree : fs.IsFree (placeOf (declarationDir site) <+: ·)) (hne : placeOf (declarationDir site) ≠ [])
    (hmade : Extends (placeOf (declarationDir site) <+: ·) fs made)
    (hreach : made.IsReached (placeOf (declarationDir site))) (words : List String) {baseDir : String}
    {options : Record} {files : List String}
    (hcomplete : (configuration (declarationOptions options baseDir (declarationDir site)) files).obstacle =
      none) (timeout : Value) :
    Extends (placeOf (declarationDir site) <+: ·) fs
      (createIn site words baseDir (declarationDir site) options files timeout made).files := by
  obtain ⟨ss, hpath⟩ := rooted_configPath hsite baseDir
  rcases files_createIn site words baseDir (declarationDir site) hcomplete timeout made with
    hsame | ⟨configured, hconfig, hfiles⟩
  · rw [hsame]
    exact hmade
  · obtain ⟨hnone, rfl⟩ := eq_put_of_createFile hpath hconfig
    have hfree' : fs.IsFree fun q =>
        placeOf (declarationDir site) <+: q ∨ q = placeOf (configPath site baseDir) := by
      intro q hq
      rcases hq with hq | heq
      · exact hfree q hq
      · rw [heq]
        exact hmade.get?_eq_none hnone
    have hconfigured := (hmade.mono fun q hq => Or.inl hq).put hfree' (.inr rfl)
      (.file (Text.encode (callOf site words baseDir (declarationDir site) options files timeout).config))
    have hwritten := plantAll_rel (R := fun c c' => c = c' ∧ c.IsReached (placeOf (declarationDir site)) ∧
        Extends (fun q => placeOf (declarationDir site) <+: q ∨ q = placeOf (configPath site baseDir)) fs c)
      (hw (callOf site words baseDir (declarationDir site) options files timeout)) hne
      (fun _ _ _ hc _ => by rw [hc.1]) (fun _ _ hc => hc.2.1)
      (fun c c' q e hc hq => ⟨by rw [hc.1], hc.2.1.put (hq.ne_nil hne) e, hc.2.2.put hfree' (.inl hq) e⟩)
      ⟨rfl, hreach.put (ne_nil_of_free hnone) _, hconfigured⟩
    rw [hfiles]
    refine (hwritten.2.2.without hfree' fun q hq => .inr (eq_of_beq hq)).mono fun q ⟨hq, hnot⟩ => ?_
    exact hq.resolve_right fun heq => by simp [heq] at hnot

/-- Once a program is made, or cannot be made, the files are those that were there, unless the configuration
could not be written to its end. -/
theorem files_create (hsite : site.IsRegular) (hw : site.WritesBelow)
    (hfree : fs.get? (placeOf (declarationDir site)) = none →
      fs.IsFree (placeOf (declarationDir site) <+: ·))
    (executable timeout : Value) {baseDir : String} {options : Record} {files : List String}
    (hcomplete : (configuration (declarationOptions options baseDir (declarationDir site)) files).obstacle =
      none) :
    (create site executable timeout baseDir options files fs).files = fs := by
  obtain ⟨ss, hdir⟩ := rooted_declarationDir hsite
  obtain ⟨ss', hpath⟩ := rooted_configPath hsite baseDir
  unfold create
  rw [bind_of_untold (files_apply fs)]
  cases hwords : command site fs baseDir executable with
  | error e => rfl
  | ok words =>
      have hcommand : (ofExcept (.ok words) : Action (List String)) fs = ⟨fs, [], .ok words⟩ := rfl
      rw [bind_of_untold hcommand]
      rcases files_change_bind (fun fs => fs.makeDirectory site.cwd (declarationDir site)) _ fs with
        hsame | ⟨made, hmake, hfiles⟩
      · exact hsame
      · obtain ⟨hplace, hnone, hput⟩ := eq_put_of_makeDirectory hdir hmake
        have hmade : Extends (placeOf (declarationDir site) <+: ·) fs made := by
          rw [hput]
          exact (Extends.refl _ fs).put (hfree hnone) List.prefix_rfl _
        have hreach : made.IsReached (placeOf (declarationDir site)) := by
          intro r hr hne
          rw [hput, get?_put fs (ne_nil_of_free hnone), if_neg (Ne.symm hne),
            directory_of_place hplace hr hne]
          exact Option.some_ne_none _
        have hinside := extends_createIn hsite hw (hfree hnone) (ne_nil_of_free hnone) hmade hreach words
          hcomplete timeout
        rw [hfiles, files_bind fun p => (looks_note _ _).bind fun _ => looks_pure p, tidying]
        refine (hinside.without (hfree hnone) fun q hq => isWithin_iff.1 hq).eq fun q ⟨hq, hnot⟩ => ?_
        rw [isWithin_iff.2 hq] at hnot
        cases hnot

/-- If the configuration cannot be written to its end no program is made, and at most what was written of it
is left. -/
theorem create_of_obstacle (hsite : site.IsRegular)
    (hfree : fs.get? (placeOf (declarationDir site)) = none →
      fs.IsFree (placeOf (declarationDir site) <+: ·))
    (executable timeout : Value) {baseDir : String} {options : Record} {files : List String}
    {o : Json.Obstacle} (hobstacle : (configuration (declarationOptions options baseDir (declarationDir site))
      files).obstacle = some o) :
    ∃ e, (create site executable timeout baseDir options files fs).result = .error e ∧
      ((∀ q, (create site executable timeout baseDir options files fs).files.get? q = fs.get? q) ∨
        e = unwritable o ∧ fs.get? (placeOf (configPath site baseDir)) = none ∧
          ∀ q, (create site executable timeout baseDir options files fs).files.get? q =
            if placeOf (configPath site baseDir) = q then some (.file (Text.encode (configuration
              (declarationOptions options baseDir (declarationDir site)) files).text)) else fs.get? q) := by
  obtain ⟨ss, hdir⟩ := rooted_declarationDir hsite
  obtain ⟨ss', hpath⟩ := rooted_configPath hsite baseDir
  unfold create
  rw [bind_of_untold (files_apply fs)]
  cases hwords : command site fs baseDir executable with
  | error e => exact ⟨e, rfl, .inl fun _ => rfl⟩
  | ok words =>
      have hcommand : (ofExcept (.ok words) : Action (List String)) fs = ⟨fs, [], .ok words⟩ := rfl
      rw [bind_of_untold hcommand]
      cases hmake : fs.makeDirectory site.cwd (declarationDir site) with
      | error fault =>
          have hfail : change (fun fs => fs.makeDirectory site.cwd (declarationDir site)) fs =
              ⟨fs, [], .error (.system fault)⟩ := by
            rw [change, hmake]
          rw [bind_of_failed hfail]
          exact ⟨_, rfl, .inl fun _ => rfl⟩
      | ok made =>
          obtain ⟨-, hnone, rfl⟩ := eq_put_of_makeDirectory hdir hmake
          rw [bind_of_untold (change_of_ok hmake)]
          have hleft := get?_without_isWithin_put hnone (hfree hnone) .directory
          rcases createIn_of_obstacle site words baseDir (declarationDir site) hobstacle timeout
            (fs.put (placeOf (declarationDir site)) .directory) with ⟨e, hstop⟩ | ⟨configured, hconfig, hstop⟩
          · rw [bind_of_failed (tidying_of_failed hstop _)]
            exact ⟨e, rfl, .inl hleft⟩
          · rw [bind_of_failed (tidying_of_failed hstop _)]
            refine ⟨_, rfl, ?_⟩
            obtain ⟨hunused, rfl⟩ := eq_put_of_createFile hpath hconfig
            have hne := ne_nil_of_free hunused
            cases hwithin : isWithin (placeOf (declarationDir site)) (placeOf (configPath site baseDir)) with
            | true =>
                -- The configuration lay in the directory, and is gone with it.
                exact .inl fun q => (get?_without_put_of_dropped hne hwithin _ q).trans (hleft q)
            | false =>
                refine .inr ⟨rfl, ?_, fun q => ?_⟩
                · rw [← hleft, get?_without _ _ hne, hwithin, if_neg Bool.false_ne_true, hunused]
                · rw [get?_without_put hne hwithin, hleft q]

end Compiler

namespace Bundler

variable {b : Bundler} {site : Site} {fs : FileSystem}

/-- Until the output file is opened, the files stay the ones that were there. -/
theorem files_load (hsite : site.IsRegular) (hw : site.WritesBelow) (hb : b.HasWritableTarget)
    (hfree : fs.get? (placeOf (Compiler.declarationDir site)) = none →
      fs.IsFree (placeOf (Compiler.declarationDir site) <+: ·)) :
    (b.load site fs).files = fs := by
  unfold load
  refine files_bind_of_eq (b.looks_settings site fs).1 fun settings hsettings => ?_
  refine files_bind_of_eq (looks_note _ _ fs).1 fun _ _ => ?_
  rw [files_bind fun p => (looks_ofExcept _).bind fun out => looks_pure _]
  exact Compiler.files_create hsite hw hfree _ _ ((obstacle_configuration_eq_none_iff hsettings _ _ _).2 hb)

end Bundler

end DeclBundle
