import DeclBundle.Proofs.Climb
import DeclBundle.Proofs.Containment
import DeclBundle.Proofs.DeclarationPath
import DeclBundle.Proofs.Recompiled
import DeclBundle.Proofs.Reopened

/-!
# Places under other names

While the compiler runs, two runs that call the directory for declarations by different names have the same
files, but that what lies below the one directory in the first run lies below the other in the second
(`FileSystem.Renamed`). Making the directories brings this about, the files that the compiler writes keep
it (`Renamed.plantAll`), and on either way to the declarations of a file the same is found
(`Compiler.find?_emittedPath_renamed`). The way leads out of the directory only for a file that is the base
directory by name, and what it leads to has an ending, which no name of a directory for declarations has.
-/

namespace DeclBundle

/-- A step of a path that may be taken wherever a directory lies. -/
structure Path.IsName (s : String) : Prop where
  ordinary : Path.Ordinary s.toList
  slash : '/' ∉ s.toList
  null : '\x00' ∉ s.toList
  short : s.utf8ByteSize ≤ FileSystem.nameLimit

namespace FileSystem

open DeclBundle.Path (Rooted)

variable {fs c c' : FileSystem} {l q : Place} {cwd d p x x' : String} {ss : List (List Char)} {e : Entry}

/-! ### A name in a directory -/

theorem follow_steps (hp : Rooted p.toList ss) (hne : ss ≠ []) (fs : FileSystem) :
    fs.follow [] (steps p) = fs.follow [] (placeOf p) := by
  have hempty (steps : List String) : fs.follow [] ("" :: steps) = fs.follow [] steps := by
    simp [follow]
  have hpieces : Text.pieces '/' (Text.join ['/'] ss) = ss :=
    Text.pieces_join hne fun s hs => (hp.1 s hs).2
  rw [placeOf_eq hp, steps]
  obtain ⟨-, a, rfl | rfl, hpath⟩ := hp
  · rw [hpath, List.singleton_append, Text.pieces_cons_self, hpieces, List.map_cons]
    exact hempty _
  · rw [hpath, List.cons_append, List.singleton_append, Text.pieces_cons_self, Text.pieces_cons_self, hpieces,
      List.map_cons, List.map_cons]
    exact (hempty _).trans (hempty _)

theorem follow_singleton (hx : Path.Ordinary x.toList) (fs : FileSystem) (l : Place) :
    fs.follow l [x] =
      match fs.get? l with
      | none => .error .missing
      | some (.file _) => .error .notDirectory
      | some .directory => if nameLimit < x.utf8ByteSize then .error .longName else .ok (l ++ [x]) := by
  have hstay : ¬ (x = "" ∨ x = ".") := by
    rintro (rfl | rfl)
    · exact hx.1 rfl
    · exact hx.2.1 rfl
  have hup : x ≠ ".." := by
    rintro rfl
    exact hx.2.2 rfl
  rw [follow]
  cases fs.get? l with
  | none => rfl
  | some e =>
      cases e with
      | file content => rfl
      | directory => exact (if_neg hstay).trans (if_neg hup)

theorem rooted_join (hd : Rooted d.toList ss) (hx : Path.IsName x) :
    Rooted (Path.join d x).toList (ss ++ [x.toList]) := by
  rw [Path.join, String.toList_ofList]
  exact hd.rooted_below hx.ordinary hx.slash

theorem placeOf_join (hd : Rooted d.toList ss) (hx : Path.IsName x) :
    placeOf (Path.join d x) = placeOf d ++ [x] := by
  rw [placeOf_eq (rooted_join hd hx), placeOf_eq hd, List.map_append, List.map_singleton,
    String.ofList_toList]

theorem contains_null_join (d : String) {v : String} (hv : v.toList.head? ≠ some '/') :
    (Path.join d v).toList.contains '\x00' = (d.toList.contains '\x00' || v.toList.contains '\x00') := by
  rw [Path.join, String.toList_ofList, Path.below_of_ne_slash hv]
  split
  · rw [List.contains_append]
  · rw [List.contains_append, List.contains_cons]
    simp

theorem place_join (hd : Rooted d.toList ss) (hx : Path.IsName x) (fs : FileSystem) (cwd : String) :
    fs.place cwd (Path.join d x) =
      if d.toList.contains '\x00' then .error .nullCharacter
      else (fs.follow [] (placeOf d)).bind fun l => fs.follow l [x] := by
  have hhead : x.toList.head? ≠ some '/' := fun heq => hx.slash (List.mem_of_head? heq)
  have hnull : x.toList.contains '\x00' = false := by simpa using hx.null
  rw [place_of_rooted (rooted_join hd hx), contains_null_join d hhead, hnull, Bool.or_false,
    follow_steps (rooted_join hd hx) (by simp), placeOf_join hd hx, follow_append]

/-- A name in a directory leads to itself, or to a fault that does not depend on the name. -/
theorem place_join_cases (hd : Rooted d.toList ss) (hx : Path.IsName x) (hx' : Path.IsName x')
    (h : ∀ q, q <+: placeOf d → c'.get? q = c.get? q) (cwd : String) :
    (∃ fault, c.place cwd (Path.join d x) = .error fault ∧
        c'.place cwd (Path.join d x') = .error fault) ∨
      c.place cwd (Path.join d x) = .ok (placeOf d ++ [x]) ∧
        c'.place cwd (Path.join d x') = .ok (placeOf d ++ [x']) := by
  rw [place_join hd hx, place_join hd hx']
  have hup : ".." ∉ placeOf d := by
    rw [placeOf_eq hd]
    exact up_not_mem_of_ordinary fun s hs => (hd.1 s hs).1
  have hplain : ∀ s ∈ placeOf d, s ≠ "" ∧ s ≠ "." := fun s hs => by
    rw [← filter_steps hd] at hs
    simpa using (List.mem_filter.1 hs).2
  have hfilter : (placeOf d).filter (fun s => s ≠ "" ∧ s ≠ ".") = placeOf d :=
    List.filter_eq_self.2 fun s hs => by simpa using hplain s hs
  have hway : c'.follow [] (placeOf d) = c.follow [] (placeOf d) := by
    refine follow_congr h hup ?_
    rw [hfilter, List.nil_append]
  rw [hway]
  split
  · exact .inl ⟨_, rfl, rfl⟩
  · cases hl : c.follow [] (placeOf d) with
    | error fault => exact .inl ⟨fault, rfl, rfl⟩
    | ok l =>
        obtain rfl : l = placeOf d := by
          rw [follow_eq_ok hup hl, hfilter, List.nil_append]
        change (∃ fault, c.follow (placeOf d) [x] = .error fault ∧ c'.follow (placeOf d) [x'] = .error fault) ∨
          c.follow (placeOf d) [x] = .ok _ ∧ c'.follow (placeOf d) [x'] = .ok _
        rw [follow_singleton hx.ordinary, follow_singleton hx'.ordinary, h _ List.prefix_rfl,
          if_neg (Nat.not_lt.2 hx.short), if_neg (Nat.not_lt.2 hx'.short)]
        split
        · exact .inl ⟨_, rfl, rfl⟩
        · exact .inl ⟨_, rfl, rfl⟩
        · exact .inr ⟨rfl, rfl⟩

/-! ### Planting -/

/-- What is planted lies at its place and directories where nothing lay above it. -/
theorem get?_plant (fs : FileSystem) (hl : l ≠ []) (e : Entry) (q : Place) :
    (fs.plant l e).get? q =
      if q = l then some e
      else if q <+: l ∧ fs.get? q = none then some .directory else fs.get? q := by
  have habove : ∀ n ≤ l.length, ∀ q, ((List.range n).foldl (fun fs n =>
      if (fs.get? (l.take n)).isSome then fs else fs.put (l.take n) .directory) fs).get? q =
        if q <+: l ∧ q.length < n ∧ fs.get? q = none then some .directory else fs.get? q := by
    intro n
    induction n with
    | zero =>
        intro _ q
        simp
    | succ n ih =>
        intro hn q
        have hlength : (l.take n).length = n := by
          rw [List.length_take]
          omega
        have hat : q <+: l → (q.length = n ↔ l.take n = q) := fun hq => by
          constructor
          · rintro rfl
            exact (List.prefix_iff_eq_take.1 hq).symm
          · rintro rfl
            exact hlength
        rw [List.range_succ, List.foldl_append, List.foldl_cons, List.foldl_nil,
          ih (Nat.le_of_succ_le hn)]
        simp only [hlength, Nat.lt_irrefl, false_and, and_false, if_false]
        by_cases hfree : fs.get? (l.take n) = none
        · have hroot : l.take n ≠ [] := ne_nil_of_free hfree
          rw [hfree, if_neg (by simp), get?_put _ hroot, ih (Nat.le_of_succ_le hn)]
          by_cases hq : l.take n = q
          · subst hq
            rw [if_pos rfl, if_pos ⟨List.take_prefix n l, by omega, hfree⟩]
          · rw [if_neg hq]
            refine if_congr ⟨fun h => ⟨h.1, by omega, h.2.2⟩, fun h => ⟨h.1, ?_, h.2.2⟩⟩ rfl rfl
            exact Nat.lt_of_le_of_ne (Nat.le_of_lt_succ h.2.1) fun heq => hq ((hat h.1).1 heq)
        · rw [if_pos (Option.isSome_iff_ne_none.2 hfree), ih (Nat.le_of_succ_le hn)]
          refine if_congr ⟨fun h => ⟨h.1, by omega, h.2.2⟩, fun h => ⟨h.1, ?_, h.2.2⟩⟩ rfl rfl
          refine Nat.lt_of_le_of_ne (Nat.le_of_lt_succ h.2.1) fun heq => hfree ?_
          rw [(hat h.1).1 heq, h.2.2]
  rw [plant, if_neg hl, get?_put _ hl, habove _ (Nat.le_refl _)]
  by_cases hq : q = l
  · rw [if_pos hq.symm, if_pos hq]
  · rw [if_neg (Ne.symm hq), if_neg hq]
    refine if_congr ⟨fun h => ⟨h.1, h.2.2⟩, fun h => ⟨h.1, ?_, h.2⟩⟩ rfl rfl
    exact Nat.lt_of_le_of_ne h.1.length_le fun heq => hq (h.1.eq_of_length heq)

theorem get?_plant_of_outside (hq : ¬ q <+: l) (hl : l ≠ []) (fs : FileSystem) (e : Entry) :
    (fs.plant l e).get? q = fs.get? q := by
  rw [get?_plant _ hl, if_neg fun heq : q = l => hq (heq ▸ List.prefix_rfl), if_neg fun h => hq h.1]

/-! ### Files under other names -/

/-- Two file systems have the same, but that what lies below one name in the first lies below another in the
second; and there is a directory for the names. -/
structure Renamed (above : Place) (x x' : String) (c c' : FileSystem) : Prop where
  below : ∀ r, c.get? (above ++ [x] ++ r) = c'.get? (above ++ [x'] ++ r)
  off : ∀ q, ¬ above ++ [x] <+: q → ¬ above ++ [x'] <+: q → c.get? q = c'.get? q
  directory : ∀ q, q <+: above → c.get? q = some .directory

variable {above : Place}

theorem not_below_above (hq : q <+: above) (x : String) : ¬ above ++ [x] <+: q := by
  intro hle
  have hlength := (hle.trans hq).length_le
  rw [List.length_append, List.length_singleton] at hlength
  omega

namespace Renamed

theorem directory' (h : Renamed above x x' c c') (hq : q <+: above) : c'.get? q = some .directory := by
  rw [← h.off q (not_below_above hq x) (not_below_above hq x'), h.directory q hq]

theorem plant (h : Renamed above x x' c c') (r : Place) (e : Entry) :
    Renamed above x x' (c.plant (above ++ [x] ++ r) e) (c'.plant (above ++ [x'] ++ r) e) := by
  have hne (x : String) : above ++ [x] ++ r ≠ [] := by simp
  -- Off the name, a place above what is planted is one above the name.
  have habove : ∀ x q, ¬ above ++ [x] <+: q → q <+: above ++ [x] ++ r → q <+: above := by
    intro x q hoff hq
    have hle := (List.prefix_or_prefix_of_prefix hq (List.prefix_append _ r)).resolve_right hoff
    rcases List.prefix_concat_iff.1 hle with heq | hle
    · exact absurd (heq ▸ List.prefix_rfl) hoff
    · exact hle
  have hoff : ∀ x (c : FileSystem) q, ¬ above ++ [x] <+: q → (∀ q, q <+: above → c.get? q = some .directory) →
      (c.plant (above ++ [x] ++ r) e).get? q = c.get? q := by
    intro x c q hq hdir
    have hother : q ≠ above ++ [x] ++ r := fun heq => hq (heq ▸ List.prefix_append _ r)
    rw [get?_plant _ (hne x), if_neg hother, if_neg]
    rintro ⟨hle, hnone⟩
    rw [hdir q (habove x q hq hle)] at hnone
    cases hnone
  refine ⟨fun r' => ?_, fun q hq hq' => ?_, fun q hq => ?_⟩
  · rw [get?_plant _ (hne x), get?_plant _ (hne x'), h.below r']
    simp only [List.append_cancel_left_eq, List.prefix_append_right_inj]
  · rw [hoff x c q hq h.directory, hoff x' c' q hq' fun q hq => h.directory' hq, h.off q hq hq']
  · rw [hoff x c q (not_below_above hq x) h.directory, h.directory q hq]

theorem congr {d d' : FileSystem} (h : Renamed above x x' c c') (hd : ∀ q, d.get? q = c.get? q)
    (hd' : ∀ q, d'.get? q = c'.get? q) : Renamed above x x' d d' :=
  ⟨fun r => by rw [hd, hd', h.below], fun q hq hq' => by rw [hd, hd', h.off q hq hq'],
    fun q hq => by rw [hd, h.directory q hq]⟩

theorem look_follow (h : Renamed above x x' c c') {ss : List String} (hup : ".." ∉ ss) (r : Place) :
    c.look (c.follow (above ++ [x] ++ r) ss) = c'.look (c'.follow (above ++ [x'] ++ r) ss) := by
  induction ss generalizing r with
  | nil => exact h.below r
  | cons s ss ih =>
      obtain ⟨hs, hss⟩ := not_or.1 (List.mem_cons.not.1 hup)
      simp only [follow, h.below r, if_neg (Ne.symm hs)]
      split
      · rfl
      · rfl
      · split
        · exact ih hss r
        · split
          · rfl
          · have hdown := ih hss (r ++ [s])
            rwa [← List.append_assoc, ← List.append_assoc] at hdown

theorem look_follow_up (h : Renamed above x x' c c') {s : String} (hs : Path.Ordinary s.toList)
    (hx : s ≠ x) (hx' : s ≠ x') :
    c.look (c.follow (above ++ [x]) ["..", s]) = c'.look (c'.follow (above ++ [x']) ["..", s]) := by
  have hstay : ¬ (".." = "" ∨ ".." = ".") := by decide
  have hout (x : String) (c : FileSystem) : c.follow (above ++ [x]) ["..", s] =
      match c.get? (above ++ [x]) with
      | none => .error .missing
      | some (.file _) => .error .notDirectory
      | some .directory => c.follow above [s] := by
    rw [follow, List.dropLast_concat]
    cases c.get? (above ++ [x]) with
    | none => rfl
    | some e =>
        cases e with
        | file content => rfl
        | directory => exact (if_neg hstay).trans (if_pos rfl)
  have hsame := h.below []
  rw [List.append_nil, List.append_nil] at hsame
  have hbeside : ∀ x, s ≠ x → ¬ above ++ [x] <+: above ++ [s] := fun x hne hle =>
    hne (List.singleton_inj.1 (List.append_cancel_left (hle.eq_of_length (by simp)))).symm
  rw [hout, hout, hsame]
  split
  · rfl
  · rfl
  · rw [follow_singleton hs, follow_singleton hs, h.directory above List.prefix_rfl,
      h.directory' List.prefix_rfl]
    dsimp only
    split
    · rfl
    · exact h.off _ (hbeside x hx) (hbeside x' hx')

end Renamed

end FileSystem

/-! ### Names that are drawn -/

def nameCharacters : List Char := "abcdefghijklmnopqrstuvwxyz0123456789_".toList

structure IsDrawn (s : String) : Prop where
  length : s.toList.length ≤ 8
  mem : ∀ c ∈ s.toList, c ∈ nameCharacters

theorem utf8ByteSize_le (s : String) : s.utf8ByteSize ≤ 4 * s.toList.length := by
  obtain ⟨cs, rfl⟩ : ∃ cs, s = String.ofList cs := ⟨s.toList, String.ofList_toList.symm⟩
  rw [String.toList_ofList]
  induction cs with
  | nil => simp
  | cons c cs ih =>
      have hc := Char.utf8Size_le_four c
      rw [String.ofList_cons, String.utf8ByteSize_append, String.utf8ByteSize_singleton, List.length_cons]
      omega

theorem IsDrawn.isName_append {s before behind : String} (hs : IsDrawn s)
    (hbefore : 2 < before.toList.length ∧ before.toList.length ≤ 25 ∧ '/' ∉ before.toList ∧
      '\x00' ∉ before.toList)
    (hbehind : behind.toList.length ≤ 25 ∧ '/' ∉ behind.toList ∧ '\x00' ∉ behind.toList) :
    Path.IsName (before ++ s ++ behind) := by
  have hnot : ∀ c, c ∉ nameCharacters → c ∉ s.toList := fun c hc hmem => hc (hs.mem c hmem)
  have hlength := hs.length
  have hlist : (before ++ s ++ behind).toList = before.toList ++ s.toList ++ behind.toList := by simp
  refine ⟨Path.ordinary_of_length ?_, ?_, ?_, ?_⟩
  · rw [hlist, List.length_append, List.length_append]
    omega
  · simp only [hlist, List.mem_append, not_or]
    exact ⟨⟨hbefore.2.2.1, hnot _ (by decide)⟩, hbehind.2.1⟩
  · simp only [hlist, List.mem_append, not_or]
    exact ⟨⟨hbefore.2.2.2, hnot _ (by decide)⟩, hbehind.2.2⟩
  · refine (utf8ByteSize_le _).trans ?_
    rw [hlist, List.length_append, List.length_append, FileSystem.nameLimit]
    omega

/-- What tells the names of what is temporary apart is drawn. -/
structure Tokens.AreDrawn (t : Tokens) : Prop where
  directory : IsDrawn t.directory
  configuration : IsDrawn t.configuration

open FileSystem

namespace Compiler

variable {site : Site} {t t' : Tokens} {baseDir p : String} {fs c c' : FileSystem} {ss : List (List Char)}

def directoryName (t : Tokens) : String := "dts-bundler-" ++ t.directory

def configurationName (t : Tokens) : String := ".dts-bundler-" ++ t.configuration ++ ".json"

theorem isName_directoryName (ht : t.AreDrawn) : Path.IsName (directoryName t) := by
  have hname : Path.IsName ("dts-bundler-" ++ t.directory ++ "") :=
    ht.directory.isName_append (by decide) (by decide)
  rwa [String.append_empty] at hname

theorem isName_configurationName (ht : t.AreDrawn) : Path.IsName (configurationName t) :=
  ht.configuration.isName_append (by decide) (by decide)

theorem dot_not_mem_directoryName (ht : t.AreDrawn) : '.' ∉ (directoryName t).toList := by
  intro hmem
  rw [directoryName, String.toList_append] at hmem
  rcases List.mem_append.1 hmem with hmem | hmem
  · revert hmem
    decide
  · exact absurd (ht.directory.mem _ hmem) (by decide)

/-- The name of a configuration is none of a directory for declarations. -/
theorem configurationName_ne_directoryName (t t' : Tokens) : configurationName t ≠ directoryName t' := by
  intro heq
  have hhead := congrArg (fun s : String => s.toList.head?) heq
  simp [configurationName, directoryName] at hhead

theorem isRegular_named (h : site.IsRegular) (ht : t.AreDrawn) : (site.named t).IsRegular :=
  ⟨h.cwd, h.temporary, h.temporary_normal, fun hmem => absurd (ht.directory.mem _ hmem) (by decide),
    fun hmem => absurd (ht.configuration.mem _ hmem) (by decide)⟩

theorem rooted_temporary (h : site.IsRegular) : ∃ ss, Path.Rooted site.temporary.toList ss := by
  obtain ⟨cs, hcs⟩ := Path.isAbsolute_iff.1 h.temporary
  refine ⟨Path.settle true (Path.stepsOf ('/' :: cs)), ?_⟩
  rw [← h.temporary_normal, Path.normalize, String.toList_ofList, hcs]
  exact Path.rooted_normal cs

theorem placeOf_declarationDir (h : site.IsRegular) (ht : t.AreDrawn) :
    placeOf (declarationDir (site.named t)) = placeOf site.temporary ++ [directoryName t] := by
  obtain ⟨ss, htemporary⟩ := rooted_temporary h
  exact placeOf_join htemporary (isName_directoryName ht)

/-! ### What the compiler writes -/

/-- A path below a directory for declarations goes up from there and then down. -/
theorem placeOf_join_declarationDir {ss : List (List Char)} (htemporary : Path.Rooted site.temporary.toList ss)
    (ht : t.AreDrawn) {w : String} (hw : Path.isAbsolute w = false) :
    placeOf (Path.normalize (Path.join (declarationDir (site.named t)) w)) =
      (Path.ascend true (ss ++ [(directoryName t).toList]) (Path.climb w.toList) ++
        Path.descent w.toList).map String.ofList := by
  have hdir : Path.Rooted (declarationDir (site.named t)).toList (ss ++ [(directoryName t).toList]) :=
    rooted_join htemporary (isName_directoryName ht)
  have hordinary : ∀ s ∈ ss ++ [(directoryName t).toList], Path.Ordinary s := fun s hs => (hdir.1 s hs).1
  have hbelow := hdir.rooted_normal_below (Path.head?_ne_slash hw)
  have hjoin : (Path.normalize (Path.join (declarationDir (site.named t)) w)).toList =
      Path.normal (Path.below (declarationDir (site.named t)).toList w.toList) := by
    rw [Path.normalize, Path.join, String.toList_ofList, String.toList_ofList]
  rw [placeOf, hjoin, hbelow.stepsOf_eq, Path.settle_append_stepsOf true hordinary]

/-- What lies below two names beside one another lies below one name. -/
theorem exists_below_both {x x' : String} {p : Place} (hx : above ++ [x] <+: p) (hx' : above ++ [x'] <+: p) :
    ∃ r, p = above ++ [x] ++ r ∧ p = above ++ [x'] ++ r := by
  obtain ⟨r, hr⟩ := hx
  have hnames : above ++ [x] = above ++ [x'] :=
    (List.prefix_of_prefix_length_le ⟨r, hr⟩ hx' (by simp)).eq_of_length (by simp)
  exact ⟨r, hr.symm, by rw [← hnames, hr]⟩

/-- What a path below a directory leads to does not depend on the name of the directory, unless it lies in the
directory. -/
theorem exists_written (h : site.IsRegular) (ht : t.AreDrawn) (ht' : t'.AreDrawn) {w : String}
    (hw : placeOf (declarationDir (site.named t)) <+:
      placeOf (Path.normalize (Path.join (declarationDir (site.named t)) w)))
    (hw' : placeOf (declarationDir (site.named t')) <+:
      placeOf (Path.normalize (Path.join (declarationDir (site.named t')) w))) :
    ∃ r, placeOf (Path.normalize (Path.join (declarationDir (site.named t)) w)) =
        placeOf site.temporary ++ [directoryName t] ++ r ∧
      placeOf (Path.normalize (Path.join (declarationDir (site.named t')) w)) =
        placeOf site.temporary ++ [directoryName t'] ++ r := by
  obtain ⟨ss, htemporary⟩ := rooted_temporary h
  rw [placeOf_declarationDir h ht] at hw
  rw [placeOf_declarationDir h ht'] at hw'
  have hsame (heq : placeOf (Path.normalize (Path.join (declarationDir (site.named t)) w)) =
      placeOf (Path.normalize (Path.join (declarationDir (site.named t')) w))) :
      ∃ r, placeOf (Path.normalize (Path.join (declarationDir (site.named t)) w)) =
          placeOf site.temporary ++ [directoryName t] ++ r ∧
        placeOf (Path.normalize (Path.join (declarationDir (site.named t')) w)) =
          placeOf site.temporary ++ [directoryName t'] ++ r := by
    rw [heq] at hw ⊢
    exact exists_below_both hw hw'
  cases habsolute : Path.isAbsolute w with
  | true =>
      refine hsame ?_
      rw [Path.join, Path.join, Path.below_of_isAbsolute _ habsolute, Path.below_of_isAbsolute _ habsolute]
  | false =>
      have hplace := placeOf_join_declarationDir htemporary ht habsolute
      have hplace' := placeOf_join_declarationDir htemporary ht' habsolute
      have hascend (n : Nat) (s : List Char) : Path.ascend true (ss ++ [s]) (n + 1) = ss.rdrop n := by
        simp [Path.ascend, List.rdrop_concat_succ]
      cases hclimb : Path.climb w.toList with
      | zero =>
          refine ⟨(Path.descent w.toList).map String.ofList, ?_, ?_⟩
          · simp [hplace, hclimb, Path.ascend, placeOf_eq htemporary]
          · simp [hplace', hclimb, Path.ascend, placeOf_eq htemporary]
      | succ n =>
          refine hsame ?_
          rw [hplace, hplace', hclimb, hascend, hascend]

end Compiler

namespace FileSystem

variable {c c' : FileSystem} {above : Place} {x x' dir dir' : String} {q : Place}

theorem Renamed.plantAll {written : List (String × Option ByteArray)} (h : Renamed above x x' c c')
    (hw : ∀ w ∈ written, ∃ r, placeOf (Path.normalize (Path.join dir w.1)) = above ++ [x] ++ r ∧
      placeOf (Path.normalize (Path.join dir' w.1)) = above ++ [x'] ++ r) :
    Renamed above x x' (Compiler.plantAll dir written c) (Compiler.plantAll dir' written c') := by
  refine List.foldl_rel h fun w hmem d d' hd => ?_
  obtain ⟨r, hr, hr'⟩ := hw w hmem
  rw [hr, hr']
  exact hd.plant r _

/-- A file that is put elsewhere and taken away again makes no difference to what is planted meanwhile. -/
theorem get?_plantAll_without {written : List (String × Option ByteArray)} (hfree : c.get? q = none)
    (hw : ∀ w ∈ written, placeOf (Path.normalize (Path.join dir w.1)) ≠ [] ∧
      ¬ q <+: placeOf (Path.normalize (Path.join dir w.1))) (e : Entry) (r : Place) :
    ((Compiler.plantAll dir written (c.put q e)).without (· == q)).get? r =
      (Compiler.plantAll dir written c).get? r := by
  have hq := ne_nil_of_free hfree
  have hsame : (∀ r, r ≠ q → (Compiler.plantAll dir written (c.put q e)).get? r =
      (Compiler.plantAll dir written c).get? r) ∧ (Compiler.plantAll dir written c).get? q = none := by
    refine List.foldl_rel (r := fun (d d' : FileSystem) =>
      (∀ r, r ≠ q → d.get? r = d'.get? r) ∧ d'.get? q = none)
      ⟨fun r hr => by rw [get?_put _ hq, if_neg hr.symm], hfree⟩ fun w hmem d d' hd => ?_
    obtain ⟨hne, hoff⟩ := hw w hmem
    refine ⟨fun r hr => ?_, ?_⟩
    · rw [get?_plant _ hne, get?_plant _ hne, hd.1 r hr]
    · rw [get?_plant_of_outside hoff hne, hd.2]
  by_cases hr : r = q
  · subst hr
    rw [get?_without _ _ hq, hsame.2]
    simp
  · rw [get?_without_of_not (by simpa using hr), hsame.1 r hr]

end FileSystem

namespace Compiler

variable {site : Site} {t t' : Tokens} {baseDir p : String} {c c' : FileSystem}

/-! ### Where declarations are looked for -/

theorem prefix_of_isUnder {ss ps : List (List Char)} (hbase : Path.Rooted baseDir.toList ss)
    (hp : Path.Rooted p.toList ps) (hunder : Path.isUnder baseDir p = true) : ∃ rest, ps = ss ++ rest := by
  by_cases heq : Path.normalize p = Path.normalize baseDir
  · rw [hp.normalize_eq, hbase.normalize_eq] at heq
    subst heq
    exact ⟨[], by rw [List.append_nil, ← hp.stepsOf_eq, hbase.stepsOf_eq]⟩
  · obtain ⟨rest, hrest, -⟩ := Path.Rooted.exists_append_of_isUnder (hbase.normal_eq.symm ▸ hbase)
      (hp.normal_eq.symm ▸ hp) hunder heq
    exact ⟨rest, hrest⟩

/-- The way to the declarations of a file under the base directory leads down, or to a name with an ending
beside the directory for declarations. -/
theorem wayTo_of_isUnder (hcwd : Path.isAbsolute site.cwd = true) {ss ps : List (List Char)}
    (hbase : Path.Rooted baseDir.toList ss) (hp : Path.Rooted p.toList ps)
    (hunder : Path.isUnder baseDir p = true) :
    ".." ∉ wayTo site baseDir p ∨ ∃ n : List Char, Path.Ordinary n ∧ '.' ∈ n ∧
      wayTo site baseDir p = ["..", String.ofList n] := by
  have hstart : Path.Rooted (Path.absolute site.cwd baseDir).toList ss := by
    rwa [Path.absolute_of_isAbsolute (Path.isAbsolute_iff.2 hbase.exists_cons), hbase.normalize_eq]
  -- A way that goes through steps of its end alone leads down.
  have hdown : ∀ ts, Path.Rooted (Path.absolute site.cwd (Module.declarationPath p)).toList ts →
      (∀ s ∈ Path.lead ss ts, s ∈ ts) → ".." ∉ wayTo site baseDir p := by
    intro ts htarget hlead
    rw [wayTo_eq hstart htarget]
    split
    · decide
    · exact up_not_mem_of_ordinary fun s hs => (htarget.1 s (hlead s hs)).1
  obtain ⟨rest, hrest⟩ := prefix_of_isUnder hbase hp hunder
  rcases List.eq_nil_or_concat ps with hnil | ⟨above, n, hps⟩
  · obtain ⟨ts, htarget⟩ := Path.rooted_absolute hcwd (Module.declarationPath p)
    obtain rfl : ss = [] := (List.append_eq_nil_iff.1 (hrest.symm.trans hnil)).1
    exact .inl (hdown ts htarget fun s hs => by rwa [Path.lead_nil] at hs)
  · rw [List.concat_eq_append] at hps
    obtain ⟨e, he, htarget⟩ := Module.rooted_declarationPath_append
      (hps ▸ hp.normal_eq.symm ▸ hp) hp.normalize_eq
    generalize hn : (Module.stripExtension (String.ofList n)).toList ++ e.toList = n' at htarget
    have hdot : '.' ∈ n' := by
      have hall : ∀ e ∈ Module.declarationEndings, '.' ∈ e.toList := by decide
      rw [← hn]
      exact List.mem_append_right _ (hall e he)
    have hsame : Path.absolute site.cwd (Module.declarationPath p) = Module.declarationPath p := by
      rw [Path.absolute_of_isAbsolute (Path.isAbsolute_iff.2 htarget.exists_cons), htarget.normalize_eq]
    rw [← hsame] at htarget
    have hordinary := (htarget.1 n' (by simp)).1
    rcases List.eq_nil_or_concat rest with rfl | ⟨rest, m, rfl⟩
    · -- The file is the base directory by name.
      obtain rfl : ss = above ++ [n] := by rw [← hps, hrest, List.append_nil]
      by_cases hnn : n = n'
      · subst hnn
        exact .inl (hdown _ htarget fun s hs => by rw [Path.lead_self] at hs; cases hs)
      · refine .inr ⟨n', hordinary, hdot, ?_⟩
        rw [wayTo_eq hstart htarget, Path.lead_append, Path.lead, if_neg hnn]
        rfl
    · rw [List.concat_eq_append, ← List.append_assoc] at hrest
      obtain ⟨rfl, -⟩ := List.append_inj' (hps.symm.trans hrest) rfl
      refine .inl (hdown _ htarget fun s hs => ?_)
      rw [List.append_assoc, Path.lead_append_self] at hs
      rw [List.append_assoc]
      exact List.mem_append_right _ hs

theorem head?_relative (hcwd : Path.isAbsolute site.cwd = true) (baseDir p : String) :
    (Path.relative site.cwd (Module.declarationPath p) baseDir).toList.head? ≠ some '/' := by
  obtain ⟨ts, htarget⟩ := Path.rooted_absolute hcwd (Module.declarationPath p)
  rw [Path.relative, String.toList_ofList, htarget.stepsOf_eq]
  exact Path.head?_write_ne_slash (mem_lead htarget)

/-- Where the directory for declarations is there, declarations are found by the way from it. -/
theorem find?_emittedPath_eq (baseDir p : String) (h : site.IsRegular)
    (hdir : c.place site.cwd (declarationDir site) = .ok (placeOf (declarationDir site)))
    (hne : placeOf (declarationDir site) ≠ []) :
    c.find? site.cwd (emittedPath site baseDir (declarationDir site) p) =
      if (Path.relative site.cwd (Module.declarationPath p) baseDir).toList.contains '\x00' then none
      else c.look (c.follow (placeOf (declarationDir site)) (wayTo site baseDir p)) := by
  obtain ⟨steps, hrooted⟩ := rooted_declarationDir h
  have hsome : steps ≠ [] := by
    rintro rfl
    exact hne (placeOf_eq hrooted)
  have habsolute : Path.isAbsolute (emittedPath site baseDir (declarationDir site) p) = true :=
    Path.isAbsolute_join_of_left (Path.isAbsolute_iff.2 hrooted.exists_cons) _
  have hjoin : Path.join site.cwd (emittedPath site baseDir (declarationDir site) p) =
      emittedPath site baseDir (declarationDir site) p := by
    rw [Path.join, Path.below_of_isAbsolute _ habsolute, String.ofList_toList]
  have hempty : emittedPath site baseDir (declarationDir site) p ≠ "" := by
    intro heq
    rw [heq] at habsolute
    cases habsolute
  rw [place_of_rooted hrooted] at hdir
  split at hdir
  · cases hdir
  case isFalse hnull =>
    have hcontains : (emittedPath site baseDir (declarationDir site) p).toList.contains '\x00' =
        (Path.relative site.cwd (Module.declarationPath p) baseDir).toList.contains '\x00' := by
      rw [emittedPath, contains_null_join _ (head?_relative h.cwd baseDir p), Bool.eq_false_iff.2 hnull,
        Bool.false_or]
    rw [find?_eq_look, place, hcontains, hjoin, if_neg hempty, steps_emittedPath h.cwd hrooted hsome,
      follow_append, hdir]
    cases (Path.relative site.cwd (Module.declarationPath p) baseDir).toList.contains '\x00' with
    | true =>
        rw [if_pos rfl, if_pos rfl]
        rfl
    | false =>
        rw [if_neg Bool.false_ne_true, if_neg Bool.false_ne_true, Except.bind]

theorem find?_emittedPath_renamed (h : site.IsRegular) (ht : t.AreDrawn) (ht' : t'.AreDrawn)
    {ss ps : List (List Char)} (hbase : Path.Rooted baseDir.toList ss) (hp : Path.Rooted p.toList ps)
    (hunder : Path.isUnder baseDir p = true)
    (hc : c.place site.cwd (declarationDir (site.named t)) = .ok (placeOf (declarationDir (site.named t))))
    (hc' : c'.place site.cwd (declarationDir (site.named t')) = .ok (placeOf (declarationDir (site.named t'))))
    (hrenamed : Renamed (placeOf site.temporary) (directoryName t) (directoryName t') c c') :
    c.find? site.cwd (emittedPath (site.named t) baseDir (declarationDir (site.named t)) p) =
      c'.find? site.cwd (emittedPath (site.named t') baseDir (declarationDir (site.named t')) p) := by
  have hne : ∀ {t}, Tokens.AreDrawn t → placeOf (declarationDir (site.named t)) ≠ [] := fun ht => by
    rw [placeOf_declarationDir h ht]
    simp
  have hfound := find?_emittedPath_eq baseDir p (isRegular_named h ht) hc (hne ht)
  have hfound' := find?_emittedPath_eq baseDir p (isRegular_named h ht') hc' (hne ht')
  have hsame : c.look (c.follow (placeOf (declarationDir (site.named t))) (wayTo site baseDir p)) =
      c'.look (c'.follow (placeOf (declarationDir (site.named t'))) (wayTo site baseDir p)) := by
    rw [placeOf_declarationDir h ht, placeOf_declarationDir h ht']
    rcases wayTo_of_isUnder h.cwd hbase hp hunder with hdown | ⟨n, hordinary, hdot, hway⟩
    · have hlook := hrenamed.look_follow hdown []
      rwa [List.append_nil, List.append_nil] at hlook
    · have hother : ∀ {t}, Tokens.AreDrawn t → String.ofList n ≠ directoryName t := fun ht heq => by
        refine dot_not_mem_directoryName ht ?_
        rwa [← heq, String.toList_ofList]
      rw [hway]
      exact hrenamed.look_follow_up (by rwa [String.toList_ofList]) (hother ht) (hother ht')
  exact hfound.trans ((if_congr Iff.rfl rfl hsame).trans hfound'.symm)

end Compiler

end DeclBundle
