import DeclBundle.Proofs.FailFast
import DeclBundle.Proofs.Revisited
import DeclBundle.Proofs.Untouched

/-!
# Writing again

Whatever came of making directories comes of it again on the files that were left: what was made is there,
and what could not be made cannot be made (`Action.makeDirectoriesTo_again`). In a well-formed file system a
failure does not bring about that the directory is found later, since below a missing directory there was
nothing that could stand in its way (`find?_of_makeDirectoriesTo_error`). So a bundle is written as it was
written before, over the file that holds it (`Bundler.write_again`).
-/

namespace DeclBundle

namespace FileSystem

open DeclBundle.Path (Rooted)

variable {fs fs' : FileSystem} {cwd p : String} {ss : List (List Char)} {e : Entry}

theorem find?_eq_some_iff : fs.find? cwd p = some e ↔ ∃ l, fs.place cwd p = .ok l ∧ fs.get? l = some e := by
  rw [find?]
  cases fs.place cwd p with
  | error c => simp
  | ok l => simp

theorem place_of_rooted (hp : Rooted p.toList ss) (fs : FileSystem) (cwd : String) :
    fs.place cwd p =
      if p.toList.contains '\x00' then .error .nullCharacter else fs.follow [] (steps p) := by
  have hne : p ≠ "" := by
    rintro rfl
    obtain ⟨cs, hcs⟩ := hp.exists_cons
    cases hcs
  rw [place, if_neg hne, join_of_rooted hp]

theorem find?_congr (hp : Rooted p.toList ss) (h : ∀ q, q <+: placeOf p → fs'.get? q = fs.get? q)
    (cwd : String) : fs'.find? cwd p = fs.find? cwd p := by
  have hway : fs'.follow [] (steps p) = fs.follow [] (steps p) := by
    refine follow_congr h (up_not_mem_steps hp) ?_
    simp only [filter_steps hp, List.nil_append, List.prefix_rfl]
  have hplace : fs'.place cwd p = fs.place cwd p := by rw [place_of_rooted hp, place_of_rooted hp, hway]
  rw [find?, find?, hplace]
  cases hl : fs.place cwd p with
  | error c => rfl
  | ok l =>
      obtain rfl := place_eq_placeOf hp hl
      exact h _ List.prefix_rfl

theorem ensureDirectory_of_directory (h : fs.find? cwd p = some .directory) :
    fs.ensureDirectory cwd p = .ok fs := by
  obtain ⟨l, hplace, hget⟩ := find?_eq_some_iff.1 h
  simp [ensureDirectory, makeDirectory, isDirectory, find?, hplace, hget]

theorem directory_of_ensureDirectory (hp : Rooted p.toList ss) (h : fs.ensureDirectory cwd p = .ok fs') :
    fs'.find? cwd p = some .directory := by
  unfold ensureDirectory at h
  split at h
  case h_1 made hmake =>
    obtain rfl := Except.ok.inj h
    obtain ⟨hplace, hfree, rfl⟩ := eq_put_of_makeDirectory hp hmake
    have hne := ne_nil_of_free hfree
    refine find?_eq_some_iff.2 ⟨placeOf p, place_mono (fun q hq => ?_) hplace, ?_⟩
    · rw [get?_put fs hne]
      split
      · rfl
      · exact hq
    · rw [get?_put fs hne, if_pos rfl]
  case h_2 =>
    split at h
    case isTrue hdir =>
      obtain rfl := Except.ok.inj h
      unfold isDirectory at hdir
      split at hdir
      · assumption
      · cases hdir
    case isFalse => cases h

theorem find?_directory_mono (h : ∀ q, fs.get? q = some .directory → fs'.get? q = some .directory)
    (hdir : fs.find? cwd p = some .directory) : fs'.find? cwd p = some .directory := by
  obtain ⟨l, hplace, hget⟩ := find?_eq_some_iff.1 hdir
  exact find?_eq_some_iff.2 ⟨l, place_mono h hplace, h l hget⟩

/-- A file system in which a file of another may be written as in that one: directories are where they were,
and what is written takes the place of what the file holds. -/
structure Rewritable (cwd p : String) (fs fs' : FileSystem) : Prop where
  directory : ∀ q, fs.get? q = some .directory → fs'.get? q = some .directory
  write_eq : ∀ content, fs'.write cwd p content = fs.write cwd p content

theorem rewritable_of_write {content : ByteArray} (h : fs.write cwd p content = .ok fs') :
    Rewritable cwd p fs fs' := by
  unfold write writable at h
  split at h
  · cases h
  case h_2 l hplace =>
    split at h
    · cases h
    case isFalse hfile =>
      obtain rfl : fs.put l (.file content) = fs' := Except.ok.inj h
      have hl : l ≠ [] := by
        rintro rfl
        exact hfile fs.get?_root
      have hdir : ∀ q, fs.get? q = some .directory →
          (fs.put l (.file content)).get? q = some .directory := by
        intro q hq
        rw [get?_put fs hl, if_neg, hq]
        rintro rfl
        exact hfile hq
      refine ⟨hdir, fun content' => ?_⟩
      have hnot : ¬ (fs.put l (.file content)).get? l = some .directory := by simp [get?_put fs hl]
      rw [write, write, writable, writable, place_mono hdir hplace, hplace]
      simp only [if_neg hfile, if_neg hnot, Except.map, put_put]

end FileSystem

namespace Action

open FileSystem
open DeclBundle.Path (Rooted)

variable {fs fs' : FileSystem} {cwd anchor s : String} {above : List String} {l : Place} {e : Failure}

theorem files_change_of_error {f : FileSystem → Except Fault FileSystem}
    (h : (change f fs).result = .error e) : (change f fs).files = fs := by
  unfold change at h ⊢
  split at h
  · cases h
  · rfl

theorem makeDirectoriesTo_cons_of_taken (h : (fs.find? cwd (pathOf anchor above)).isSome = true) (s : String) :
    makeDirectoriesTo cwd anchor (s :: above) fs =
      change (fun fs => fs.ensureDirectory cwd (pathOf anchor (s :: above))) fs := by
  rw [makeDirectoriesTo, bind_of_untold (files_apply fs), if_pos h, pure_bind]

theorem makeDirectoriesTo_cons_of_free (h : fs.find? cwd (pathOf anchor above) = none) (s : String) :
    makeDirectoriesTo cwd anchor (s :: above) fs = (do
      makeDirectoriesTo cwd anchor above
      change fun fs => fs.ensureDirectory cwd (pathOf anchor (s :: above))) fs := by
  rw [makeDirectoriesTo, bind_of_untold (files_apply fs), if_neg (by simp [h])]

section Ways

variable (ha : anchor.toList = ['/'] ∨ anchor.toList = ['/', '/'])

include ha

theorem find?_anchor (fs : FileSystem) (cwd : String) : fs.find? cwd (pathOf anchor []) = some .directory := by
  have hroot : Rooted (pathOf anchor []).toList [] := rooted_pathOf ha nofun
  have hsteps : (pathOf anchor []).toList.contains '\x00' = false ∧
      FileSystem.steps (pathOf anchor []) = List.replicate ((pathOf anchor []).toList.length + 1) "" := by
    have htoList : (pathOf anchor []).toList = anchor.toList := by simp [pathOf]
    rw [FileSystem.steps, htoList]
    rcases ha with ha | ha
    · rw [ha]
      decide
    · rw [ha]
      decide
  refine find?_eq_some_iff.2 ⟨[], ?_, fs.get?_root⟩
  rw [place_of_rooted hroot, if_neg (by rw [hsteps.1]; decide), hsteps.2]
  generalize (pathOf anchor []).toList.length + 1 = n
  induction n with
  | zero => rfl
  | succ n ih => simpa [List.replicate_succ, follow] using ih

variable (habove : ∀ t ∈ s :: above, Path.Ordinary t.toList ∧ '/' ∉ t.toList)

include habove

/-- What comes before the last step of a path that leads somewhere leads to a directory. -/
theorem find?_of_place (h : fs.place cwd (pathOf anchor (s :: above)) = .ok l) :
    fs.find? cwd (pathOf anchor above) = some .directory := by
  cases above with
  | nil => exact find?_anchor ha fs cwd
  | cons t above =>
      obtain ⟨hs, htail⟩ := List.forall_mem_cons.1 habove
      have hpath : (pathOf anchor (s :: t :: above)).toList =
          (pathOf anchor (t :: above)).toList ++ '/' :: s.toList := by
        simp only [pathOf, String.toList_append, toList_intercalate_slash, List.reverse_cons, List.map_append,
          List.map_cons, List.map_nil]
        rw [Text.join_append '/' (by simp) (by simp), Text.join_singleton, List.append_assoc]
      have hsteps : FileSystem.steps (pathOf anchor (s :: t :: above)) =
          FileSystem.steps (pathOf anchor (t :: above)) ++ [s] := by
        rw [FileSystem.steps, hpath, Text.pieces_append, List.map_append, Text.pieces_of_not_mem hs.2]
        simp [FileSystem.steps]
      rw [place_of_rooted (rooted_pathOf ha habove)] at h
      split at h
      case isTrue => cases h
      case isFalse hnull =>
        rw [hsteps, follow_append] at h
        cases hm : fs.follow [] (FileSystem.steps (pathOf anchor (t :: above))) with
        | error c =>
            rw [hm] at h
            cases h
        | ok m =>
            rw [hm] at h
            refine find?_eq_some_iff.2 ⟨m, ?_, directory_of_follow_cons h⟩
            rw [place_of_rooted (rooted_pathOf ha htail), if_neg, hm]
            rw [hpath] at hnull
            exact fun hcontains => hnull (by simp_all)

theorem find?_eq_none_of_above (h : fs.find? cwd (pathOf anchor above) = none) :
    fs.find? cwd (pathOf anchor (s :: above)) = none := by
  rw [find?]
  cases hplace : fs.place cwd (pathOf anchor (s :: above)) with
  | error c => rfl
  | ok l =>
      rw [find?_of_place ha habove hplace] at h
      cases h

/-- A directory that cannot be made below directories that were made is missing. -/
theorem find?_of_unmade (hfs : fs.WellFormed) (hadds : AddsDirectories above.reverse fs fs')
    (hnone : fs.find? cwd (pathOf anchor above) = none)
    (h : (change (fun fs => fs.ensureDirectory cwd (pathOf anchor (s :: above))) fs').result = .error e) :
    fs'.find? cwd (pathOf anchor (s :: above)) = none := by
  have hrest := (List.forall_mem_cons.1 habove).2
  match hfind : fs'.find? cwd (pathOf anchor (s :: above)) with
  | none => rfl
  | some .directory =>
      rw [change_of_ok (ensureDirectory_of_directory hfind)] at h
      cases h
  | some (.file content) =>
      -- The file was there, and so were the directories above it.
      obtain ⟨l, hplace, hfile⟩ := find?_eq_some_iff.1 hfind
      obtain rfl := place_eq_placeOf (rooted_pathOf ha habove) hplace
      have hold : fs.get? (placeOf (pathOf anchor (s :: above))) ≠ none := by
        rcases hadds (placeOf (pathOf anchor (s :: above))) with heq | ⟨-, -, hdir⟩
        · rw [← heq, hfile]
          exact Option.some_ne_none _
        · rw [hfile] at hdir
          cases hdir
      have hway : ∀ q, q <+: placeOf (pathOf anchor above) → fs'.get? q = fs.get? q := by
        intro q hq
        have hbelow : placeOf (pathOf anchor above) <+: placeOf (pathOf anchor (s :: above)) := by
          rw [placeOf_pathOf ha hrest, placeOf_pathOf ha habove]
          simp
        have hne : q ≠ placeOf (pathOf anchor (s :: above)) := by
          rintro rfl
          have hlength := hq.length_le
          rw [placeOf_pathOf ha hrest, placeOf_pathOf ha habove] at hlength
          simp only [List.length_reverse, List.length_cons] at hlength
          omega
        rw [directory_of_place hplace (hq.trans hbelow) hne,
          hfs.directory_of_prefix hold (hq.trans hbelow) hne]
      rw [← find?_congr (rooted_pathOf ha hrest) hway, find?_of_place ha habove hplace] at hnone
      cases hnone

end Ways

variable (ha : anchor.toList = ['/'] ∨ anchor.toList = ['/', '/'])
  (habove : ∀ t ∈ above, Path.Ordinary t.toList ∧ '/' ∉ t.toList)

include ha habove

theorem directory_of_makeDirectoriesTo (h : (makeDirectoriesTo cwd anchor above).Ends fs () fs') :
    fs'.find? cwd (pathOf anchor above) = some .directory := by
  cases above with
  | nil => exact find?_anchor ha fs' cwd
  | cons s above =>
      simp only [makeDirectoriesTo, ends_bind_iff, ends_change_iff] at h
      obtain ⟨_, _, -, _, made, -, hensure⟩ := h
      exact directory_of_ensureDirectory (rooted_pathOf ha habove) hensure

theorem makeDirectoriesTo_of_directory (h : fs.find? cwd (pathOf anchor above) = some .directory) :
    makeDirectoriesTo cwd anchor above fs = ⟨fs, [], .ok ()⟩ := by
  cases above with
  | nil => rfl
  | cons s above =>
      obtain ⟨l, hplace, -⟩ := find?_eq_some_iff.1 h
      have hparent := find?_of_place ha habove hplace
      rw [makeDirectoriesTo_cons_of_taken (by rw [hparent]; rfl)]
      exact change_of_ok (ensureDirectory_of_directory h)

/-- If directories that were missing could not be made, they are still missing. -/
theorem find?_of_makeDirectoriesTo_error (hfs : fs.WellFormed)
    (hnone : fs.find? cwd (pathOf anchor above) = none)
    (h : (makeDirectoriesTo cwd anchor above fs).result = .error e) :
    (makeDirectoriesTo cwd anchor above fs).files.find? cwd (pathOf anchor above) = none := by
  induction above generalizing e with
  | nil => cases h
  | cons s above ih =>
      have hrest := (List.forall_mem_cons.1 habove).2
      cases hparent : fs.find? cwd (pathOf anchor above) with
      | some d =>
          rw [makeDirectoriesTo_cons_of_taken (by rw [hparent]; rfl)] at h ⊢
          rwa [files_change_of_error h]
      | none =>
          rw [makeDirectoriesTo_cons_of_free hparent] at h ⊢
          cases hmade : (makeDirectoriesTo cwd anchor above fs).result with
          | error e' =>
              rw [bind_of_error hmade]
              exact find?_eq_none_of_above ha habove (ih hrest hparent hmade)
          | ok u =>
              have hends : (makeDirectoriesTo cwd anchor above).Ends fs () _ := ⟨hmade, rfl⟩
              rw [bind_of_untold (makeDirectoriesTo_of_ends hends)] at h ⊢
              rw [files_change_of_error h]
              exact find?_of_unmade ha habove hfs (along_makeDirectoriesTo ha hrest List.prefix_rfl fs) hparent h

theorem makeDirectoriesTo_again (hfs : fs.WellFormed) : makeDirectoriesTo cwd anchor above
    (makeDirectoriesTo cwd anchor above fs).files = makeDirectoriesTo cwd anchor above fs := by
  cases hresult : (makeDirectoriesTo cwd anchor above fs).result with
  | ok u =>
      have hends : (makeDirectoriesTo cwd anchor above).Ends fs () _ := ⟨hresult, rfl⟩
      rw [makeDirectoriesTo_of_directory ha habove (directory_of_makeDirectoriesTo ha habove hends),
        ← makeDirectoriesTo_of_ends hends]
  | error e =>
      induction above generalizing e with
      | nil => cases hresult
      | cons s above ih =>
          have hrest := (List.forall_mem_cons.1 habove).2
          cases hparent : fs.find? cwd (pathOf anchor above) with
          | some d =>
              have htaken : (fs.find? cwd (pathOf anchor above)).isSome = true := by rw [hparent]; rfl
              have hlast := makeDirectoriesTo_cons_of_taken htaken s
              rw [hlast] at hresult ⊢
              rw [files_change_of_error hresult, hlast]
          | none =>
              have hfirst := makeDirectoriesTo_cons_of_free hparent s
              cases hmade : (makeDirectoriesTo cwd anchor above fs).result with
              | error e' =>
                  have hmissing := find?_of_makeDirectoriesTo_error ha hrest hfs hparent hmade
                  have hfiles : (makeDirectoriesTo cwd anchor (s :: above) fs).files =
                      (makeDirectoriesTo cwd anchor above fs).files := by
                    rw [hfirst, bind_of_error hmade]
                  rw [hfiles, makeDirectoriesTo_cons_of_free hmissing, hfirst, bind_apply,
                    ih hrest e' hmade, ← bind_apply]
              | ok u =>
                  have hends : (makeDirectoriesTo cwd anchor above).Ends fs () _ := ⟨hmade, rfl⟩
                  have hdir := directory_of_makeDirectoriesTo ha hrest hends
                  rw [bind_of_untold (makeDirectoriesTo_of_ends hends)] at hfirst
                  rw [hfirst] at hresult ⊢
                  rw [files_change_of_error hresult, makeDirectoriesTo_cons_of_taken (by rw [hdir]; rfl)]

omit ha habove

section Path

variable {p : String} {ss : List (List Char)}

theorem makeDirectories_again (cwd : String) (hp : Rooted p.toList ss) (hfs : fs.WellFormed) :
    makeDirectories cwd p (makeDirectories cwd p fs).files = makeDirectories cwd p fs :=
  makeDirectoriesTo_again (anchor_of_rooted hp) (ordinary_of_rooted hp) hfs

/-- Directories that were made need not be made as long as they are there. -/
theorem makeDirectories_of_made (hp : Rooted p.toList ss) (h : (makeDirectories cwd p).Ends fs () fs')
    {left : FileSystem} (hleft : ∀ q, fs'.get? q = some .directory → left.get? q = some .directory) :
    makeDirectories cwd p left = ⟨left, [], .ok ()⟩ :=
  makeDirectoriesTo_of_directory (anchor_of_rooted hp) (ordinary_of_rooted hp) <| find?_directory_mono hleft <|
    directory_of_makeDirectoriesTo (anchor_of_rooted hp) (ordinary_of_rooted hp) h

end Path

end Action

open DeclBundle.Action FileSystem

namespace Bundler

variable {site : Site} {out : String} {fs opened left : FileSystem} {ss : List (List Char)} {e : Failure}

/-- If the output file could not be opened, it cannot be opened again. -/
theorem openOutput_again_of_error (hout : Path.Rooted out.toList ss) (hfs : fs.WellFormed)
    (h : (openOutput site out fs).result = .error e) :
    openOutput site out (openOutput site out fs).files = openOutput site out fs := by
  have hdir := rooted_directory hout
  have hagain := makeDirectories_again site.cwd hdir hfs
  unfold openOutput at h ⊢
  cases hmake : (makeDirectories site.cwd (Path.directory out) fs).result with
  | error e' =>
      have hfirst := bind_of_error hmake fun _ => change fun fs => fs.write site.cwd out ByteArray.empty
      rw [congrArg Effect.files hfirst, bind_apply, hagain, ← bind_apply]
  | ok u =>
      have hends : (makeDirectories site.cwd (Path.directory out)).Ends fs () _ := ⟨hmake, rfl⟩
      have hmade := makeDirectories_of_made hdir hends fun _ hq => hq
      have hfirst := bind_of_untold (hagain.symm.trans hmade)
        fun _ => change fun fs => fs.write site.cwd out ByteArray.empty
      rw [hfirst] at h ⊢
      rw [files_change_of_error h, bind_of_untold hmade]

theorem openOutput_of_written {content : ByteArray} (hout : Path.Rooted out.toList ss)
    (h : (openOutput site out).Ends fs () opened) (hleft : opened.write site.cwd out content = .ok left) :
    (openOutput site out).Ends left () opened := by
  have hdir := rooted_directory hout
  obtain ⟨_, made, hmake, hempty⟩ := ends_bind_iff.1 h
  rw [ends_change_iff] at hempty
  have hopened := rewritable_of_write hempty
  have hagain := rewritable_of_write hleft
  have hmade := makeDirectories_of_made hdir hmake fun q hq => hagain.directory q (hopened.directory q hq)
  refine ends_bind_iff.2 ⟨(), left, ⟨congrArg Effect.result hmade, congrArg Effect.files hmade⟩, ?_⟩
  rw [ends_change_iff, hagain.write_eq, hopened.write_eq, hempty]

/-- The bundle of a program is written as it was, with the same result, over what was left. -/
theorem write_again (hout : Path.Rooted out.toList ss) (hfs : fs.WellFormed) (b : Bundler) (site : Site)
    (eol : String) (p : Program) :
    b.write site eol out p (b.write site eol out p fs).files = b.write site eol out p fs := by
  cases hopen : (openOutput site out fs).result with
  | error e =>
      obtain ⟨rest, hwrite⟩ : ∃ rest, b.write site eol out p = openOutput site out >>= rest :=
        ⟨_, (Action.bind_assoc _ _ _).symm⟩
      have hagain := openOutput_again_of_error hout hfs hopen
      rw [hwrite, congrArg Effect.files (bind_of_error hopen rest), bind_apply, hagain, ← bind_apply]
  | ok u =>
      have hends : (openOutput site out).Ends fs () (openOutput site out fs).files := ⟨hopen, rfl⟩
      obtain ⟨left, hleft, hfirst⟩ := b.write_of_open eol p hends
      obtain ⟨left', hleft', hsecond⟩ := b.write_of_open eol p (openOutput_of_written hout hends hleft)
      obtain rfl : left = left' := Except.ok.inj (hleft.symm.trans hleft')
      rw [hfirst, hsecond]

end Bundler

end DeclBundle
