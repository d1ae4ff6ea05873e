import DeclBundle.Proofs.Restored

/-!
# Looking again

When a run is repeated, it finds other files than the first time: those that the first run left. They
differ at most in the output file and by directories above it (`TouchesOnly`). What is looked for elsewhere
is found there if it was found before, since directories stay directories (`follow_mono`); and it is not
found if it was not, since nothing lies below a directory that was missing (`look_follow`). `Revisited` says
how the files of both runs stand to one another while temporary files are put and taken away again.
-/

namespace DeclBundle

/-! ### Effects that are repeated -/

variable {α β : Type}

/-- An effect comes to the same value as another that comes to one, tells the same, and leaves files that are
related to those of the other. -/
def Effect.Repeats (R : FileSystem → FileSystem → Prop) (first again : Effect α) : Prop :=
  ∀ a, first.result = .ok a →
    again.result = .ok a ∧ again.events = first.events ∧ R first.files again.files

namespace Action

variable {R S : FileSystem → FileSystem → Prop} {fs fs' : FileSystem}

theorem repeats_bind {x y : Action α} {f g : α → Action β} (hx : (x fs).Repeats R (y fs'))
    (hf : ∀ a left left', x.Ends fs a left → R left left' → (f a left).Repeats S (g a left')) :
    ((x >>= f) fs).Repeats S ((y >>= g) fs') := by
  intro b hb
  cases hresult : (x fs).result with
  | error e =>
      rw [bind_of_error hresult] at hb
      cases hb
  | ok a =>
      obtain ⟨hsame, hevents, hrel⟩ := hx a hresult
      have hfirst := bind_of_ok hresult f
      rw [hfirst] at hb ⊢
      rw [bind_of_ok hsame]
      obtain ⟨hsame', hevents', hrel'⟩ := hf a _ _ ⟨hresult, rfl⟩ hrel b hb
      exact ⟨hsame', by rw [hevents, hevents'], hrel'⟩

theorem repeats_pure (a : α) (h : R fs fs') : ((pure a : Action α) fs).Repeats R ((pure a : Action α) fs') :=
  fun _ hb => ⟨hb, rfl, h⟩

theorem repeats_fail (e : Failure) (y : Effect α) : ((fail e : Action α) fs).Repeats R y := nofun

theorem repeats_note (level : Level) (text : String) (h : R fs fs') :
    (note level text fs).Repeats R (note level text fs') := fun _ hb => ⟨hb, rfl, h⟩

theorem repeats_ofExcept {x y : Except Failure α} (hxy : ∀ a, x = .ok a → y = .ok a) (h : R fs fs') :
    (ofExcept x fs).Repeats R (ofExcept y fs') := fun a ha => ⟨hxy a ha, rfl, h⟩

theorem repeats_change {f : FileSystem → Except FileSystem.Fault FileSystem}
    (h : ∀ left, f fs = .ok left → ∃ left', f fs' = .ok left' ∧ R left left') :
    (change f fs).Repeats R (change f fs') := by
  intro u hu
  cases hleft : f fs with
  | error fault =>
      rw [change, hleft] at hu
      cases hu
  | ok left =>
      obtain ⟨left', hleft', hrel⟩ := h left hleft
      rw [change_of_ok hleft, change_of_ok hleft']
      exact ⟨rfl, rfl, hrel⟩

theorem repeats_forM {ι : Type} {f : ι → Action Unit}
    (hf : ∀ i c c', R c c' → (f i c).Repeats R (f i c')) (is : List ι) (h : R fs fs') :
    ((forM is f : Action Unit) fs).Repeats R ((forM is f : Action Unit) fs') := by
  induction is generalizing fs fs' with
  | nil => exact repeats_pure () h
  | cons i is ih =>
      rw [List.forM_cons]
      exact repeats_bind (hf i fs fs' h) fun _ _ _ _ hrel => ih hrel

theorem repeats_tidying {x y : Action α} {tidy : FileSystem → FileSystem}
    (hx : (x fs).Repeats R (y fs')) (htidy : ∀ left left', R left left' → S (tidy left) (tidy left')) :
    (x.tidying tidy fs).Repeats S (y.tidying tidy fs') := by
  intro a ha
  obtain ⟨hsame, hevents, hrel⟩ := hx a ha
  exact ⟨hsame, hevents, htidy _ _ hrel⟩

end Action

namespace FileSystem

open DeclBundle.Path (Rooted Ordinary)

variable {fs fs' : FileSystem} {out top here l q : Place} {ss : List String} {cwd p : String}
  {steps : List (List Char)} {e : Entry}

/-! ### Ways -/

theorem TouchesOnly.directory (h : TouchesOnly out fs fs') (hq : fs.get? q = some .directory) :
    fs'.get? q = some .directory := by
  by_cases habove : q <+: out
  · by_cases heq : q = out
    · subst heq
      rcases h.at_out with hsame | ⟨hne, -⟩
      · rw [hsame, hq]
      · exact absurd hq hne
    · rcases h.above q habove heq with hsame | ⟨hnone, -⟩
      · rw [hsame, hq]
      · rw [hq] at hnone
        cases hnone
  · rw [h.off q habove, hq]

theorem follow_mono (h : ∀ q, fs.get? q = some .directory → fs'.get? q = some .directory)
    (hl : fs.follow here ss = .ok l) : fs'.follow here ss = .ok l := by
  induction ss generalizing here with
  | nil => exact hl
  | cons s ss ih =>
      rw [follow] at hl
      split at hl
      · cases hl
      · cases hl
      case h_3 hdir =>
        simp only [follow, h _ hdir]
        split at hl
        case isTrue hstay => rw [if_pos hstay, ih hl]
        case isFalse hgo =>
          rw [if_neg hgo]
          split at hl
          case isTrue hup => rw [if_pos hup, ih hl]
          case isFalse hdown =>
            rw [if_neg hdown]
            split at hl
            case isTrue => cases hl
            case isFalse hshort => rw [if_neg hshort, ih hl]

theorem place_mono (h : ∀ q, fs.get? q = some .directory → fs'.get? q = some .directory)
    (hl : fs.place cwd p = .ok l) : fs'.place cwd p = .ok l := by
  unfold place at hl ⊢
  split at hl
  · cases hl
  case isFalse hnull =>
    rw [if_neg hnull]
    split at hl
    · cases hl
    case isFalse hempty =>
      rw [if_neg hempty]
      exact follow_mono h hl

def look (fs : FileSystem) : Except Cause Place → Option Entry
  | .ok l => fs.get? l
  | .error _ => none

theorem find?_eq_look (fs : FileSystem) (cwd p : String) : fs.find? cwd p = fs.look (fs.place cwd p) := by
  rw [find?]
  cases fs.place cwd p <;> rfl

/-- Nothing lies below a place above the output at which nothing lies. -/
def HasNoGap (out : Place) (fs : FileSystem) : Prop :=
  ∀ m l, m <+: out → fs.get? m = none → m <+: l → fs.get? l = none

theorem directory_of_follow_cons {s : String} (h : fs.follow here (s :: ss) = .ok l) :
    fs.get? here = some .directory := by
  rw [follow] at h
  split at h
  · cases h
  · cases h
  case h_3 hdir => exact hdir

theorem look_follow (h : TouchesOnly out fs fs') (hgap : fs.HasNoGap out) (hup : ".." ∉ ss)
    (hoff : ∀ l, fs'.follow here ss = .ok l → ¬ l <+: out) :
    fs'.look (fs'.follow here ss) = fs.look (fs.follow here ss) := by
  induction ss generalizing here with
  | nil => exact h.off here (hoff here rfl)
  | cons s ss ih =>
      obtain ⟨hs, hss⟩ := not_or.1 (List.mem_cons.not.1 hup)
      by_cases hsame : fs'.get? here = fs.get? here
      · simp only [follow, hsame] at hoff ⊢
        split
        · rfl
        · rfl
        case h_3 hdir =>
          simp only [hdir, if_neg (Ne.symm hs)] at hoff ⊢
          split
          case isTrue hstay =>
            rw [if_pos hstay] at hoff
            exact ih hss hoff
          case isFalse hgo =>
            rw [if_neg hgo] at hoff
            split
            case isTrue => rfl
            case isFalse hshort =>
              rw [if_neg hshort] at hoff
              exact ih hss hoff
      · -- The place is a directory that is new: nothing lay below it.
        have hother : fs.get? here ≠ some .directory := fun hdir => hsame (by rw [h.directory hdir, hdir])
        have hfirst : fs.look (fs.follow here (s :: ss)) = none := by
          rw [follow]
          split
          · rfl
          · rfl
          case h_3 hdir => exact absurd hdir hother
        rw [hfirst]
        cases hl : fs'.follow here (s :: ss) with
        | error c => rfl
        | ok l =>
            have hdir := directory_of_follow_cons hl
            have habove : here <+: out := Decidable.byContradiction fun hnot => hsame (h.off here hnot)
            have hfree : fs.get? here = none := by
              by_cases heq : here = out
              · subst heq
                rcases h.at_out with hat | ⟨-, content, hfile⟩
                · exact absurd hat hsame
                · rw [hdir] at hfile
                  cases hfile
              · exact ((h.above here habove heq).resolve_left hsame).1
            rw [look, h.off l (hoff l hl)]
            exact hgap here l habove hfree ⟨_, (follow_eq_ok hup hl).symm⟩

/-- A path is found to lead to what it led to, if its way comes down from where it came before. -/
theorem find?_eq_of_append {first rest : List String} (h : TouchesOnly out fs fs')
    (hgap : fs.HasNoGap out) (hsteps : FileSystem.steps (Path.join cwd p) = first ++ rest)
    (hfirst : fs'.follow [] first = fs.follow [] first) (hup : ".." ∉ rest)
    (hoff : ∀ l, fs'.place cwd p = .ok l → ¬ l <+: out) : fs'.find? cwd p = fs.find? cwd p := by
  rw [find?_eq_look, find?_eq_look]
  unfold place at hoff ⊢
  split
  case isTrue => rfl
  case isFalse hnull =>
    rw [if_neg hnull] at hoff
    split
    case isTrue => rfl
    case isFalse hempty =>
      rw [if_neg hempty, hsteps, follow_append, hfirst] at hoff
      rw [hsteps, follow_append, follow_append, hfirst]
      cases hm : fs.follow [] first with
      | error c => rfl
      | ok m =>
          rw [hm] at hoff
          exact look_follow h hgap hup hoff

theorem mem_steps_of_mem_placeOf {s : String} (hs : s ∈ placeOf p) : s ∈ FileSystem.steps p := by
  obtain ⟨t, ht, rfl⟩ := List.mem_map.1 hs
  exact List.mem_map_of_mem (List.mem_filter.1 ht).1

/-- What is found at the end of a path of ordinary steps is what was found there. -/
theorem find?_eq_of_rooted (cwd : String) (h : TouchesOnly out fs fs') (hgap : fs.HasNoGap out)
    (hp : Rooted p.toList steps) (hoff : ¬ placeOf p <+: out) : fs'.find? cwd p = fs.find? cwd p := by
  have hsame : fs'.follow [] [] = fs.follow [] [] := rfl
  refine find?_eq_of_append h hgap (List.nil_append _).symm hsame ?_ fun l hl => ?_
  · rw [join_of_rooted hp]
    exact up_not_mem_steps hp
  · rwa [place_eq_placeOf hp hl]

/-! ### Long names -/

theorem short_of_follow (h : fs.follow here ss = .ok l) : ∀ s ∈ ss, s.utf8ByteSize ≤ nameLimit := by
  induction ss generalizing here with
  | nil => nofun
  | cons s ss ih =>
      rw [follow] at h
      split at h
      · cases h
      · cases h
      · split at h
        case isTrue hstay =>
          refine List.forall_mem_cons.2 ⟨?_, ih h⟩
          rcases hstay with rfl | rfl <;> decide
        case isFalse =>
          split at h
          case isTrue hup =>
            refine List.forall_mem_cons.2 ⟨?_, ih h⟩
            subst hup
            decide
          case isFalse =>
            split at h
            · cases h
            case isFalse hshort => exact List.forall_mem_cons.2 ⟨Nat.le_of_not_lt hshort, ih h⟩

theorem follow_ne_longName (h : ∀ s ∈ ss, s.utf8ByteSize ≤ nameLimit) :
    fs.follow here ss ≠ .error .longName := by
  induction ss generalizing here with
  | nil => nofun
  | cons s ss ih =>
      obtain ⟨hs, hss⟩ := List.forall_mem_cons.1 h
      rw [follow]
      split
      · simp
      · simp
      · split
        · exact ih hss
        · split
          · exact ih hss
          · rw [if_neg (Nat.not_lt.2 hs)]
            exact ih hss

/-! ### Files of a first run and of a second one -/

def IsApart (probes : String → Prop) (out : Place) : Prop :=
  ∀ p, probes p → ¬ placeOf (Path.normalize p) <+: out

/-- The files of a second run, beside those of a first one. They differ at most in the output file and by
directories above it, above the temporary directory there are directories, and nothing lies below a place
above the output at which nothing lies. -/
structure Revisited (out top : Place) (fs fs' : FileSystem) : Prop where
  touches : TouchesOnly out fs fs'
  above : ∀ r, r <+: top → r ≠ top → fs.get? r = some .directory
  gap : fs.HasNoGap out

theorem TouchesOnly.put (h : TouchesOnly out fs fs') (hl : ¬ l <+: out) (e : Entry) :
    TouchesOnly out (fs.put l e) (fs'.put l e) := by
  have hne : l ≠ [] := fun hnil => hl (hnil ▸ List.nil_prefix)
  have hoff : ∀ q, q <+: out → (fs.put l e).get? q = fs.get? q ∧ (fs'.put l e).get? q = fs'.get? q := by
    intro q hq
    have hlq : l ≠ q := fun heq => hl (heq ▸ hq)
    rw [get?_put fs hne, get?_put fs' hne, if_neg hlq, if_neg hlq]
    exact ⟨rfl, rfl⟩
  refine ⟨fun q hq => ?_, fun q hq hne' => ?_, ?_⟩
  · rw [get?_put fs hne, get?_put fs' hne]
    split
    · rfl
    · exact h.off q hq
  · rw [(hoff q hq).1, (hoff q hq).2]
    exact h.above q hq hne'
  · rw [(hoff out List.prefix_rfl).1, (hoff out List.prefix_rfl).2]
    exact h.at_out

theorem get?_without_of_not {drop : Place → Bool} (hq : drop q = false) (fs : FileSystem) :
    (fs.without drop).get? q = fs.get? q := by
  by_cases hroot : q = []
  · rw [hroot, get?_root, get?_root]
  · rw [get?_without fs drop hroot, hq, if_neg Bool.false_ne_true]

theorem TouchesOnly.without (h : TouchesOnly out fs fs') {drop : Place → Bool}
    (hdrop : ∀ q, drop q = true → ¬ q <+: out) : TouchesOnly out (fs.without drop) (fs'.without drop) := by
  have hkept : ∀ q, q <+: out → drop q = false := fun q hq => by
    by_contra hd
    exact hdrop q (by simpa using hd) hq
  refine ⟨fun q hq => ?_, fun q hq hne' => ?_, ?_⟩
  · cases hd : drop q with
    | false =>
        rw [get?_without_of_not hd, get?_without_of_not hd]
        exact h.off q hq
    | true =>
        have hroot : q ≠ [] := fun hnil => hq (hnil ▸ List.nil_prefix)
        rw [get?_without fs drop hroot, get?_without fs' drop hroot, hd]
        rfl
  · rw [get?_without_of_not (hkept q hq), get?_without_of_not (hkept q hq)]
    exact h.above q hq hne'
  · rw [get?_without_of_not (hkept out List.prefix_rfl), get?_without_of_not (hkept out List.prefix_rfl)]
    exact h.at_out

theorem get?_ne_none_of_put (hl : l ≠ []) (e : Entry) (hq : fs.get? q ≠ none) : (fs.put l e).get? q ≠ none := by
  rw [get?_put fs hl]
  split
  · exact Option.some_ne_none e
  · exact hq

namespace Revisited

/-- Both runs may put something where neither the output nor a directory above the temporary one is. -/
theorem put (h : Revisited out top fs fs') (hout : ¬ l <+: out) (htop : l <+: top → l = top)
    (hdir : ∀ m, m <+: l → m <+: out → fs.get? m ≠ none) (e : Entry) :
    Revisited out top (fs.put l e) (fs'.put l e) := by
  have hne : l ≠ [] := fun hnil => hout (hnil ▸ List.nil_prefix)
  refine ⟨h.touches.put hout e, fun r hr hr' => ?_, fun m q hm hnone hq => ?_⟩
  · rw [get?_put fs hne, if_neg, h.above r hr hr']
    exact fun heq => hr' (heq ▸ htop (heq ▸ hr))
  · have hfree : fs.get? m = none := by
      by_contra hsome
      exact get?_ne_none_of_put hne e hsome hnone
    rw [get?_put fs hne, if_neg, h.gap m q hm hfree hq]
    rintro rfl
    exact hdir m hq hm hfree

theorem without (h : Revisited out top fs fs') {drop : Place → Bool}
    (hout : ∀ q, drop q = true → ¬ q <+: out) (htop : ∀ q, drop q = true → q <+: top → q = top) :
    Revisited out top (fs.without drop) (fs'.without drop) := by
  refine ⟨h.touches.without hout, fun r hr hr' => ?_, fun m q hm hnone hq => ?_⟩
  · have hd : drop r = false := by
      by_contra hd
      exact hr' (htop r (by simpa using hd) hr)
    rw [get?_without_of_not hd, h.above r hr hr']
  · have hd : drop m = false := by
      by_contra hd
      exact hout m (by simpa using hd) hm
    rw [get?_without_of_not hd] at hnone
    have hroot : q ≠ [] := by
      rintro rfl
      rw [List.prefix_nil.1 hq, get?_root] at hnone
      cases hnone
    rw [get?_without fs drop hroot, h.gap m q hm hnone hq, ite_self]

theorem get?_eq_of_prefix (h : Revisited out top fs fs') (htop : ¬ top <+: out) (hq : q <+: top) :
    fs'.get? q = fs.get? q := by
  by_cases heq : q = top
  · exact h.touches.off q (heq ▸ htop)
  · have hdir := h.above q hq heq
    rw [hdir, h.touches.directory hdir]

end Revisited

/-! ### Ways below the temporary directory -/

variable (hagree : ∀ q, q <+: top → fs'.get? q = fs.get? q)

include hagree

theorem follow_congr (hup : ".." ∉ ss) (hhere : here ++ ss.filter (fun s => s ≠ "" ∧ s ≠ ".") <+: top) :
    fs'.follow here ss = fs.follow here ss := by
  induction ss generalizing here with
  | nil => rfl
  | cons s ss ih =>
      obtain ⟨hs, hss⟩ := not_or.1 (List.mem_cons.not.1 hup)
      simp only [follow, hagree here ((List.prefix_append _ _).trans hhere)]
      split
      · rfl
      · rfl
      · split
        case isTrue hstay =>
          rw [List.filter_cons_of_neg (by simpa [imp_iff_not_or] using hstay)] at hhere
          exact ih hss hhere
        case isFalse hgo =>
          rw [if_neg (Ne.symm hs), if_neg (Ne.symm hs)]
          split
          · rfl
          · refine ih hss ?_
            rw [List.filter_cons_of_pos (by simpa [not_or] using hgo)] at hhere
            simpa using hhere

theorem follow_replicate_congr (n : Nat) (hhere : here <+: top) :
    fs'.follow here (List.replicate n "..") = fs.follow here (List.replicate n "..") := by
  induction n generalizing here with
  | zero => rfl
  | succ n ih =>
      have hstay : ¬ (".." = "" ∨ ".." = ".") := by decide
      simp only [List.replicate_succ, follow, hagree here hhere, if_neg hstay, if_true]
      split
      · rfl
      · rfl
      · exact ih ((List.dropLast_prefix here).trans hhere)

end FileSystem

namespace Path

theorem lead_eq (source target : List (List Char)) :
    ∃ n rest, lead source target = List.replicate n up ++ rest ∧ ∀ s ∈ rest, s ∈ target := by
  induction source generalizing target with
  | nil => exact ⟨0, target, by simp, fun _ hs => hs⟩
  | cons s source ih =>
      cases target with
      | nil => exact ⟨(s :: source).length, [], by simp [lead, List.map_const', List.replicate_succ], nofun⟩
      | cons t target =>
          by_cases hst : s = t
          · obtain ⟨n, rest, hlead, hrest⟩ := ih target
            exact ⟨n, rest, by rw [lead, if_pos hst, hlead], fun r hr => List.mem_cons_of_mem _ (hrest r hr)⟩
          · exact ⟨(s :: source).length, t :: target, by rw [lead, if_neg hst, List.map_const'],
              fun _ hr => hr⟩

theorem head?_write_ne_slash {steps : List (List Char)} (h : ∀ s ∈ steps, s ≠ [] ∧ '/' ∉ s) :
    (write [] steps).head? ≠ some '/' := by
  rw [write, List.nil_append]
  split
  · decide
  · cases steps with
    | nil => simp
    | cons s steps =>
        obtain ⟨hs, hslash⟩ := h s List.mem_cons_self
        obtain ⟨c, cs, hjoin, hc⟩ := join_cons_ne_slash steps hs hslash
        rw [hjoin]
        simpa using hc

theorem pieces_write {steps : List (List Char)} (h : ∀ s ∈ steps, s ≠ [] ∧ '/' ∉ s) :
    Text.pieces '/' (write [] steps) = if steps = [] then [here] else steps := by
  split
  case isTrue hnil =>
    rw [hnil]
    rfl
  case isFalse hsome =>
    have hjoin : Text.join ['/'] steps ≠ [] := fun heq => by
      have hnone := stepsOf_join h
      rw [heq, stepsOf_nil] at hnone
      exact hsome hnone.symm
    rw [write, List.nil_append, if_neg hjoin, Text.pieces_join hsome fun s hs => (h s hs).2]

end Path

end DeclBundle
