import DeclBundle.Proofs.Compilation
import Mathlib.Data.List.Forall2

/-!
# Runs alike but for names

What is temporary gets other names in every run: the configuration, which the command names, and the
directory for declarations, which the configuration names. Beside them, only a fault names one of the two.
`Event.Alike` and `Failure.Alike` allow for just these names, and `Effect.Alike` says that two effects tell
the same but for the names and come to the same value or to failures that are the same but for them. It goes
through actions one after another (`Action.alike_bind`), so that two runs are followed step by step.
-/

namespace DeclBundle

namespace Compiler

def callWords (s : Site) (baseDir : String) (words : List String) : List String :=
  words ++ ["-p", configPath s baseDir, "--listFiles", "--pretty", "false"]

end Compiler

open Compiler (callOf callWords configPath declarationDir)

/-- Two events are the same but for the names of what is temporary at two sites. -/
inductive Event.Alike (s s' : Site) (baseDir : String) : Event → Event → Prop
  | same (e : Event) : Alike s s' baseDir e e
  | running (words : List String) :
      Alike s s' baseDir (.entry .info ("Running " ++ " ".intercalate (callWords s baseDir words)))
        (.entry .info ("Running " ++ " ".intercalate (callWords s' baseDir words)))
  | call (words : List String) (options : Record) (files : List String) (timeout : Value) :
      Alike s s' baseDir (.call (callOf s words baseDir (declarationDir s) options files timeout))
        (.call (callOf s' words baseDir (declarationDir s') options files timeout))

/-- Two failures are the same but for these names. -/
inductive Failure.Alike (s s' : Site) (baseDir : String) : Failure → Failure → Prop
  | same (e : Failure) : Alike s s' baseDir e e
  | invocation (words : List String) (reason : String) (status : Option Int) :
      Alike s s' baseDir (.invocation (callWords s baseDir words) reason status)
        (.invocation (callWords s' baseDir words) reason status)
  | directory (c : FileSystem.Cause) :
      Alike s s' baseDir (.system ⟨c, some (declarationDir s)⟩) (.system ⟨c, some (declarationDir s')⟩)
  | configuration (c : FileSystem.Cause) :
      Alike s s' baseDir (.system ⟨c, some (configPath s baseDir)⟩)
        (.system ⟨c, some (configPath s' baseDir)⟩)

variable {α β : Type} {s s' : Site} {baseDir : String}

/-- Two results are the same value, or failures that are the same but for these names. -/
inductive ResultsAlike (s s' : Site) (baseDir : String) : Except Failure α → Except Failure α → Prop
  | value (a : α) : ResultsAlike s s' baseDir (.ok a) (.ok a)
  | failure {e e' : Failure} (h : e.Alike s s' baseDir e') : ResultsAlike s s' baseDir (.error e) (.error e')

theorem ResultsAlike.refl (x : Except Failure α) : ResultsAlike s s' baseDir x x := by
  cases x with
  | ok a => exact .value a
  | error e => exact .failure (.same e)

/-- Two effects tell the same and come to the same, but for these names. -/
structure Effect.Alike (s s' : Site) (baseDir : String) (x y : Effect α) : Prop where
  events : List.Forall₂ (Event.Alike s s' baseDir) x.events y.events
  result : ResultsAlike s s' baseDir x.result y.result

theorem Event.alike_refl (events : List Event) : List.Forall₂ (Event.Alike s s' baseDir) events events :=
  List.forall₂_same.2 fun e _ => .same e

theorem Effect.Alike.refl (x : Effect α) : x.Alike s s' baseDir x := ⟨Event.alike_refl _, .refl _⟩

/-- What is read off an event that names nothing temporary is read off alike events alike. -/
theorem filterMap_eq_of_alike {f : Event → Option β} (hentry : ∀ level text, f (.entry level text) = none)
    (hcall : ∀ c, f (.call c) = none) {events events' : List Event}
    (h : List.Forall₂ (Event.Alike s s' baseDir) events events') :
    events'.filterMap f = events.filterMap f := by
  induction h with
  | nil => rfl
  | cons he _ ih =>
      rw [List.filterMap_cons, List.filterMap_cons, ih]
      cases he with
      | same e => rfl
      | running words => rw [hentry, hentry]
      | call words options files timeout => rw [hcall, hcall]

namespace Action

variable {fs fs' : FileSystem}

/-- Actions one after another are alike if each is like its fellow on the files that it finds. -/
theorem alike_bind {x y : Action α} {f g : α → Action β} (hx : (x fs).Alike s s' baseDir (y fs'))
    (hf : ∀ a left left', x.Ends fs a left → y.Ends fs' a left' →
      (f a left).Alike s s' baseDir (g a left')) :
    ((x >>= f) fs).Alike s s' baseDir ((y >>= g) fs') := by
  obtain ⟨hevents, hresult⟩ := hx
  rw [bind_apply, bind_apply]
  generalize hfirst : (x fs).result = first at hresult
  generalize hsecond : (y fs').result = second at hresult
  cases hresult with
  | failure he => exact ⟨hevents, .failure he⟩
  | value a =>
      obtain ⟨hrest, hresult⟩ := hf a _ _ ⟨hfirst, rfl⟩ ⟨hsecond, rfl⟩
      exact ⟨List.rel_append hevents hrest, hresult⟩

theorem alike_bind_same {x : Action α} {f g : α → Action β}
    (hf : ∀ a left, x.Ends fs a left → (f a left).Alike s s' baseDir (g a left)) :
    ((x >>= f) fs).Alike s s' baseDir ((x >>= g) fs) := by
  refine alike_bind (.refl _) fun a left left' hleft hleft' => ?_
  obtain rfl : left = left' := hleft.2.symm.trans hleft'.2
  exact hf a left hleft

theorem alike_pure (a : α) : ((pure a : Action α) fs).Alike s s' baseDir ((pure a : Action α) fs') :=
  ⟨.nil, .value a⟩

theorem alike_fail {e e' : Failure} (h : e.Alike s s' baseDir e') :
    ((fail e : Action α) fs).Alike s s' baseDir ((fail e' : Action α) fs') := ⟨.nil, .failure h⟩

theorem alike_tell {e e' : Event} (h : e.Alike s s' baseDir e') :
    (tell e fs).Alike s s' baseDir (tell e' fs') := ⟨.cons h .nil, .value ()⟩

theorem alike_ofExcept (x : Except Failure α) :
    (ofExcept x fs).Alike s s' baseDir (ofExcept x fs') := ⟨.nil, .refl x⟩

theorem alike_tidying {x y : Action α} (h : (x fs).Alike s s' baseDir (y fs'))
    (tidy tidy' : FileSystem → FileSystem) :
    (x.tidying tidy fs).Alike s s' baseDir (y.tidying tidy' fs') := ⟨h.events, h.result⟩

theorem alike_forM {ι : Type} {f : ι → Event} (is : List ι) :
    ((forM is fun i => tell (f i) : Action Unit) fs).Alike s s' baseDir
      ((forM is fun i => tell (f i) : Action Unit) fs') := by
  induction is with
  | nil => exact alike_pure ()
  | cons i is ih =>
      rw [List.forM_cons]
      refine alike_bind (alike_tell (.same _)) fun _ left left' hleft hleft' => ?_
      obtain rfl := ends_tell_iff.1 hleft
      obtain rfl := ends_tell_iff.1 hleft'
      exact ih

theorem alike_change {f g : FileSystem → Except FileSystem.Fault FileSystem}
    (h : (∃ c, f fs = .error c ∧ ∃ c', g fs' = .error c' ∧
        (Failure.system c).Alike s s' baseDir (.system c')) ∨
      (∃ left, f fs = .ok left) ∧ ∃ left', g fs' = .ok left') :
    (change f fs).Alike s s' baseDir (change g fs') := by
  rcases h with ⟨c, hc, c', hc', halike⟩ | ⟨⟨left, hleft⟩, left', hleft'⟩
  · rw [change, change, hc, hc']
    exact ⟨.nil, .failure halike⟩
  · rw [change_of_ok hleft, change_of_ok hleft']
    exact ⟨.nil, .value ()⟩

end Action

end DeclBundle
