import DeclBundle.Proofs.RelativeImport
import Mathlib.Data.List.DropRight

/-!
# Climbs

A walk goes up from where it begins by the steps up that take none of its own steps back, and down from
there by the ordinary steps that are left (`Climb`). From any stack it comes to its way down on top of what
the climb leaves of the stack (`foldl_push_eq`). So what it comes to from a row of ordinary steps is known
from the row, the height of the climb and the way down (`settle_append_stepsOf`), and it stays within some
steps exactly if it climbs no higher (`staysWithin_iff`).
-/

namespace DeclBundle.Path

/-- How high a walk went up from where it began, and its way down from there, the last step in front. -/
structure Climb where
  height : Nat
  way : List (List Char)

def Climb.tread (w : Climb) (s : List Char) : Climb :=
  if s = [] ∨ s = here then w
  else if s = up then
    match w.way with
    | [] => ⟨w.height + 1, []⟩
    | _ :: rest => ⟨w.height, rest⟩
  else ⟨w.height, s :: w.way⟩

def Climb.ofSteps (steps : List (List Char)) : Climb := steps.foldl Climb.tread ⟨0, []⟩

def climb (p : List Char) : Nat := (Climb.ofSteps (Text.pieces '/' p)).height

def descent (p : List Char) : List (List Char) := (Climb.ofSteps (Text.pieces '/' p)).way.reverse

/-- What is left of a stack behind some steps up. Where no anchor is, those that go up from its bottom
remain. -/
def rise (anchored : Bool) (stack : List (List Char)) (n : Nat) : List (List Char) :=
  stack.drop n ++ if anchored then [] else List.replicate (n - stack.length) up

def ascend (anchored : Bool) (steps : List (List Char)) (n : Nat) : List (List Char) :=
  (if anchored then [] else List.replicate (n - steps.length) up) ++ steps.rdrop n

namespace Climb

variable {w : Climb} {s : List Char}

theorem tread_of_stay (h : s = [] ∨ s = here) (w : Climb) : w.tread s = w := by simp [tread, h]

theorem tread_up_nil (h : w.way = []) : w.tread up = ⟨w.height + 1, []⟩ := by
  have hup : ¬ (up = [] ∨ up = here) := by decide
  simp [tread, hup, h]

theorem tread_up_cons {top : List Char} {rest : List (List Char)} (h : w.way = top :: rest) :
    w.tread up = ⟨w.height, rest⟩ := by
  have hup : ¬ (up = [] ∨ up = here) := by decide
  simp [tread, hup, h]

theorem tread_of_ordinary (h : Ordinary s) (w : Climb) : w.tread s = ⟨w.height, s :: w.way⟩ := by
  simp [tread, h.1, h.2.1, h.2.2]

theorem stay_or_up_or_ordinary (s : List Char) : (s = [] ∨ s = here) ∨ s = up ∨ Ordinary s := by
  by_cases hstay : s = [] ∨ s = here
  · exact .inl hstay
  · obtain ⟨hne, hhere⟩ := not_or.1 hstay
    by_cases hup : s = up
    · exact .inr (.inl hup)
    · exact .inr (.inr ⟨hne, hhere, hup⟩)

theorem ordinary_tread (h : ∀ t ∈ w.way, Ordinary t) (s : List Char) :
    ∀ t ∈ (w.tread s).way, Ordinary t := by
  rcases stay_or_up_or_ordinary s with hstay | rfl | hs
  · rwa [tread_of_stay hstay]
  · cases hway : w.way with
    | nil =>
        rw [tread_up_nil hway]
        exact List.forall_mem_nil _
    | cons top rest =>
        rw [tread_up_cons hway]
        exact (List.forall_mem_cons.1 (hway ▸ h)).2
  · rw [tread_of_ordinary hs]
    exact List.forall_mem_cons.2 ⟨hs, h⟩

theorem height_le_tread (w : Climb) (s : List Char) : w.height ≤ (w.tread s).height := by
  rcases stay_or_up_or_ordinary s with hstay | rfl | hs
  · rw [tread_of_stay hstay]
  · cases hway : w.way with
    | nil =>
        rw [tread_up_nil hway]
        exact Nat.le_succ _
    | cons top rest => rw [tread_up_cons hway]
  · rw [tread_of_ordinary hs]

theorem height_le_foldl (w : Climb) (steps : List (List Char)) :
    w.height ≤ (steps.foldl tread w).height := by
  induction steps generalizing w with
  | nil => exact Nat.le_refl _
  | cons s steps ih => exact (height_le_tread w s).trans (ih _)

end Climb

open Climb

theorem push_of_stay {s : List Char} (h : s = [] ∨ s = here) (anchored : Bool)
    (stack : List (List Char)) : push anchored stack s = stack := by
  simp [push, h]

theorem push_rise (anchored : Bool) {stack : List (List Char)} (h : ∀ t ∈ stack, t ≠ up) (n : Nat) :
    push anchored (rise anchored stack n) up = rise anchored stack (n + 1) := by
  by_cases hn : n < stack.length
  · have hnone : n - stack.length = 0 ∧ n + 1 - stack.length = 0 := by omega
    rw [rise, rise, hnone.1, hnone.2, List.drop_eq_getElem_cons hn, List.cons_append,
      push_up_cons (h _ (List.getElem_mem hn))]
  · have hmore : n + 1 - stack.length = n - stack.length + 1 := by omega
    rw [rise, rise, List.drop_eq_nil_of_le (by omega), List.drop_eq_nil_of_le (by omega), hmore]
    cases anchored with
    | true => simp [push, up, here]
    | false =>
        cases n - stack.length with
        | zero => simp [push, up, here]
        | succ k => simp [push, up, here, List.replicate_succ]

theorem push_tread (anchored : Bool) {stack : List (List Char)} (h : ∀ t ∈ stack, t ≠ up) {w : Climb}
    (hw : ∀ t ∈ w.way, Ordinary t) (s : List Char) :
    push anchored (w.way ++ rise anchored stack w.height) s =
      (w.tread s).way ++ rise anchored stack (w.tread s).height := by
  rcases stay_or_up_or_ordinary s with hstay | rfl | hs
  · rw [tread_of_stay hstay, push_of_stay hstay]
  · cases hway : w.way with
    | nil => rw [tread_up_nil hway, List.nil_append, List.nil_append, push_rise anchored h]
    | cons top rest =>
        have htop : Ordinary top := hw top (hway ▸ List.mem_cons_self)
        rw [tread_up_cons hway, List.cons_append, push_up_cons htop.2.2]
  · rw [tread_of_ordinary hs, push_of_ne hs.1 hs.2.1 hs.2.2, List.cons_append]

/-- A walk comes to its way down on top of what its climb leaves of the stack. -/
theorem foldl_push_eq (anchored : Bool) {stack : List (List Char)} (h : ∀ t ∈ stack, t ≠ up)
    (steps : List (List Char)) {w : Climb} (hw : ∀ t ∈ w.way, Ordinary t) :
    steps.foldl (push anchored) (w.way ++ rise anchored stack w.height) =
      (steps.foldl tread w).way ++ rise anchored stack (steps.foldl tread w).height := by
  induction steps generalizing w with
  | nil => rfl
  | cons s steps ih =>
      rw [List.foldl_cons, List.foldl_cons, push_tread anchored h hw, ih (ordinary_tread hw s)]

theorem reverse_rise (anchored : Bool) (steps : List (List Char)) (n : Nat) :
    (rise anchored steps.reverse n).reverse = ascend anchored steps n := by
  rw [rise, ascend, List.reverse_append, List.rdrop_eq_reverse_drop_reverse, List.length_reverse]
  cases anchored with
  | true => rfl
  | false => exact congrArg (· ++ _) List.reverse_replicate

theorem settle_append_stepsOf (anchored : Bool) {steps : List (List Char)}
    (h : ∀ s ∈ steps, Ordinary s) (p : List Char) :
    settle anchored (steps ++ stepsOf p) = ascend anchored steps (climb p) ++ descent p := by
  have hup : ∀ t ∈ steps.reverse, t ≠ up := fun t ht => (h t (List.mem_reverse.1 ht)).2.2
  have hwalk := foldl_push_eq anchored hup (Text.pieces '/' p) (w := ⟨0, []⟩) (List.forall_mem_nil _)
  have hstart : rise anchored steps.reverse 0 = steps.reverse := by simp [rise]
  rw [List.nil_append, hstart] at hwalk
  rw [settle, List.foldl_append, foldl_push_of_ordinary h, List.append_nil, stepsOf,
    foldl_push_filter, hwalk, List.reverse_append, reverse_rise]
  rfl

/-- A walk that has climbed some steps stays within a number of them exactly if it climbs no higher. -/
theorem staysWithin_foldl (steps : List (List Char)) {w : Climb} (hw : ∀ t ∈ w.way, Ordinary t)
    {n : Nat} (hn : w.height ≤ n) :
    staysWithin (w.way.length + (n - w.height)) steps = true ↔
      (steps.foldl tread w).height ≤ n := by
  induction steps generalizing w with
  | nil => exact iff_of_true rfl hn
  | cons s steps ih =>
      rw [List.foldl_cons]
      -- The way down counts against the climb: it has to be taken back before the climb goes on.
      rcases stay_or_up_or_ordinary s with hstay | rfl | hs
      · rw [staysWithin_cons_of_stay hstay, tread_of_stay hstay, ih hw hn]
      · rw [staysWithin_cons_up]
        cases hway : w.way with
        | nil =>
            rw [tread_up_nil hway, List.length_nil, Nat.zero_add, Nat.sub_pos_iff_lt, Nat.sub_sub]
            have hhigher : w.height + 1 ≤ (steps.foldl tread ⟨w.height + 1, []⟩).height :=
              height_le_foldl ⟨w.height + 1, []⟩ steps
            constructor
            · rintro ⟨hlt, hrest⟩
              exact (ih (w := ⟨w.height + 1, []⟩) (List.forall_mem_nil _) hlt).1 (by simpa using hrest)
            · intro hle
              have hlt : w.height < n := hhigher.trans hle
              refine ⟨hlt, ?_⟩
              simpa using (ih (w := ⟨w.height + 1, []⟩) (List.forall_mem_nil _) hlt).2 hle
        | cons top rest =>
            have hrest : ∀ t ∈ rest, Ordinary t := (List.forall_mem_cons.1 (hway ▸ hw)).2
            have hleft : (top :: rest).length + (n - w.height) - 1 = rest.length + (n - w.height) := by
              rw [List.length_cons]
              omega
            have hpos : 0 < (top :: rest).length + (n - w.height) :=
              Nat.add_pos_left (Nat.succ_pos _) _
            rw [tread_up_cons hway, hleft, ih (w := ⟨w.height, rest⟩) hrest hn]
            exact and_iff_right hpos
      · have hleft : w.way.length + (n - w.height) + 1 = (s :: w.way).length + (n - w.height) := by
          rw [List.length_cons]
          omega
        rw [staysWithin_cons_of_ordinary hs, tread_of_ordinary hs, hleft]
        exact ih (w := ⟨w.height, s :: w.way⟩) (List.forall_mem_cons.2 ⟨hs, hw⟩) hn

theorem staysWithin_iff {n : Nat} {p : List Char} :
    staysWithin n (Text.pieces '/' p) = true ↔ climb p ≤ n := by
  have h := staysWithin_foldl (Text.pieces '/' p) (w := ⟨0, []⟩) (List.forall_mem_nil _) (Nat.zero_le n)
  rwa [List.length_nil, Nat.zero_add, Nat.sub_zero] at h

end DeclBundle.Path
