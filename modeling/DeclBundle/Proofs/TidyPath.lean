import DeclBundle.Proofs.Climb
import DeclBundle.Proofs.Places

/-!
# Where tidy paths lead

Seen from a working directory a path is an anchor and what is left of the walk along its steps, which
begins at the root or in the working directory (`rooted_reach`, `anchor_absolute`). Only the tidy steps
count for both, so a path below a directory, in its tidy form, is the path as seen from that directory
(`absolute_tidyJoin`). A file system leads to the same place, if anywhere (`place_eq_reach`), and to a file
only by a step with a name; so two paths that lead to one file have the same directory, seen from the
working directory, and the same last step (`absolute_parent_eq`).
-/

namespace DeclBundle

namespace Path

variable {cwd dir p q v : String} {a s : List Char} {steps : List (List Char)}

/-! ### Tidy steps -/

def Trodden (s : List Char) : Prop := s ≠ [] ∧ s ≠ here ∧ '/' ∉ s

theorem tidySteps_eq (p : List Char) : tidySteps p = (stepsOf p).filter (· ≠ here) := by
  rw [stepsOf, List.filter_filter, tidySteps]
  exact List.filter_congr fun s _ => by simp [Bool.and_comm]

theorem trodden_of_mem {p : List Char} (h : s ∈ tidySteps p) : Trodden s := by
  rw [tidySteps_eq] at h
  obtain ⟨hmem, hhere⟩ := List.mem_filter.1 h
  exact ⟨(stepsOf_of_mem hmem).1, by simpa using hhere, (stepsOf_of_mem hmem).2⟩

theorem anchor_cases (p : List Char) : anchor p = [] ∨ anchor p = ['/'] ∨ anchor p = ['/', '/'] := by
  by_cases h : p.head? = some '/'
  · obtain ⟨cs, rfl⟩ := List.head?_eq_some_iff.1 h
    exact .inr (anchor_cons_slash cs)
  · exact .inl (anchor_of_ne_slash h)

theorem isAbsolute_eq (p : String) : isAbsolute p = !(anchor p.toList).isEmpty := by
  cases h : isAbsolute p with
  | true =>
      obtain ⟨cs, hcs⟩ := isAbsolute_iff.1 h
      rcases anchor_cons_slash cs with ha | ha
      · rw [hcs, ha]; rfl
      · rw [hcs, ha]; rfl
  | false =>
      have hhead : p.toList.head? ≠ some '/' := fun hhead => by
        rw [isAbsolute_iff.2 (List.head?_eq_some_iff.1 hhead)] at h
        cases h
      rw [anchor_of_ne_slash hhead]
      rfl

theorem anchor_eq_nil (h : isAbsolute p = false) : anchor p.toList = [] := by
  simpa [isAbsolute_eq] using h

theorem head?_ne_slash (h : isAbsolute p = false) : p.toList.head? ≠ some '/' := fun hhead => by
  rw [isAbsolute_iff.2 (List.head?_eq_some_iff.1 hhead)] at h
  cases h

theorem head?_join_ne_slash_of_trodden (h : ∀ s ∈ steps, Trodden s) :
    (Text.join ['/'] steps).head? ≠ some '/' := by
  cases steps with
  | nil => simp
  | cons s steps =>
      obtain ⟨hs, -, hslash⟩ := h s List.mem_cons_self
      obtain ⟨c, cs, hjoin, hc⟩ := join_cons_ne_slash steps hs hslash
      rw [hjoin]
      simpa using hc

/-- The steps that a tidy path is written from are its steps, but for the one that stays in a path without
steps. -/
theorem stepsOf_write (p : List Char) (h : ∀ s ∈ steps, Trodden s) :
    stepsOf (write (anchor p) steps) = if anchor p = [] ∧ steps = [] then [here] else steps := by
  have hjoin : stepsOf (Text.join ['/'] steps) = steps :=
    stepsOf_join fun s hs => ⟨(h s hs).1, (h s hs).2.2⟩
  have hslash : ∀ t, stepsOf ('/' :: t) = stepsOf t := stepsOf_cons_slash
  rcases anchor_cases p with ha | ha | ha
  · rw [ha, write, List.nil_append]
    by_cases hnil : steps = []
    · subst hnil
      rfl
    · have hne : Text.join ['/'] steps ≠ [] := fun heq => hnil (by rw [← hjoin, heq, stepsOf_nil])
      rw [if_neg hne, if_neg (by simp [hnil]), hjoin]
  · simp [ha, write, hslash, hjoin]
  · simp [ha, write, hslash, hjoin]

theorem tidySteps_write (p : List Char) (h : ∀ s ∈ steps, Trodden s) :
    tidySteps (write (anchor p) steps) = steps := by
  rw [tidySteps_eq, stepsOf_write p h]
  split
  · next hnil => simp [hnil.2]
  · exact List.filter_eq_self.2 fun s hs => by simpa using (h s hs).2.1

theorem anchor_write (p : List Char) (h : ∀ s ∈ steps, Trodden s) :
    anchor (write (anchor p) steps) = anchor p := by
  have hhead := head?_join_ne_slash_of_trodden h
  have hslash : ∀ a, (a = ['/'] ∨ a = ['/', '/']) → anchor (write a steps) = a := by
    intro a ha
    have hne : a ++ Text.join ['/'] steps ≠ [] := by
      rcases ha with rfl | rfl
      · simp
      · simp
    rw [write, if_neg hne, anchor_append_of_ne_slash ha hhead]
  rcases anchor_cases p with ha | ha
  · rw [ha, write, List.nil_append]
    split
    · rfl
    · exact anchor_of_ne_slash hhead
  · exact hslash _ ha

@[simp] theorem tidySteps_tidy (p : String) : tidySteps (tidy p).toList = tidySteps p.toList := by
  rw [tidy, String.toList_ofList, tidySteps_write _ fun s => trodden_of_mem]

@[simp] theorem anchor_tidy (p : String) : anchor (tidy p).toList = anchor p.toList := by
  rw [tidy, String.toList_ofList, anchor_write _ fun s => trodden_of_mem]

@[simp] theorem tidySteps_parent (p : String) :
    tidySteps (parent p).toList = (tidySteps p.toList).dropLast := by
  rw [parent, String.toList_ofList, tidySteps_write]
  exact fun s hs => trodden_of_mem (List.dropLast_subset _ hs)

@[simp] theorem anchor_parent (p : String) : anchor (parent p).toList = anchor p.toList := by
  rw [parent, String.toList_ofList, anchor_write]
  exact fun s hs => trodden_of_mem (List.dropLast_subset _ hs)

@[simp] theorem isAbsolute_tidy (p : String) : isAbsolute (tidy p) = isAbsolute p := by
  rw [isAbsolute_eq, isAbsolute_eq, anchor_tidy]

@[simp] theorem isAbsolute_parent (p : String) : isAbsolute (parent p) = isAbsolute p := by
  rw [isAbsolute_eq, isAbsolute_eq, anchor_parent]

theorem tidy_ne_empty (p : String) : tidy p ≠ "" := by
  intro h
  have hwrite : write (anchor p.toList) (tidySteps p.toList) = [] := by
    rw [← String.toList_ofList (l := write _ _), ← tidy, h]
    rfl
  unfold write at hwrite
  dsimp only at hwrite
  split at hwrite
  · cases hwrite
  · contradiction

/-! ### Below a directory -/

theorem stepsOf_below (d : List Char) {p : List Char} (hp : p.head? ≠ some '/') :
    stepsOf (below d p) = stepsOf d ++ stepsOf p := by
  rw [below_of_ne_slash hp]
  split
  case isTrue hdir =>
    rcases hdir with rfl | hlast
    · rfl
    · obtain ⟨d, rfl⟩ := List.getLast?_eq_some_iff.1 hlast
      rw [List.append_assoc, List.singleton_append, stepsOf_append, stepsOf_append, stepsOf_nil,
        List.append_nil]
  case isFalse => exact stepsOf_append d p

theorem tidySteps_below (d : List Char) {p : List Char} (hp : p.head? ≠ some '/') :
    tidySteps (below d p) = tidySteps d ++ tidySteps p := by
  rw [tidySteps_eq, tidySteps_eq, tidySteps_eq, stepsOf_below d hp, List.filter_append]

theorem anchor_takeWhile (p : List Char) : anchor (p.takeWhile (· == '/')) = anchor p := by
  match p with
  | [] => rfl
  | [a] => by_cases ha : a = '/' <;> simp [anchor, ha]
  | [a, b] => by_cases ha : a = '/' <;> by_cases hb : b = '/' <;> simp [anchor, ha, hb]
  | a :: b :: c :: p =>
      by_cases ha : a = '/' <;> by_cases hb : b = '/' <;> by_cases hc : c = '/' <;>
        simp [anchor, ha, hb, hc]

/-- What follows another character than a slash does not count for the anchor. -/
theorem anchor_append_of_mem {d : List Char} (h : ∃ c ∈ d, c ≠ '/') (p : List Char) :
    anchor (d ++ p) = anchor d := by
  obtain ⟨c, hc, hne⟩ := h
  rw [← anchor_takeWhile, List.takeWhile_append, if_neg, anchor_takeWhile]
  intro hlength
  rw [(List.takeWhile_sublist _).length_eq] at hlength
  have hslash := List.mem_takeWhile_imp (hlength.symm ▸ hc)
  exact hne (by simpa using hslash)

theorem anchor_append_of_head? (d : List Char) {p : List Char} (hp : p.head? ≠ some '/') :
    anchor (d ++ p) = anchor d := by
  have hnone : p.takeWhile (· == '/') = [] := by
    cases p with
    | nil => rfl
    | cons c p => exact List.takeWhile_cons_of_neg (by simpa using hp)
  rw [← anchor_takeWhile, List.takeWhile_append, ← anchor_takeWhile d, hnone, List.append_nil]
  split
  · next h => rw [(List.takeWhile_sublist _).length_eq.1 h]
  · rfl

theorem anchor_below (d : List Char) {p : List Char} (hp : p.head? ≠ some '/') :
    anchor (below d p) = anchor d := by
  rw [below_of_ne_slash hp]
  split
  case isTrue => exact anchor_append_of_head? d hp
  case isFalse hdir =>
    obtain ⟨hne, hlast⟩ := not_or.1 hdir
    refine anchor_append_of_mem ⟨d.getLast hne, List.getLast_mem hne, fun heq => hlast ?_⟩ _
    rw [List.getLast?_eq_some_getLast hne, heq]

theorem isAbsolute_join (dir : String) (hv : isAbsolute v = false) :
    isAbsolute (join dir v) = isAbsolute dir := by
  rw [isAbsolute_eq, isAbsolute_eq, join, String.toList_ofList, anchor_below _ (head?_ne_slash hv)]

/-! ### Seen from a working directory -/

theorem foldl_push_tidySteps (anchored : Bool) (p : List Char) (stack : List (List Char)) :
    (tidySteps p).foldl (push anchored) stack = (stepsOf p).foldl (push anchored) stack := by
  rw [tidySteps_eq]
  induction stepsOf p generalizing stack with
  | nil => rfl
  | cons s steps ih =>
      by_cases hs : s = here
      · subst hs
        rw [List.filter_cons_of_neg (by simp), ih, List.foldl_cons, push_here]
      · rw [List.filter_cons_of_pos (by simpa using hs), List.foldl_cons, List.foldl_cons, ih]

def origin (cwd p : String) : List (List Char) :=
  if isAbsolute p then [] else (tidySteps cwd.toList).foldl (push true) []

def reach (cwd p : String) : List (List Char) := (tidySteps p.toList).foldl (push true) (origin cwd p)

theorem below_of_isAbsolute (d : List Char) (h : isAbsolute p = true) : below d p.toList = p.toList := by
  obtain ⟨cs, hcs⟩ := isAbsolute_iff.1 h
  rw [hcs, below_of_anchored]

theorem reverse_settle_below (cwd p : String) :
    (settle true (stepsOf (below cwd.toList p.toList))).reverse = reach cwd p := by
  rw [settle, List.reverse_reverse, reach, origin, ← foldl_push_tidySteps]
  split
  case isTrue h => rw [below_of_isAbsolute _ h]
  case isFalse h =>
    rw [tidySteps_below _ (head?_ne_slash (by simpa using h)), List.foldl_append]

theorem isAbsolute_join_of_left (hdir : isAbsolute dir = true) (p : String) :
    isAbsolute (join dir p) = true := by
  cases hp : isAbsolute p with
  | true => rw [join, below_of_isAbsolute _ hp, String.ofList_toList, hp]
  | false => rw [isAbsolute_join dir hp, hdir]

/-- A path as it is seen from a working directory consists of what is left of the walk along it. -/
theorem rooted_reach (h : isAbsolute cwd = true) (p : String) :
    Rooted (absolute cwd p).toList (reach cwd p).reverse := by
  obtain ⟨cs, hcs⟩ := isAbsolute_iff.1 (isAbsolute_join_of_left h p)
  have hrooted := rooted_normal cs
  rw [← hcs] at hrooted
  rw [absolute, normalize, String.toList_ofList, ← reverse_settle_below, List.reverse_reverse]
  rwa [join, String.toList_ofList] at hrooted ⊢

theorem anchor_absolute (h : isAbsolute cwd = true) (p : String) :
    anchor (absolute cwd p).toList = if isAbsolute p then anchor p.toList else anchor cwd.toList := by
  have hnormal : ∀ q, isAbsolute q = true → anchor (normal q.toList) = anchor q.toList := by
    intro q hq
    obtain ⟨cs, hcs⟩ := isAbsolute_iff.1 hq
    rw [hcs, anchor_normal]
  rw [absolute, normalize, String.toList_ofList]
  split
  case isTrue hp =>
    rw [join, below_of_isAbsolute _ hp, String.toList_ofList, hnormal p hp]
  case isFalse hp =>
    have hrel : isAbsolute p = false := by simpa using hp
    rw [hnormal _ ((isAbsolute_join cwd hrel).trans h), join, String.toList_ofList,
      anchor_below _ (head?_ne_slash hrel)]

/-- Two paths are the same, seen from working directories, if they have one anchor and their walks end
alike. -/
theorem absolute_eq_iff {cwd' : String} (h : isAbsolute cwd = true) (h' : isAbsolute cwd' = true) :
    absolute cwd p = absolute cwd' q ↔
      anchor (absolute cwd p).toList = anchor (absolute cwd' q).toList ∧ reach cwd p = reach cwd' q := by
  rw [← String.toList_inj, (rooted_reach h p).eq_iff (rooted_reach h' q), List.reverse_inj]

theorem isAbsolute_absolute (h : isAbsolute cwd = true) (p : String) :
    isAbsolute (absolute cwd p) = true :=
  isAbsolute_iff.2 (rooted_reach h p).exists_cons

theorem absolute_tidy (h : isAbsolute cwd = true) (p : String) :
    absolute cwd (tidy p) = absolute cwd p := by
  rw [absolute_eq_iff h h, anchor_absolute h, anchor_absolute h, reach, origin, tidySteps_tidy,
    anchor_tidy, isAbsolute_tidy]
  exact ⟨rfl, rfl⟩

/-- The steps of a directory, as it is seen from the working directory, are where a walk from there
begins. -/
theorem origin_absolute (h : isAbsolute cwd = true) (dir : String) (hv : isAbsolute v = false) :
    origin (absolute cwd dir) v = reach cwd dir := by
  have hordinary : ∀ s ∈ (reach cwd dir).reverse, Ordinary s := fun s hs =>
    ((rooted_reach h dir).1 s hs).1
  rw [origin, hv, if_neg Bool.false_ne_true, foldl_push_tidySteps, (rooted_reach h dir).stepsOf_eq,
    foldl_push_of_ordinary hordinary, List.reverse_reverse, List.append_nil]

/-- A relative path below a directory is the path as it is seen from the directory. -/
theorem absolute_join (h : isAbsolute cwd = true) (dir : String) (hv : isAbsolute v = false) :
    absolute cwd (join dir v) = absolute (absolute cwd dir) v := by
  have hdir := isAbsolute_absolute h dir
  rw [absolute_eq_iff h hdir, anchor_absolute h, anchor_absolute hdir, hv, if_neg Bool.false_ne_true,
    anchor_absolute h, isAbsolute_join dir hv, reach, reach, origin_absolute h dir hv, join,
    String.toList_ofList, anchor_below _ (head?_ne_slash hv), tidySteps_below _ (head?_ne_slash hv),
    List.foldl_append]
  refine ⟨rfl, ?_⟩
  rw [reach, origin, origin, isAbsolute_eq (String.ofList _), String.toList_ofList,
    anchor_below _ (head?_ne_slash hv), ← isAbsolute_eq]

/-- A path in tidy form below a directory is the path as it is seen from the directory. -/
theorem absolute_tidyJoin (h : isAbsolute cwd = true) (dir : String) (hv : isAbsolute v = false) :
    absolute cwd (tidyJoin dir v) = absolute (absolute cwd dir) v := by
  rw [tidyJoin, absolute_tidy h, absolute_join h dir hv]

theorem absolute_of_isAbsolute (hp : isAbsolute p = true) (cwd : String) : absolute cwd p = normalize p := by
  rw [absolute, join, below_of_isAbsolute _ hp, String.ofList_toList]

/-- The normal form of a path below an absolute directory is the path as it is seen from there. -/
theorem normalize_tidyJoin (hdir : isAbsolute dir = true) (p : String) :
    normalize (tidyJoin dir p) = absolute dir p := by
  have hjoin := isAbsolute_join_of_left hdir p
  rw [tidyJoin, ← absolute_of_isAbsolute ((isAbsolute_tidy _).trans hjoin) dir, absolute_tidy hdir,
    absolute_of_isAbsolute hjoin, absolute]

/-- A walk from an absolute directory comes to its way down, behind what its climb leaves of the steps of
the directory. -/
theorem reverse_reach_eq (hdir : isAbsolute dir = true) (hp : isAbsolute p = false) :
    (reach dir p).reverse =
      (stepsOf (normalize dir).toList).rdrop (climb p.toList) ++ descent p.toList := by
  obtain ⟨cs, hcs⟩ := isAbsolute_iff.1 hdir
  have hnormal := rooted_normal cs
  rw [← hcs] at hnormal
  have hordinary : ∀ s ∈ settle true (stepsOf dir.toList), Ordinary s := fun s => ordinary_of_mem_settle
  have hsettle := settle_append_stepsOf true hordinary p.toList
  have hstack : (settle true (stepsOf dir.toList)).foldl (push true) [] = origin dir p := by
    rw [foldl_push_of_ordinary hordinary, origin, hp, if_neg Bool.false_ne_true, foldl_push_tidySteps,
      settle, List.reverse_reverse, List.append_nil]
  rw [settle, List.foldl_append, hstack, ← foldl_push_tidySteps] at hsettle
  rw [reach, hsettle, normalize, String.toList_ofList, hnormal.stepsOf_eq]
  rfl

/-- Two directories are the same but for some steps at the end. -/
def SameAbove (n : Nat) (d d' : String) : Prop :=
  (stepsOf d.toList).rdrop n = (stepsOf d'.toList).rdrop n

/-- From two directories a relative path leads to the same place exactly if they are the same as far as it
does not climb. -/
theorem absolute_eq_absolute_iff {dir' : String} (hdir : isAbsolute dir = true)
    (hdir' : isAbsolute dir' = true) (hanchor : anchor dir.toList = anchor dir'.toList)
    (hp : isAbsolute p = false) :
    absolute dir p = absolute dir' p ↔ SameAbove (climb p.toList) (normalize dir) (normalize dir') := by
  rw [absolute_eq_iff hdir hdir', anchor_absolute hdir, anchor_absolute hdir', hp,
    if_neg Bool.false_ne_true, if_neg Bool.false_ne_true, and_iff_right hanchor, ← List.reverse_inj,
    reverse_reach_eq hdir hp, reverse_reach_eq hdir' hp, List.append_cancel_right_eq, SameAbove]

end Path

namespace FileSystem

open DeclBundle.Path

variable {fs : FileSystem} {cwd p : String} {l : Place}

/-! ### Files -/

theorem follow_append (here : Place) (ss ts : List String) :
    fs.follow here (ss ++ ts) = (fs.follow here ss).bind fun there => fs.follow there ts := by
  induction ss generalizing here with
  | nil => rfl
  | cons s ss ih =>
      rw [List.cons_append, follow, follow]
      split
      · rfl
      · rfl
      · split
        · exact ih here
        · split
          · exact ih _
          · split
            · rfl
            · exact ih _

theorem follow_eq_foldl {steps stack : List (List Char)} {there : Place} (hstack : Settled true stack)
    (h : fs.follow (stack.reverse.map String.ofList) (steps.map String.ofList) = .ok there) :
    there = (steps.foldl (push true) stack).reverse.map String.ofList := by
  induction steps generalizing stack with
  | nil => exact (Except.ok.inj h).symm
  | cons s steps ih =>
      have hofList : ∀ t : List Char, String.ofList s = String.ofList t ↔ s = t := fun t =>
        ⟨fun heq => by simpa using congrArg String.toList heq, fun heq => heq ▸ rfl⟩
      have hempty : String.ofList s = "" ↔ s = [] := hofList []
      have hhere : String.ofList s = "." ↔ s = here := hofList here
      have hup : String.ofList s = ".." ↔ s = up := hofList up
      rw [List.foldl_cons]
      refine ih (settled_push hstack s) ?_
      rw [List.map_cons, follow] at h
      split at h
      · cases h
      · cases h
      · simp only [hempty, hhere, hup] at h
        split at h
        case isTrue hstay => rwa [push_of_stay hstay]
        case isFalse hgo =>
          split at h
          case isTrue hs =>
            subst hs
            cases stack with
            | nil => exact h
            | cons top rest =>
                rw [push_up_cons (ordinary_of_mem_settled hstack List.mem_cons_self).2.2]
                simpa using h
          case isFalse hs =>
            split at h
            · cases h
            · obtain ⟨hne, hne'⟩ := not_or.1 hgo
              rw [push_of_ne hne hne' hs]
              simpa using h

theorem directory_of_follow {steps : List String} {here there q : Place}
    (hhere : ∀ q, q <+: here → q ≠ here → fs.get? q = some .directory)
    (h : fs.follow here steps = .ok there) (hq : q <+: there) (hne : q ≠ there) :
    fs.get? q = some .directory := by
  induction steps generalizing here with
  | nil =>
      obtain rfl := Except.ok.inj h
      exact hhere q hq hne
  | cons s steps ih =>
      rw [follow] at h
      split at h
      · cases h
      · cases h
      case h_3 hdir =>
        split at h
        · exact ih hhere h
        · split at h
          · refine ih (fun r hr hr' => ?_) h
            have hle := hr.trans (List.dropLast_prefix here)
            by_cases heq : r = here
            · rw [heq]; exact hdir
            · exact hhere r hle heq
          · split at h
            · cases h
            · refine ih (fun r hr hr' => ?_) h
              rcases List.prefix_concat_iff.1 hr with heq | hr
              · exact absurd heq hr'
              · by_cases heq : r = here
                · rw [heq]; exact hdir
                · exact hhere r hr heq

theorem ordinary_of_follow {ss : List String} {s : String} {content : ByteArray}
    (h : fs.follow [] (ss ++ [s]) = .ok l) (hfile : fs.get? l = some (.file content)) :
    s ≠ "" ∧ s ≠ "." ∧ s ≠ ".." := by
  rw [follow_append] at h
  cases hmid : fs.follow [] ss with
  | error e => rw [hmid] at h; cases h
  | ok mid =>
      rw [hmid] at h
      have habove : fs.get? mid.dropLast = some .directory → fs.get? l ≠ fs.get? mid.dropLast := by
        intro hdir
        simp [hdir, hfile]
      simp only [Except.bind, follow] at h
      split at h
      · cases h
      · cases h
      case h_3 hdir =>
        split at h
        case isTrue =>
          rw [← Except.ok.inj h, hdir] at hfile
          cases hfile
        case isFalse hgo =>
          obtain ⟨hne, hhere⟩ := not_or.1 hgo
          refine ⟨hne, hhere, fun hup => ?_⟩
          rw [if_pos hup] at h
          refine habove ?_ (by rw [← Except.ok.inj h])
          by_cases heq : mid.dropLast = mid
          · rw [heq, hdir]
          · refine directory_of_follow (fun q hq hne => ?_) hmid (List.dropLast_prefix mid) heq
            exact absurd (List.prefix_nil.1 hq) hne

theorem follow_of_place (h : fs.place cwd p = .ok l) :
    fs.follow [] ((Text.pieces '/' (below cwd.toList p.toList)).map String.ofList) = .ok l := by
  unfold place at h
  split at h
  · cases h
  · split at h
    · cases h
    · rwa [steps, join, String.toList_ofList] at h

/-- Above the end of a path there are only directories, whatever the files are. -/
theorem directory_of_place {q : Place} (h : fs.place cwd p = .ok l) (hq : q <+: l) (hne : q ≠ l) :
    fs.get? q = some .directory :=
  directory_of_follow (fun _ hr hr' => absurd (List.prefix_nil.1 hr) hr') (follow_of_place h) hq hne

theorem place_eq_reach (h : fs.place cwd p = .ok l) : l = (reach cwd p).reverse.map String.ofList := by
  have hroot : Settled true [] := trivial
  have hwalk := follow_eq_foldl hroot (follow_of_place h)
  rw [hwalk, ← reverse_settle_below, settle, List.reverse_reverse, stepsOf, foldl_push_filter]

/-- A path leads to the place of the path as it is seen from the working directory. -/
theorem place_eq_placeOf_absolute (hcwd : isAbsolute cwd = true) (h : fs.place cwd p = .ok l) :
    l = placeOf (absolute cwd p) := by
  rw [place_eq_reach h, placeOf, (rooted_reach hcwd p).stepsOf_eq]

theorem exists_name {content : ByteArray} (h : fs.place cwd (tidy p) = .ok l)
    (hfile : fs.get? l = some (.file content)) :
    ∃ above n, tidySteps p.toList = above ++ [n] ∧ Ordinary n := by
  have hfollow := follow_of_place h
  obtain ⟨ss, n, hpieces⟩ : ∃ ss n,
      Text.pieces '/' (below cwd.toList (tidy p).toList) = ss ++ [n] := by
    have hne := Text.pieces_ne_nil '/' (below cwd.toList (tidy p).toList)
    exact ⟨_, _, (List.dropLast_concat_getLast hne).symm⟩
  have hn : Ordinary n := by
    rw [hpieces, List.map_append, List.map_singleton] at hfollow
    obtain ⟨hempty, hhere, hup⟩ := ordinary_of_follow hfollow hfile
    exact ⟨fun heq => hempty (heq ▸ rfl), fun heq => hhere (heq ▸ rfl), fun heq => hup (heq ▸ rfl)⟩
  have hlast : (stepsOf (below cwd.toList (tidy p).toList)).getLast? = some n := by
    rw [stepsOf, hpieces, List.filter_append, List.filter_singleton]
    simp [hn.1]
  have htidy : stepsOf (tidy p).toList =
      if anchor p.toList = [] ∧ tidySteps p.toList = [] then [Path.here] else tidySteps p.toList := by
    rw [tidy, String.toList_ofList, stepsOf_write _ fun s => trodden_of_mem]
  -- What stands before a relative path in tidy form does not count, since it has at least one step.
  have hown : (stepsOf (tidy p).toList).getLast? = some n := by
    cases hp : isAbsolute p with
    | true =>
        rwa [below_of_isAbsolute _ ((isAbsolute_tidy p).trans hp)] at hlast
    | false =>
        have hne : stepsOf (tidy p).toList ≠ [] := by
          rw [htidy]
          split
          · exact List.cons_ne_nil _ _
          · next hsome => exact fun heq => hsome ⟨anchor_eq_nil hp, heq⟩
        rwa [stepsOf_below _ (head?_ne_slash ((isAbsolute_tidy p).trans hp)),
          List.getLast?_append_of_ne_nil _ hne] at hlast
  rw [htidy] at hown
  split at hown
  · exact absurd (Option.some.inj hown).symm hn.2.1
  · obtain ⟨above, habove⟩ := List.getLast?_eq_some_iff.1 hown
    exact ⟨above, n, habove, hn⟩

theorem reach_eq_cons {above : List (List Char)} {n : List Char}
    (h : tidySteps p.toList = above ++ [n]) (hn : Ordinary n) (cwd : String) :
    reach cwd p = n :: reach cwd (parent p) := by
  rw [reach, reach, tidySteps_parent, h, List.dropLast_concat, List.foldl_append, List.foldl_cons,
    List.foldl_nil, push_of_ne hn.1 hn.2.1 hn.2.2, origin, origin, isAbsolute_parent]

/-- Two paths that lead to one file, in tidy form and behind one anchor, have one directory, seen from the
working directory, and the same last step. -/
theorem absolute_parent_eq {q : String} {content : ByteArray} (hcwd : isAbsolute cwd = true)
    (hanchor : anchor (absolute cwd p).toList = anchor (absolute cwd q).toList)
    (hp : fs.place cwd (tidy p) = .ok l) (hq : fs.place cwd (tidy q) = .ok l)
    (hfile : fs.get? l = some (.file content)) :
    absolute cwd (parent (tidy p)) = absolute cwd (parent (tidy q)) ∧
      lastStep (tidy p) = lastStep (tidy q) := by
  obtain ⟨above, n, hsteps, hn⟩ := exists_name hp hfile
  obtain ⟨above', n', hsteps', hn'⟩ := exists_name hq hfile
  rw [← tidySteps_tidy] at hsteps hsteps'
  have hreach : reach cwd (tidy p) = reach cwd (tidy q) := by
    have heq := (place_eq_reach hp).symm.trans (place_eq_reach hq)
    exact List.reverse_injective (List.map_injective_iff.2 (fun _ _ => String.ofList_injective) heq)
  rw [reach_eq_cons hsteps hn, reach_eq_cons hsteps' hn', List.cons.injEq] at hreach
  obtain ⟨rfl, hreach⟩ := hreach
  refine ⟨(absolute_eq_iff hcwd hcwd).2 ⟨?_, hreach⟩, ?_⟩
  · simpa only [anchor_absolute hcwd, isAbsolute_parent, isAbsolute_tidy, anchor_parent, anchor_tidy]
      using hanchor
  · simp [lastStep, hsteps, hsteps']

end FileSystem

end DeclBundle
