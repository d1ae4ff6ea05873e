import DeclBundle.Json.Printer
import DeclBundle.Json.Reader
import Mathlib.Data.List.Induction
import Mathlib.Tactic.SplitIfs

/-!
# What stands in the way of writing

Whether a value is written to its end does not depend on where it stands in the document, and `obstacleOf`
says what stands in the way. Nothing does for a value that was read from a document in JSON
(`obstacleOf_of_read`): it holds no foreign values, and no whole number that is read has too many digits.
-/

namespace DeclBundle

namespace Text

theorem naturalOf_lt (s : List Char) : naturalOf s < Nat.pow 10 s.length := by
  induction s using List.reverseRecOn with
  | nil => decide
  | append_singleton s c ih =>
      have hdigit : (digitValue? c).getD 0 < 10 := by
        cases h : digitValue? c with
        | none => decide
        | some d => exact digitValue?_lt h
      have hpow : Nat.pow 10 (s.length + 1) = Nat.pow 10 s.length * 10 := rfl
      rw [naturalOf_append_singleton, List.length_append, List.length_singleton, hpow]
      omega

end Text

namespace Json

mutual

def obstacleOf : Value → Option Obstacle
  | .list xs => obstacleIn xs
  | .map es => obstacleAmong es
  | v => (writeScalar v).obstacle

def obstacleIn : List Value → Option Obstacle
  | [] => none
  | x :: xs => (obstacleOf x).or (obstacleIn xs)

def obstacleAmong : List (Value × Value) → Option Obstacle
  | [] => none
  | (k, v) :: es => ((writeKey k).obstacle.or (obstacleOf v)).or (obstacleAmong es)

end

@[simp] theorem obstacleOf_text (s : String) : obstacleOf (.text s) = none := rfl

@[simp] theorem obstacleOf_bool (b : Bool) : obstacleOf (.bool b) = none := rfl

@[simp] theorem obstacle_writeKey_text (s : String) : (writeKey (.text s)).obstacle = none := rfl

theorem obstacle_writeBehind (before : String) (v : Value) (d : Writing) :
    (writeBehind before v d).obstacle = d.obstacle := by
  unfold writeBehind
  split
  · next o h => exact h.symm
  · rfl

theorem obstacle_writeMember (before : String) (key : Value) (d : Writing) :
    (writeMember before key d).obstacle = (writeKey key).obstacle.or d.obstacle := by
  unfold writeMember
  split
  · next o h => rw [h]; rfl
  · simp only [Writing.obstacle_append, Writing.ofText, Option.none_or, Option.or_none]

mutual

theorem obstacle_writeAt (level : Nat) : ∀ v, (writeAt level v).obstacle = obstacleOf v
  | .list (x :: xs) => by
      simp only [writeAt, Writing.obstacle_append, obstacle_writeBehind, obstacle_writeAt (level + 1) x,
        obstacle_writeItems (level + 1) xs, Writing.ofText, Option.or_none]
      rfl
  | .map ((k, v) :: es) => by
      simp only [writeAt, Writing.obstacle_append, obstacle_writeMember, obstacle_writeAt (level + 1) v,
        obstacle_writeEntries (level + 1) es, Writing.ofText, Option.or_none, Option.none_or]
      rfl
  | .null | .bool _ | .int _ | .float _ | .text _ | .other _ | .list [] | .map [] => rfl

theorem obstacle_writeItems (level : Nat) : ∀ xs, (writeItems level xs).obstacle = obstacleIn xs
  | [] => rfl
  | x :: xs => by
      rw [writeItems, Writing.obstacle_append, obstacle_writeBehind, obstacle_writeAt level x,
        obstacle_writeItems level xs]
      rfl

theorem obstacle_writeEntries (level : Nat) : ∀ es, (writeEntries level es).obstacle = obstacleAmong es
  | [] => rfl
  | (k, v) :: es => by
      rw [writeEntries, Writing.obstacle_append, obstacle_writeMember, obstacle_writeAt level v,
        obstacle_writeEntries level es]
      rfl

end

theorem obstacle_write (v : Value) : (write v).obstacle = obstacleOf v := obstacle_writeAt 0 v

theorem obstacleIn_eq_none_iff {xs : List Value} : obstacleIn xs = none ↔ ∀ x ∈ xs, obstacleOf x = none := by
  induction xs with
  | nil => simp [obstacleIn]
  | cons x xs ih => simp [obstacleIn, ih]

def IsFree (e : Value × Value) : Prop := (writeKey e.1).obstacle = none ∧ obstacleOf e.2 = none

theorem obstacleAmong_eq_none_iff {r : Record} : obstacleAmong r = none ↔ ∀ e ∈ r, IsFree e := by
  induction r with
  | nil => simp [obstacleAmong]
  | cons e r ih =>
      obtain ⟨k, v⟩ := e
      simp [obstacleAmong, ih, IsFree]

/-! ### Records -/

theorem isFree_of_mem_put {r : Record} {key value : Value} (hr : ∀ e ∈ r, IsFree e)
    (h : IsFree (key, value)) : ∀ e ∈ Record.put r key value, IsFree e := by
  induction r with
  | nil => simpa [Record.put] using h
  | cons e r ih =>
      obtain ⟨he, hr⟩ := List.forall_mem_cons.1 hr
      rw [Record.put]
      split
      · exact List.forall_mem_cons.2 ⟨⟨he.1, h.2⟩, hr⟩
      · exact List.forall_mem_cons.2 ⟨he, ih hr⟩

theorem isFree_of_mem_ofEntries {es : List (Value × Value)} (h : ∀ e ∈ es, IsFree e) :
    ∀ e ∈ Record.ofEntries es, IsFree e := by
  unfold Record.ofEntries
  refine List.foldlRecOn (motive := fun r => ∀ e ∈ r, IsFree e) es _ nofun fun r hr e he => ?_
  exact isFree_of_mem_put hr (h e he)

theorem isFree_of_get? {r : Record} (hr : ∀ e ∈ r, IsFree e) {key : String} {v : Value}
    (h : r.get? key = some v) : obstacleOf v = none := by
  induction r with
  | nil => cases h
  | cons e r ih =>
      obtain ⟨he, hr⟩ := List.forall_mem_cons.1 hr
      rw [Record.get?] at h
      split at h
      · obtain rfl := Option.some.inj h
        exact he.2
      · exact ih hr h

/-! ### What was read -/

/-- What is read, if something is, has a property. -/
def Yields {α : Type} (P : α → Prop) : Reading α → Prop
  | .ok (a, _) => P a
  | .error _ => True

theorem Yields.map {α β : Type} {P : α → Prop} {Q : β → Prop} {x : Reading α} (h : Yields P x) {f : α → β}
    (hf : ∀ a, P a → Q (f a)) : Yields Q (x.map fun r => (f r.1, r.2)) := by
  cases x with
  | ok r => exact hf _ h
  | error e => trivial

theorem isLong_naturalOf_eq_false {s : List Char} (h : s.length ≤ Text.digitLimit) (negative : Bool) :
    isLong (if negative then -(Text.naturalOf s : Int) else Text.naturalOf s) = false := by
  have hpow : ∀ n, s.length ≤ n → Nat.pow 10 s.length ≤ Nat.pow 10 n :=
    fun n hn => Nat.pow_le_pow_right (by decide) hn
  have hlt : Text.naturalOf s < Nat.pow 10 Text.digitLimit :=
    Nat.lt_of_lt_of_le (Text.naturalOf_lt s) (hpow _ h)
  have habs : (if negative then -(Text.naturalOf s : Int) else Text.naturalOf s).natAbs =
      Text.naturalOf s := by
    cases negative
    · exact Int.natAbs_natCast _
    · exact (Int.natAbs_neg _).trans (Int.natAbs_natCast _)
  rw [isLong, habs, decide_eq_false_iff_not]
  exact Nat.not_le.2 hlt

theorem yields_readNumber (s : List Char) : Yields (obstacleOf · = none) (readNumber s) := by
  unfold readNumber
  split
  next negative body _ =>
    dsimp only
    split
    · trivial
    · split
      · split
        case isTrue => trivial
        case isFalse hshort =>
          change (writeScalar (.int _)).obstacle = none
          rw [writeScalar, isLong_naturalOf_eq_false (Nat.not_lt.1 hshort), if_neg Bool.false_ne_true]
          rfl
      · rfl

theorem yields_readWord? {s rest : List Char} {v : Value} (h : readWord? s = some (v, rest)) :
    obstacleOf v = none := by
  have hwords : ∀ w ∈ words, obstacleOf w.2 = none := by simp [words, obstacleOf, writeScalar, Writing.ofText]
  obtain ⟨w, hmem, hw⟩ := List.exists_of_findSome?_eq_some h
  split_ifs at hw
  obtain ⟨rfl, -⟩ := Prod.mk.inj (Option.some.inj hw)
  exact hwords w hmem

/-- However far it counts, a reading of a value, of items or of members yields what can be written. -/
theorem yields_readValue (fuel : Nat) : (∀ s, Yields (obstacleOf · = none) (readValue fuel s)) ∧
    (∀ s, Yields (obstacleIn · = none) (readItems fuel s)) ∧
    ∀ s, Yields (fun es => ∀ e ∈ es, IsFree e) (readMembers fuel s) := by
  induction fuel with
  | zero => exact ⟨fun _ => trivial, fun _ => trivial, fun _ => trivial⟩
  | succ fuel ih =>
      obtain ⟨hvalue, hitems, hmembers⟩ := ih
      refine ⟨fun s => ?_, fun s => ?_, fun s => ?_⟩
      · unfold readValue
        split
        case h_1 cs =>
          have htext : Yields (fun _ => True) (readString ('"' :: cs).length ('"' :: cs).length cs) := by
            cases readString ('"' :: cs).length ('"' :: cs).length cs <;> trivial
          exact htext.map (f := fun t => Value.text (String.ofList t)) fun _ _ => rfl
        case h_2 cs =>
          split
          · rfl
          · exact (hitems _).map (f := Value.list) fun _ h => h
        case h_3 cs =>
          split
          · rfl
          · exact (hmembers _).map (f := fun es => Value.map (Record.ofEntries es)) fun es h =>
              obstacleAmong_eq_none_iff.2 (isFree_of_mem_ofEntries h)
        case h_4 =>
          split
          case h_1 r hr => exact yields_readWord? hr
          case h_2 => exact yields_readNumber s
      · unfold readItems
        have hitem := hvalue s
        split
        case h_1 => trivial
        case h_2 v rest hv =>
          rw [hv] at hitem
          split
          · exact obstacleIn_eq_none_iff.2 (List.forall_mem_singleton.2 hitem)
          · exact (hitems _).map (f := (v :: ·)) fun xs h =>
              obstacleIn_eq_none_iff.2 (List.forall_mem_cons.2 ⟨hitem, obstacleIn_eq_none_iff.1 h⟩)
          · trivial
      · unfold readMembers
        split
        case h_2 => trivial
        case h_1 cs =>
          split
          · trivial
          · split
            case h_2 => trivial
            case h_1 rest _ =>
              have hmember := hvalue (skipGap rest)
              split
              · trivial
              case h_2 v rest hv =>
                rw [hv] at hmember
                split
                · exact List.forall_mem_singleton.2 ⟨rfl, hmember⟩
                · exact (hmembers _).map fun es h => List.forall_mem_cons.2 ⟨⟨rfl, hmember⟩, h⟩
                · trivial

theorem obstacleOf_of_read {text : String} {v : Value} (h : read text = .ok v) : obstacleOf v = none := by
  have hdocument : readDocument text.toList = .ok v := by
    simp only [read] at h
    split at h
    · next hv => exact hv.trans (congrArg Except.ok (Except.ok.inj h))
    · cases h
    · cases h
  have hvalue := (yields_readValue (2 * text.toList.length + 2)).1 (skipGap text.toList)
  unfold readDocument at hdocument
  split at hdocument
  · cases hdocument
  · split at hdocument
    · cases hdocument
    case h_2 v' rest hv =>
      rw [hv] at hvalue
      split at hdocument
      · obtain rfl := Except.ok.inj hdocument
        exact hvalue
      · cases hdocument

end Json

end DeclBundle
