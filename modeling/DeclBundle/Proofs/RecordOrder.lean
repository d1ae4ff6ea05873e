import DeclBundle.Proofs.SettingsText

/-!
# The order of records

A record that is made of entries has a text key where the first of its entries stands and with the value
of the last: its text keys are those of the entries without repetitions (`textKeys_ofEntries`), and what
is found under a key is what the last entry says (`get?_ofEntries`). No two keys of it are the same
(`distinct_ofEntries`), so that in such a record the first and the last entry of a key are one
(`Distinct.last?_eq`).
-/

namespace DeclBundle.Record

/-- The value of the last entry with a text key. -/
def last? (es : Record) (key : String) : Option Value :=
  ((es.filter fun e => e.1.isSameKey (.text key)).getLast?).map Prod.snd

def textKeys (r : Record) : List String := r.filterMap fun e => e.1.text?

def Distinct (r : Record) : Prop := r.Pairwise fun e e' => e.1.isSameKey e'.1 = false

@[simp] theorem last?_nil (key : String) : last? [] key = none := rfl

theorem last?_append_singleton (es : Record) (e : Value × Value) (key : String) :
    last? (es ++ [e]) key = if e.1.isSameKey (.text key) then some e.2 else last? es key := by
  rw [last?, List.filter_append]
  cases h : e.1.isSameKey (.text key) with
  | true => simp [h]
  | false => simp [h, last?]

/-- What is put under a key is found under it, and what was there under every other. -/
theorem get?_put (r : Record) (k v : Value) (key : String) :
    get? (put r k v) key = if k.isSameKey (.text key) then some v else get? r key := by
  cases h : k.isSameKey (.text key) with
  | true =>
      rw [(isSameKey_text_iff k key).1 h, get?_put_self]
      rfl
  | false =>
      induction r with
      | nil => simp [put, get?, h]
      | cons e r ih =>
          obtain ⟨k', v'⟩ := e
          have hne : k' = .text key → k'.isSameKey k = false := by
            rintro rfl
            refine Bool.eq_false_iff.2 fun hsame => ?_
            cases k <;> simp_all [Value.isSameKey]
          by_cases hk : k'.isSameKey (.text key) = true
          · have hput : k'.isSameKey k = false := hne ((isSameKey_text_iff k' key).1 hk)
            simp [put, get?, hput, hk]
          · by_cases hput : k'.isSameKey k = true
            · simp [put, get?, hput, hk]
            · simpa [put, get?, hput, hk] using ih

theorem get?_foldl_put (es r : Record) (key : String) :
    get? (es.foldl (fun r e => put r e.1 e.2) r) key = (last? es key).or (get? r key) := by
  induction es using List.reverseRecOn with
  | nil => rfl
  | append_singleton es e ih =>
      rw [List.foldl_append, List.foldl_cons, List.foldl_nil, get?_put, last?_append_singleton, ih]
      split <;> rfl

theorem get?_ofEntries (es : Record) (key : String) : get? (ofEntries es) key = last? es key := by
  rw [ofEntries, get?_foldl_put, get?_nil, Option.or_none]

theorem forall_key_put {P : Value → Prop} {r : Record} {k : Value} (h : ∀ e ∈ r, P e.1) (hk : P k)
    (v : Value) : ∀ e ∈ put r k v, P e.1 := by
  induction r with
  | nil => exact List.forall_mem_singleton.2 hk
  | cons e r ih =>
      obtain ⟨k', v'⟩ := e
      obtain ⟨hk', hr⟩ := List.forall_mem_cons.1 h
      rw [put]
      split
      · exact List.forall_mem_cons.2 ⟨hk', hr⟩
      · exact List.forall_mem_cons.2 ⟨hk', ih hr⟩

theorem forall_key_foldl_put {P : Value → Prop} {es r : Record} (hes : ∀ e ∈ es, P e.1)
    (h : ∀ e ∈ r, P e.1) : ∀ e ∈ es.foldl (fun r e => put r e.1 e.2) r, P e.1 := by
  induction es generalizing r with
  | nil => exact h
  | cons e es ih =>
      obtain ⟨he, hes⟩ := List.forall_mem_cons.1 hes
      exact ih hes (forall_key_put h he e.2)

theorem Distinct.put {r : Record} (h : Distinct r) (k v : Value) : Distinct (put r k v) := by
  induction r with
  | nil => exact List.pairwise_singleton _ _
  | cons e r ih =>
      obtain ⟨k', v'⟩ := e
      obtain ⟨hfirst, hr⟩ := List.pairwise_cons.1 h
      rw [Record.put]
      split
      case isTrue => exact List.pairwise_cons.2 ⟨hfirst, hr⟩
      case isFalse hk =>
        exact List.pairwise_cons.2 ⟨forall_key_put (P := fun x => k'.isSameKey x = false) hfirst
          (Bool.eq_false_iff.2 hk) v, ih hr⟩

theorem Distinct.foldl_put {r : Record} (h : Distinct r) (es : Record) :
    Distinct (es.foldl (fun r e => Record.put r e.1 e.2) r) := by
  induction es generalizing r with
  | nil => exact h
  | cons e es ih => exact ih (h.put e.1 e.2)

theorem distinct_ofEntries (es : Record) : Distinct (ofEntries es) :=
  Distinct.foldl_put List.Pairwise.nil es

/-- Where no two keys are the same, the last entry of a key is its only one. -/
theorem Distinct.last?_eq {r : Record} (h : Distinct r) (key : String) : last? r key = get? r key := by
  rw [← get?_ofEntries, ofEntries_of_pairwise h]

theorem get?_eq_none {r : Record} {key : String} (h : ∀ e ∈ r, e.1 ≠ .text key) :
    get? r key = none := by
  induction r with
  | nil => rfl
  | cons e r ih =>
      obtain ⟨k, v⟩ := e
      obtain ⟨hk, hr⟩ := List.forall_mem_cons.1 h
      rw [get?, if_neg (mt (isSameKey_text_iff k key).1 hk), ih hr]

/-- Where no two keys are the same, the entry of a key is found or filtered out. -/
theorem Distinct.get?_filter {r : Record} (h : Distinct r) (p : Value × Value → Bool) (key : String) :
    get? (r.filter p) key = (get? r key).filter fun v => p (.text key, v) := by
  induction r with
  | nil => rfl
  | cons e r ih =>
      obtain ⟨k, v⟩ := e
      obtain ⟨hfirst, hr⟩ := List.pairwise_cons.1 h
      by_cases hk : k.isSameKey (.text key) = true
      · obtain rfl := (isSameKey_text_iff k key).1 hk
        have hnone : get? r key = none := get?_eq_none fun e he heq => by
          have hsame := hfirst e he
          rw [heq] at hsame
          simp at hsame
        rw [List.filter_cons, get?, if_pos hk]
        cases hp : p (.text key, v) with
        | true => simp [get?, Option.filter, hp]
        | false => simp [Option.filter, hp, ih hr, hnone]
      · rw [List.filter_cons, get?, if_neg hk, ← ih hr]
        split
        · rw [get?, if_neg hk]
        · rfl

theorem textKeys_cons (e : Value × Value) (r : Record) :
    textKeys (e :: r) = e.1.text?.toList ++ textKeys r := by
  rw [textKeys, List.filterMap_cons]
  cases e.1.text? <;> rfl

theorem textKeys_append (r r' : Record) : textKeys (r ++ r') = textKeys r ++ textKeys r' :=
  List.filterMap_append

theorem textKeys_put_text (r : Record) (s : String) (v : Value) :
    textKeys (put r (.text s) v) = if s ∈ textKeys r then textKeys r else textKeys r ++ [s] := by
  induction r with
  | nil => rfl
  | cons e r ih =>
      obtain ⟨k, v'⟩ := e
      rw [put]
      split
      case isTrue hk =>
        rw [(isSameKey_text_iff k s).1 hk, textKeys_cons, textKeys_cons]
        simp [Value.text?]
      case isFalse hk =>
        have hmem : s ∈ k.text?.toList ++ textKeys r ↔ s ∈ textKeys r := by
          cases k with
          | text t =>
              have hne : s ≠ t := by
                rintro rfl
                exact hk (by simp)
              simp [Value.text?, hne]
          | _ => simp [Value.text?]
        rw [textKeys_cons, textKeys_cons, ih]
        simp only [hmem]
        split <;> simp

theorem textKeys_put_of_none (r : Record) {k : Value} (hk : k.text? = none) (v : Value) :
    textKeys (put r k v) = textKeys r := by
  induction r with
  | nil => rw [put, textKeys_cons, hk]; rfl
  | cons e r ih =>
      obtain ⟨k', v'⟩ := e
      rw [put]
      split
      · rw [textKeys_cons, textKeys_cons]
      · rw [textKeys_cons, textKeys_cons, ih]

theorem textKeys_ofEntries (es : Record) : textKeys (ofEntries es) = (textKeys es).eraseDups := by
  induction es using List.reverseRecOn with
  | nil => rfl
  | append_singleton es e ih =>
      have hput : ofEntries (es ++ [e]) = put (ofEntries es) e.1 e.2 := by
        rw [ofEntries, List.foldl_append]
        rfl
      have hlast : textKeys [e] = e.1.text?.toList := by rw [textKeys_cons]; simp [textKeys]
      rw [hput, textKeys_append, hlast, List.eraseDups_append]
      cases hk : e.1 with
      | text s =>
          rw [textKeys_put_text, ih]
          by_cases hs : s ∈ textKeys es <;> simp [Value.text?, hs, List.removeAll, List.eraseDups_cons]
      | _ =>
          rw [textKeys_put_of_none _ rfl, ih]
          simp [Value.text?, List.removeAll]

end DeclBundle.Record
