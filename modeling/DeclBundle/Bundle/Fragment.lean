import DeclBundle.Action

/-!
# Fragments

A bundle is written piece by piece. A fragment is what one piece adds to it: a text, what is told of it,
and the failure that ends it, if there is one. `chain` makes the fragment of a row of pieces, each of which
comes into play only if those before it did not fail (`chain_of_ok`).
-/

namespace DeclBundle

structure Fragment where
  text : String
  events : List Event
  failure : Option Failure

namespace Fragment

def empty : Fragment := ⟨"", [], none⟩

def ofText (text : String) : Fragment := ⟨text, [], none⟩

def ofEvents (events : List Event) : Fragment := ⟨"", events, none⟩

def ofFailure (e : Failure) : Fragment := ⟨"", [], some e⟩

/-- A fragment and another one behind it, unless the first failed. -/
def followedBy (x y : Fragment) : Fragment :=
  match x.failure with
  | some _ => x
  | none => ⟨x.text ++ y.text, x.events ++ y.events, y.failure⟩

def chain {α : Type} (f : α → Fragment) : List α → Fragment
  | [] => empty
  | a :: as =>
    let x := f a
    match x.failure with
    | some _ => x
    | none => x.followedBy (chain f as)

@[simp] theorem chain_nil {α : Type} (f : α → Fragment) : chain f [] = empty := rfl

theorem chain_cons {α : Type} (f : α → Fragment) (a : α) (as : List α) :
    chain f (a :: as) = (f a).followedBy (chain f as) := by
  rw [chain]
  cases h : (f a).failure <;> simp [followedBy, h]

theorem followedBy_of_ok {x : Fragment} (h : x.failure = none) (y : Fragment) :
    x.followedBy y = ⟨x.text ++ y.text, x.events ++ y.events, y.failure⟩ := by
  simp [followedBy, h]

theorem followedBy_of_failure {x : Fragment} {e : Failure} (h : x.failure = some e) (y : Fragment) :
    x.followedBy y = x := by
  simp [followedBy, h]

/-- Where no piece fails, the texts and what is told follow each other in order. -/
theorem chain_of_ok {α : Type} (f : α → Fragment) (as : List α)
    (h : ∀ a ∈ as, (f a).failure = none) :
    chain f as = ⟨String.join (as.map fun a => (f a).text), as.flatMap fun a => (f a).events, none⟩ := by
  induction as with
  | nil => rfl
  | cons a as ih =>
    rw [chain_cons, followedBy_of_ok (h a (by simp)), ih fun b hb => h b (by simp [hb])]
    simp [String.join_cons]

theorem chain_of_failure {α : Type} (f : α → Fragment) (before : List α) (a : α) (behind : List α)
    {e : Failure} (h : (f a).failure = some e) (hb : ∀ b ∈ before, (f b).failure = none) :
    chain f (before ++ a :: behind) = (chain f before).followedBy (f a) := by
  induction before with
  | nil =>
    rw [List.nil_append, chain_cons, followedBy_of_failure h, chain_nil,
      followedBy_of_ok (by rfl)]
    simp [empty]
  | cons b before ih =>
    have hf := hb b (by simp)
    rw [List.cons_append, chain_cons, ih fun c hc => hb c (by simp [hc]), followedBy_of_ok hf,
      chain_cons]
    have hc := chain_of_ok f before fun c hc => hb c (by simp [hc])
    rw [hc, followedBy_of_ok hf, followedBy_of_ok rfl, followedBy_of_ok rfl]
    simp [String.append_assoc]

end Fragment

end DeclBundle
