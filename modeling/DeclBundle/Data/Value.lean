/-!
# Values of settings

Settings and options are read from documents whose values have any shape. `Value` is such a value; its
maps keep the order in which their keys came. JSON has no `Foreign` values, such as dates; of these only
that is known which the program asks of a value. A `Record` is the content of a map: `put` replaces the
value of a key where it stands and adds a new key at the end, `get?` finds a value by its text key,
`without` drops keys. Two keys are the same if they are equal as numbers, truth values counting as one
and zero, or equal as texts; records are put together of foreign keys only where these differ.
-/

namespace DeclBundle

/-- A value of a kind that has no form in JSON: its text inside another value and on its own, whether it
counts as given, and its items if it can be taken apart. -/
structure Foreign (α : Type) where
  shown : String
  display : String
  isGiven : Bool
  items? : Option (List α)

inductive Value where
  | null
  | bool (b : Bool)
  | int (n : Int)
  | float (x : Float)
  | text (s : String)
  | list (items : List Value)
  /-- Keys with their values, in the order of their first appearance. -/
  | map (entries : List (Value × Value))
  | other (x : Foreign Value)
deriving Inhabited

abbrev Record := List (Value × Value)

namespace Value

/-- Whether a value counts as given: not null, false, zero or empty. -/
def isTruthy : Value → Bool
  | null => false
  | bool b => b
  | int n => n != 0
  | float x => x != 0
  | text s => !s.isEmpty
  | list xs => !xs.isEmpty
  | map es => !es.isEmpty
  | other x => x.isGiven

def text? : Value → Option String
  | text s => some s
  | _ => none

def isSameKey : Value → Value → Bool
  | null, null => true
  | text s, text t => s == t
  | bool a, bool b => a == b
  | int m, int n => m == n
  | float x, float y => x == y
  | bool a, int n => (if a then 1 else 0) == n
  | int n, bool a => (if a then 1 else 0) == n
  | bool a, float x => (if a then 1 else 0) == x
  | float x, bool a => (if a then 1 else 0) == x
  | int n, float x => Float.ofInt n == x
  | float x, int n => Float.ofInt n == x
  | _, _ => false

def isScalar : Value → Bool
  | list _ => false
  | map _ => false
  | _ => true

@[simp] theorem isSameKey_text (s t : String) : isSameKey (text s) (text t) = (s == t) := by
  simp [isSameKey]

end Value

namespace Record

def get? : Record → String → Option Value
  | [], _ => none
  | (k, v) :: r, key => if k.isSameKey (.text key) then some v else get? r key

/-- The record with a value for a key: in its old place if the key is there, else at the end. -/
def put : Record → Value → Value → Record
  | [], key, value => [(key, value)]
  | (k, v) :: r, key, value =>
    if k.isSameKey key then (k, value) :: r else (k, v) :: put r key value

def without (r : Record) (drop : Value → Bool) : Record := r.filter fun e => !drop e.1

/-- The record of some entries, where of two entries with one key the later value counts. -/
def ofEntries (es : List (Value × Value)) : Record :=
  es.foldl (fun r e => put r e.1 e.2) []

def keys (r : Record) : List Value := r.map Prod.fst

@[simp] theorem get?_nil (key : String) : get? [] key = none := rfl

theorem get?_put_self (r : Record) (key : String) (value : Value) :
    get? (put r (.text key) value) key = some value := by
  induction r with
  | nil => simp [put, get?]
  | cons e r ih =>
    obtain ⟨k, v⟩ := e
    by_cases h : k.isSameKey (.text key) = true
    · simp [put, get?, h]
    · simp [put, get?, h, ih]

theorem isSameKey_text_iff (k : Value) (s : String) :
    k.isSameKey (.text s) = true ↔ k = .text s := by
  cases k <;> simp [Value.isSameKey]

theorem get?_put_of_ne {key other : String} (hne : other ≠ key) (r : Record) (value : Value) :
    get? (put r (.text key) value) other = get? r other := by
  induction r with
  | nil => simp [put, get?, Ne.symm hne]
  | cons e r ih =>
    obtain ⟨k, v⟩ := e
    by_cases h : k.isSameKey (.text key) = true
    · have hk := (isSameKey_text_iff k key).1 h
      subst hk
      simp [put, get?, Ne.symm hne]
    · by_cases h2 : k.isSameKey (.text other) = true
      · simp [put, get?, h, h2]
      · simp [put, get?, h, h2, ih]

theorem get?_without_of_not {drop : Value → Bool} {key : String} (h : drop (.text key) = false) (r : Record) :
    get? (without r drop) key = get? r key := by
  rw [without]
  induction r with
  | nil => rfl
  | cons e r ih =>
      obtain ⟨k, v⟩ := e
      rw [List.filter_cons, get?]
      by_cases hk : k.isSameKey (.text key) = true
      · obtain rfl := (isSameKey_text_iff k key).1 hk
        simp [h, get?]
      · rw [if_neg hk, ← ih]
        split
        · rw [get?, if_neg hk]
        · rfl

end Record

end DeclBundle
