import DeclBundle.Text.Encoding
import DeclBundle.Text.Line
import DeclBundle.Yaml.Plain
import DeclBundle.Yaml.Reader
import DeclBundle.Yaml.Token

/-!
# Simple documents

`Node.ofTokens` puts the tokens of a text together into a tree, which tells scalars with quotes from
plain ones; where a part is missing it is the plain empty scalar. `Node.value` is the value that the tree
stands for: of two keys that are the same the later counts, in the place of the earlier, and a list or a
map cannot be a key.

`simpleReader` does both. It is the reader that the program has here, and it knows no more of YAML than
options files need: blocks and brackets, plain and quoted scalars and dates, but neither tags, anchors and
merged keys nor scalars that keep their lines. What is said of options files is said of every reader.
-/

namespace DeclBundle.Yaml

inductive Node where
  | scalar (text : String) (plain : Bool)
  | list (items : List Node)
  | map (entries : List (Node × Node))
deriving Inhabited

/-- A reading of a part: its result and the rest of the tokens. -/
abbrev Reading (α : Type) := Except Fault (α × List Token)

namespace Node

def missing : Node := scalar "" true

/-- Whether tokens begin with one of some, or have come to an end. -/
def ahead (stops : List Token) (ts : List Token) : Bool :=
  match ts with
  | [] => true
  | t :: _ => stops.contains t

mutual

/-- A part: in a block or between brackets, and where the items of a list may stand without a block. -/
def part (block bare : Bool) : Nat → List Token → Reading Node
  | 0, _ => .error .misplaced
  | fuel + 1, ts =>
    match ts with
    | .scalar text plain :: rest => .ok (.scalar text plain, rest)
    | .reference :: _ => .error .unknownAlias
    | .openList :: rest => (flowItems true fuel rest).map fun r => (.list r.1, r.2)
    | .openMap :: rest => (flowEntries true fuel rest).map fun r => (.map r.1, r.2)
    | .listStart :: rest =>
      if block then (blockItems fuel rest).map fun r => (.list r.1, r.2) else .error .misplaced
    | .mapStart :: rest =>
      if block then (blockEntries fuel rest).map fun r => (.map r.1, r.2) else .error .misplaced
    | .entry :: _ =>
      if bare then (bareItems fuel ts).map fun r => (.list r.1, r.2) else .error .misplaced
    | _ => .error .misplaced

def partBefore (stops : List Token) (block bare : Bool) : Nat → List Token → Reading Node
  | 0, _ => .error .misplaced
  | fuel + 1, ts => if ahead stops ts then .ok (missing, ts) else part block bare fuel ts

def blockItems : Nat → List Token → Reading (List Node)
  | 0, _ => .error .misplaced
  | fuel + 1, ts =>
    match ts with
    | .blockEnd :: rest => .ok ([], rest)
    | .entry :: rest =>
      match partBefore [.entry, .blockEnd] true false fuel rest with
      | .error e => .error e
      | .ok (item, rest) => (blockItems fuel rest).map fun r => (item :: r.1, r.2)
    | _ => .error .misplaced

def bareItems : Nat → List Token → Reading (List Node)
  | 0, _ => .error .misplaced
  | fuel + 1, ts =>
    match ts with
    | .entry :: rest =>
      match partBefore [.entry, .key, .value, .blockEnd] true false fuel rest with
      | .error e => .error e
      | .ok (item, rest) => (bareItems fuel rest).map fun r => (item :: r.1, r.2)
    | _ => .ok ([], ts)

def valueBefore (stops : List Token) (block bare : Bool) : Nat → List Token → Reading Node
  | 0, _ => .error .misplaced
  | fuel + 1, ts =>
    match ts with
    | .value :: rest => partBefore stops block bare fuel rest
    | _ => .ok (missing, ts)

def blockEntries : Nat → List Token → Reading (List (Node × Node))
  | 0, _ => .error .misplaced
  | fuel + 1, ts =>
    match ts with
    | .blockEnd :: rest => .ok ([], rest)
    | .key :: rest =>
      match partBefore [.key, .value, .blockEnd] true true fuel rest with
      | .error e => .error e
      | .ok (k, rest) =>
        match valueBefore [.key, .value, .blockEnd] true true fuel rest with
        | .error e => .error e
        | .ok (v, rest) => (blockEntries fuel rest).map fun r => ((k, v) :: r.1, r.2)
    | _ => .error .misplaced

/-- The items between square brackets; an item with a key is a map of its own. -/
def flowItems (first : Bool) : Nat → List Token → Reading (List Node)
  | 0, _ => .error .misplaced
  | fuel + 1, ts =>
    match ts with
    | .closeList :: rest => .ok ([], rest)
    | _ =>
      match separated first ts with
      | none => .error .misplaced
      | some (.closeList :: rest) => .ok ([], rest)
      | some (.key :: rest) =>
        match partBefore [.value, .comma, .closeList] false false fuel rest with
        | .error e => .error e
        | .ok (k, rest) =>
          match valueBefore [.comma, .closeList] false false fuel rest with
          | .error e => .error e
          | .ok (v, rest) => (flowItems false fuel rest).map fun r => (.map [(k, v)] :: r.1, r.2)
      | some ts =>
        match part false false fuel ts with
        | .error e => .error e
        | .ok (item, rest) => (flowItems false fuel rest).map fun r => (item :: r.1, r.2)

/-- The keys between curly brackets; a value without a key is a key without a value. -/
def flowEntries (first : Bool) : Nat → List Token → Reading (List (Node × Node))
  | 0, _ => .error .misplaced
  | fuel + 1, ts =>
    match ts with
    | .closeMap :: rest => .ok ([], rest)
    | _ =>
      match separated first ts with
      | none => .error .misplaced
      | some (.closeMap :: rest) => .ok ([], rest)
      | some (.key :: rest) =>
        match partBefore [.value, .comma, .closeMap] false false fuel rest with
        | .error e => .error e
        | .ok (k, rest) =>
          match valueBefore [.comma, .closeMap] false false fuel rest with
          | .error e => .error e
          | .ok (v, rest) => (flowEntries false fuel rest).map fun r => ((k, v) :: r.1, r.2)
      | some ts =>
        match part false false fuel ts with
        | .error e => .error e
        | .ok (k, rest) => (flowEntries false fuel rest).map fun r => ((k, missing) :: r.1, r.2)

/-- The tokens behind the comma that stands before every member but the first. -/
def separated (first : Bool) (ts : List Token) : Option (List Token) :=
  if first then some ts
  else
    match ts with
    | .comma :: rest => some rest
    | _ => none

end

/-- The tree of the only document, nothing standing for no document. -/
def ofTokens (ts : List Token) : Except Fault Node :=
  let body :=
    match ts with
    | .documentStart :: rest =>
      partBefore [.documentStart, .documentEnd] true false (4 * ts.length + 4) rest
    | [] => .ok (missing, [])
    | _ => part true false (4 * ts.length + 4) ts
  match body with
  | .error e => .error e
  | .ok (n, rest) =>
    match rest.dropWhile (· == .documentEnd) with
    | [] => .ok n
    | .documentStart :: _ => .error .manyDocuments
    | _ => .error .misplaced

mutual

def value : Node → Except Stop Value
  | scalar text isPlain => if isPlain then plain text else .ok (.text text)
  | list ns => (values ns).map .list
  | map es => (entryValues es).map fun es => .map (Record.ofEntries es)

def values : List Node → Except Stop (List Value)
  | [] => .ok []
  | n :: ns =>
    match value n with
    | .error e => .error e
    | .ok v => (values ns).map (v :: ·)

def entryValues : List (Node × Node) → Except Stop (List (Value × Value))
  | [] => .ok []
  | (k, n) :: es =>
    match value k with
    | .error e => .error e
    | .ok key =>
      if key.isScalar then
        match value n with
        | .error e => .error e
        | .ok v => (entryValues es).map ((key, v) :: ·)
      else .error (.fault .badKey)

end

end Node

def read (text : String) : Except Stop Value :=
  match (Token.scan text.toList).bind Node.ofTokens with
  | .error f => .error (.fault f)
  | .ok n => n.value

/-- The value of a simple document, every line end of which counts as a line feed. -/
def readBytes (bytes : ByteArray) : Except Refusal Value :=
  match Text.decode? bytes with
  | none => .error (.failure .undecodable)
  | some text =>
    match read (String.ofList (Text.unifyLineEnds text.toList)) with
    | .ok v => .ok v
    | .error (.fault f) => .error (.fault f.message)
    | .error (.badValue b) => .error (.failure (.badValue b))

theorem failure_of_readBytes {bytes : ByteArray} {e : Failure} (h : readBytes bytes = .error (.failure e)) :
    e = .undecodable ∨ ∃ b, e = .badValue b := by
  unfold readBytes at h
  split at h
  · cases h
    exact .inl rfl
  · split at h <;> cases h
    exact .inr ⟨_, rfl⟩

/-- The reader of simple documents. -/
def simpleReader : Reader where
  read _ := readBytes
  not_configuration h := by
    rcases failure_of_readBytes h with rfl | ⟨b, rfl⟩ <;> nofun
  not_system h := by
    rcases failure_of_readBytes h with rfl | ⟨b, rfl⟩ <;> nofun
  read_renamed h _ := h

end DeclBundle.Yaml
