import ContractBuild.Yaml.Token

/-!
Nodes of a YAML document: scalars, sequences and mappings. Aliases stand for the node they name.
-/

namespace ContractBuild.Yaml

inductive Node where
  | scalar (text : String) (plain : Bool)
  | seq (items : List Node)
  | map (pairs : List (Node × Node))

namespace Node

/-- The node of a place where nothing is written. -/
def empty : Node := .scalar "" true

abbrev Anchors := List (String × Node)

/-- A node read off the front of the tokens, the anchors known after it, and the tokens left. -/
abbrev Read (α : Type) := Option (α × Anchors × List Token)

/-- Whether no node can start with the token that comes next. -/
def stops (enders : List Token) (ts : List Token) : Bool :=
  match ts with
  | [] => true
  | t :: _ => t ∈ enders

/-- An anchor and a tag in front of a node, in any order. -/
def properties : List Token → Option String × Bool × List Token
  | .anchor a :: .tag :: r => (some a, true, r)
  | .anchor a :: r => (some a, true, r)
  | .tag :: .anchor a :: r => (some a, true, r)
  | .tag :: r => (none, true, r)
  | r => (none, false, r)

mutual

/-- Reads one node. Block collections are admitted only where `inBlock` says so, and a sequence
without indentation of its own only as the key or value of a block mapping. -/
def read (fuel : Nat) (inBlock indentless : Bool) (anchors : Anchors) (ts : List Token) : Read Node :=
  match fuel with
  | 0 => none
  | fuel + 1 =>
    match ts with
    | .alias a :: r => (anchors.lookup a).map fun n => (n, anchors, r)
    | ts =>
      let (name, hasProperties, ts) := properties ts
      let content : Read Node :=
        match ts with
        | .blockEntry :: _ =>
          if indentless then
            (readEntries fuel false anchors ts).map fun q => (.seq q.1, q.2)
          else if hasProperties then some (empty, anchors, ts) else none
        | .scalar text isPlain :: r => some (.scalar text isPlain, anchors, r)
        | .flowSequence :: r =>
          (readFlowItems fuel true anchors r).map fun q => (.seq q.1, q.2)
        | .flowMapping :: r =>
          (readFlowPairs fuel true anchors r).map fun q => (.map q.1, q.2)
        | .blockSequence :: r =>
          if inBlock then (readEntries fuel true anchors r).map fun q => (.seq q.1, q.2)
          else if hasProperties then some (empty, anchors, ts) else none
        | .blockMapping :: r =>
          if inBlock then (readPairs fuel anchors r).map fun q => (.map q.1, q.2)
          else if hasProperties then some (empty, anchors, ts) else none
        | ts => if hasProperties then some (empty, anchors, ts) else none
      match name, content with
      | some a, some (n, anchors, ts) => some (n, (a, n) :: anchors, ts)
      | _, content => content

/-- The items of a block sequence. Only an indented one has an end of its own. -/
def readEntries (fuel : Nat) (indented : Bool) (anchors : Anchors) (ts : List Token) :
    Read (List Node) :=
  match fuel with
  | 0 => none
  | fuel + 1 =>
    match ts with
    | .blockEntry :: r =>
      let enders := if indented then [.blockEntry, .blockEnd]
        else [.blockEntry, .key, .value, .blockEnd]
      let item := if stops enders r then some (empty, anchors, r) else read fuel true false anchors r
      match item with
      | none => none
      | some (n, anchors, r) =>
        (readEntries fuel indented anchors r).map fun q => (n :: q.1, q.2)
    | ts =>
      if !indented then some ([], anchors, ts)
      else match ts with
        | .blockEnd :: r => some ([], anchors, r)
        | _ => none

/-- The pairs of a block mapping. -/
def readPairs (fuel : Nat) (anchors : Anchors) (ts : List Token) : Read (List (Node × Node)) :=
  match fuel with
  | 0 => none
  | fuel + 1 =>
    let enders := [Token.key, .value, .blockEnd]
    let node (anchors : Anchors) (r : List Token) : Read Node :=
      if stops enders r then some (empty, anchors, r) else read fuel true true anchors r
    match ts with
    | .blockEnd :: r => some ([], anchors, r)
    | .key :: r =>
      match node anchors r with
      | none => none
      | some (k, anchors, r) =>
        let value := match r with
          | .value :: r => node anchors r
          | r => some (empty, anchors, r)
        match value with
        | none => none
        | some (v, anchors, r) => (readPairs fuel anchors r).map fun q => ((k, v) :: q.1, q.2)
    | _ => none

/-- The items of a flow sequence; a pair among them is a mapping of its own. -/
def readFlowItems (fuel : Nat) (first : Bool) (anchors : Anchors) (ts : List Token) :
    Read (List Node) :=
  match fuel with
  | 0 => none
  | fuel + 1 =>
    let enders := [Token.flowEntry, .flowSequenceEnd]
    let afterComma := if first then some ts else
      match ts with
      | .flowEntry :: r => some r
      | .flowSequenceEnd :: _ => some ts
      | _ => none
    match afterComma with
    | none => none
    | some (.flowSequenceEnd :: r) => some ([], anchors, r)
    | some (.key :: r) =>
      let key := if stops (.value :: enders) r then some (empty, anchors, r)
        else read fuel false false anchors r
      match key with
      | none => none
      | some (k, anchors, r) =>
        let value := match r with
          | .value :: r =>
            if stops enders r then some (empty, anchors, r) else read fuel false false anchors r
          | r => some (empty, anchors, r)
        match value with
        | none => none
        | some (v, anchors, r) =>
          (readFlowItems fuel false anchors r).map fun q => (.map [(k, v)] :: q.1, q.2)
    | some r =>
      match read fuel false false anchors r with
      | none => none
      | some (n, anchors, r) => (readFlowItems fuel false anchors r).map fun q => (n :: q.1, q.2)

/-- The pairs of a flow mapping; a lone node is a key without a value. -/
def readFlowPairs (fuel : Nat) (first : Bool) (anchors : Anchors) (ts : List Token) :
    Read (List (Node × Node)) :=
  match fuel with
  | 0 => none
  | fuel + 1 =>
    let enders := [Token.flowEntry, .flowMappingEnd]
    let afterComma := if first then some ts else
      match ts with
      | .flowEntry :: r => some r
      | .flowMappingEnd :: _ => some ts
      | _ => none
    match afterComma with
    | none => none
    | some (.flowMappingEnd :: r) => some ([], anchors, r)
    | some (.key :: r) =>
      let key := if stops (.value :: enders) r then some (empty, anchors, r)
        else read fuel false false anchors r
      match key with
      | none => none
      | some (k, anchors, r) =>
        let value := match r with
          | .value :: r =>
            if stops enders r then some (empty, anchors, r) else read fuel false false anchors r
          | r => some (empty, anchors, r)
        match value with
        | none => none
        | some (v, anchors, r) =>
          (readFlowPairs fuel false anchors r).map fun q => ((k, v) :: q.1, q.2)
    | some r =>
      match read fuel false false anchors r with
      | none => none
      | some (k, anchors, r) =>
        (readFlowPairs fuel false anchors r).map fun q => ((k, empty) :: q.1, q.2)

end

/-- The only document of a stream: optional markers around one node. -/
def document? (ts : List Token) : Option Node :=
  let body := match ts with
    | .documentStart :: r => r
    | r => r
  let node := if stops [.documentStart, .documentEnd] body then some (empty, [], body)
    else read (2 * ts.length + 2) true false [] body
  match node with
  | none => none
  | some (n, _, r) => if r.all (· = .documentEnd) then some n else none

/-- The node that a text holds. -/
def parse? (text : String) : Option Node :=
  match tokens? text.toList with
  | some ts => document? ts
  | none => none

end Node

end ContractBuild.Yaml
