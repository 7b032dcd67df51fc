import LintInference.Yaml.Token

/-!
# Nodes of YAML

`Node.ofTokens?` reads the tokens of a text as its only document. A text without a document has an empty scalar for one.
An alias becomes the node that it stands for; an alias inside of that node has no value.
-/

namespace LintInference.Yaml

/-- What a document holds. -/
inductive Node where
  | scalar (tag : Option String) (style : Style) (text : String)
  | sequence (items : List Node)
  | mapping (entries : List (Node × Node))
  /-- An alias for a node that it is a part of. -/
  | endless
  deriving Repr

namespace Node

instance : Inhabited Node := ⟨.endless⟩

/-- The scalar that stands where nothing is written. -/
def empty : Node := .scalar none .plain ""

/-- What is known while a document is read. -/
structure State where
  tokens : List Token
  /-- The anchors in order, with their nodes if those are complete. -/
  anchors : List (String × Option Node) := []
  /-- What the handles of tags stand for. -/
  handles : List (String × String) := []

/-- Reads something. -/
abbrev Reading (α : Type) := State → Option (α × State)

/-- Steps over a token. -/
def State.past (s : State) : State := { s with tokens := s.tokens.drop 1 }

/-- Is one of the tokens next, or are there no more? -/
def State.isAt (s : State) (ts : List Token) : Bool :=
  match s.tokens with
  | [] => true
  | t :: _ => ts.contains t

/-- The node of the latest anchor of a name. -/
def State.anchored? (s : State) (name : String) : Option (Option Node) :=
  (s.anchors.reverse.find? (·.1 = name)).map (·.2)

/-- Notes an anchor whose node begins here. -/
def State.openAnchor (s : State) : Option String → State
  | none => s
  | some name => { s with anchors := s.anchors ++ [(name, none)] }

/-- Notes the node of the anchor at a place. -/
def State.closeAnchor (s : State) (place : Nat) (node : Node) : Option String → State
  | none => s
  | some name => { s with anchors := s.anchors.set place (name, some node) }

/-- The tag that a handle and a suffix make. -/
def State.tagOf? (s : State) (handle suffix : String) : Option String :=
  if handle = "" then some suffix else (s.handles.lookup handle).map (· ++ suffix)

/-- Reads the anchor and the tag in front of a node, in either order. -/
def properties : Reading (Option String × Option String) := fun s => do
  match s.tokens with
  | .anchor name :: .tag handle suffix :: _ =>
    some ((some name, some (← s.tagOf? handle suffix)), s.past.past)
  | .tag handle suffix :: .anchor name :: _ =>
    some ((some name, some (← s.tagOf? handle suffix)), s.past.past)
  | .anchor name :: _ => some ((some name, none), s.past)
  | .tag handle suffix :: _ => some ((none, some (← s.tagOf? handle suffix)), s.past)
  | _ => some ((none, none), s)

mutual

/-- Reads a node. In a block it may be a block itself, and after a key a list without indentation. -/
def node : Nat → Bool → Bool → Reading Node
  | 0, _, _, _ => none
  | n + 1, block, unindented, s =>
    match s.tokens with
    | .alias name :: _ => (s.anchored? name).map fun found => (found.getD .endless, s.past)
    | _ => do
      let place := s.anchors.length
      let ((anchor, tag), s) ← properties s
      let hasProperties := anchor.isSome || tag.isSome
      let s := s.openAnchor anchor
      let (found, s) ←
        match s.tokens with
        | .scalar style text :: _ =>
          some (Node.scalar (if tag = some "!" then none else tag) style text, s.past)
        | .blockEntry :: _ =>
          if unindented then (unindentedItems n s).map fun (vs, s) => (.sequence vs, s)
          else if hasProperties then some (.scalar tag .plain "", s)
          else none
        | .flowSequenceStart :: _ => (flowItems n true s.past).map fun (vs, s) => (.sequence vs, s)
        | .flowMappingStart :: _ => (flowEntries n true s.past).map fun (es, s) => (.mapping es, s)
        | .blockSequenceStart :: _ =>
          if block then (blockItems n s.past).map fun (vs, s) => (.sequence vs, s)
          else if hasProperties then some (.scalar tag .plain "", s)
          else none
        | .blockMappingStart :: _ =>
          if block then (blockEntries n s.past).map fun (es, s) => (.mapping es, s)
          else if hasProperties then some (.scalar tag .plain "", s)
          else none
        | _ => if hasProperties then some (.scalar tag .plain "", s) else none
      some (found, s.closeAnchor place found anchor)

/-- Reads a node, or an empty one if one of the tokens is next. -/
def nodeUnless : Nat → List Token → Bool → Bool → Reading Node
  | 0, _, _, _, _ => none
  | n + 1, ends, block, unindented, s => if s.isAt ends then some (empty, s) else node n block unindented s

/-- Reads the items of an indented list. -/
def blockItems : Nat → Reading (List Node)
  | 0, _ => none
  | n + 1, s =>
    match s.tokens with
    | .blockEntry :: _ => do
      let (v, s) ← nodeUnless n [.blockEntry, .blockEnd] true false s.past
      let (vs, s) ← blockItems n s
      some (v :: vs, s)
    | .blockEnd :: _ => some ([], s.past)
    | _ => none

/-- Reads the items of a list without indentation. -/
def unindentedItems : Nat → Reading (List Node)
  | 0, _ => none
  | n + 1, s =>
    match s.tokens with
    | .blockEntry :: _ => do
      let (v, s) ← nodeUnless n [.blockEntry, .key, .value, .blockEnd] true false s.past
      let (vs, s) ← unindentedItems n s
      some (v :: vs, s)
    | _ => some ([], s)

/-- Reads the entries of an indented mapping. -/
def blockEntries : Nat → Reading (List (Node × Node))
  | 0, _ => none
  | n + 1, s =>
    match s.tokens with
    | .key :: _ => do
      let (k, s) ← nodeUnless n [.key, .value, .blockEnd] true true s.past
      let (v, s) ← mappingValue n [.key, .value, .blockEnd] true s
      let (es, s) ← blockEntries n s
      some ((k, v) :: es, s)
    | .blockEnd :: _ => some ([], s.past)
    | _ => none

/-- Reads the value of an entry, which may be missing. -/
def mappingValue : Nat → List Token → Bool → Reading Node
  | 0, _, _, _ => none
  | n + 1, ends, block, s =>
    match s.tokens with
    | .value :: _ => nodeUnless n ends block block s.past
    | _ => some (empty, s)

/-- Reads the items of a list in brackets. -/
def flowItems : Nat → Bool → Reading (List Node)
  | 0, _, _ => none
  | n + 1, first, s =>
    match s.tokens with
    | .flowSequenceEnd :: _ => some ([], s.past)
    | _ => do
      let s ←
        if first then some s
        else match s.tokens with
          | .flowEntry :: _ => some s.past
          | _ => none
      match s.tokens with
      | .flowSequenceEnd :: _ => some ([], s.past)
      | .key :: _ => do
        let s := s.past
        let (k, s) ←
          if s.isAt [.value, .flowEntry, .flowSequenceEnd] then some (empty, s.past) else node n false false s
        let (v, s) ← mappingValue n [.flowEntry, .flowSequenceEnd] false s
        let (vs, s) ← flowItems n false s
        some (.mapping [(k, v)] :: vs, s)
      | _ => do
        let (v, s) ← node n false false s
        let (vs, s) ← flowItems n false s
        some (v :: vs, s)

/-- Reads the entries of a mapping in braces. -/
def flowEntries : Nat → Bool → Reading (List (Node × Node))
  | 0, _, _ => none
  | n + 1, first, s =>
    match s.tokens with
    | .flowMappingEnd :: _ => some ([], s.past)
    | _ => do
      let s ←
        if first then some s
        else match s.tokens with
          | .flowEntry :: _ => some s.past
          | _ => none
      match s.tokens with
      | .flowMappingEnd :: _ => some ([], s.past)
      | .key :: _ => do
        let (k, s) ← nodeUnless n [.value, .flowEntry, .flowMappingEnd] false false s.past
        let (v, s) ← mappingValue n [.flowEntry, .flowMappingEnd] false s
        let (es, s) ← flowEntries n false s
        some ((k, v) :: es, s)
      | _ => do
        let (k, s) ← node n false false s
        let (es, s) ← flowEntries n false s
        some ((k, empty) :: es, s)

end

/-! ## Documents -/

/-- The handles that every document knows. -/
def knownHandles : List (String × String) := [("!", "!"), ("!!", "tag:yaml.org,2002:")]

/-- Reads the directives of a document. A handle may be given once, and so may the version, which is 1.1 or 1.2. -/
def directives : Bool → List (String × String) → List Token → Option (List (String × String) × List Token)
  | _, handles, [] => some (handles, [])
  | versioned, handles, t :: ts =>
    match t with
    | .version major minor =>
      if versioned || major ≠ 1 || (minor ≠ 1 && minor ≠ 2) then none else directives true handles ts
    | .tagDirective handle expansion =>
      if (handles.lookup handle).isSome then none else directives versioned (handles ++ [(handle, expansion)]) ts
    | t => some (handles, t :: ts)

/-- Is it a token of a directive? -/
def isDirective : Token → Bool
  | .version _ _ => true
  | .tagDirective _ _ => true
  | _ => false

/-- What the tokens begin with: the handles of the document and its content. -/
def opening (tokens : List Token) : Option (List (String × String) × List Token) :=
  match tokens with
  | [] => some ([], [])
  | t :: _ =>
    if isDirective t || t == .documentStart then do
      let (handles, ts) ← directives false [] tokens
      match ts with
      | .documentStart :: ts => some (handles, ts)
      | _ => none
    else some ([], tokens)

/-- Does a document have no content here? -/
def isVacant : List Token → Bool
  | [] => true
  | t :: _ => isDirective t || t == .documentStart || t == .documentEnd

/-- The only document of a text. -/
def ofTokens? (tokens : List Token) : Option Node := do
  let (handles, content) ← opening tokens
  let s : State := { tokens := content, handles := handles ++ knownHandles }
  let (found, s) ← if isVacant content then some (empty, s) else node (4 * content.length + 4) true false s
  if s.tokens.all (· == .documentEnd) then some found else none

/-- The only document of a text. -/
def read (text : String) : Option Node := (Token.scan text).bind ofTokens?

end Node

end LintInference.Yaml
