import CodeIndex.Yaml.Token

/-! # Trees of YAML documents

The grammar of documents makes a tree of the tokens. Anchors are numbered: a new one gets the number
of names that are known so far, and an alias refers to the number that its name has at that place.
-/

namespace CodeIndex.Yaml

/-- What may stand before a node. -/
structure Properties where
  /-- The number of the anchor. -/
  anchor : Option Nat := none
  tag : Option String := none
deriving DecidableEq, Repr

inductive Tree where
  | scalar (props : Properties) (plain : Bool) (text : String)
  | sequence (props : Properties) (items : List Tree)
  | mapping (props : Properties) (entries : List (Tree × Tree))
  | alias (anchor : Nat)
deriving Repr, Inhabited

namespace Tree

/-- The empty scalar that stands for what is left out. -/
def missing : Tree := .scalar {} true ""

def props : Tree → Properties
  | .scalar props _ _ | .sequence props _ | .mapping props _ => props
  | .alias _ => {}

mutual

def events : Tree → Nat
  | .sequence _ items => eventsOfItems items + 2
  | .mapping _ entries => eventsOfEntries entries + 2
  | .scalar .. | .alias _ => 1

def eventsOfItems : List Tree → Nat
  | [] => 0
  | t :: ts => t.events + eventsOfItems ts

def eventsOfEntries : List (Tree × Tree) → Nat
  | [] => 0
  | (k, v) :: es => k.events + v.events + eventsOfEntries es

end

mutual

/-- The anchored nodes with the numbers of their anchors, a node before those in it. -/
def anchored : Tree → List (Nat × Tree)
  | .scalar props plain text => (props.anchor.toList.map fun n => (n, .scalar props plain text))
  | .sequence props items =>
    (props.anchor.toList.map fun n => (n, .sequence props items)) ++ anchoredItems items
  | .mapping props entries =>
    (props.anchor.toList.map fun n => (n, .mapping props entries)) ++ anchoredEntries entries
  | .alias _ => []

def anchoredItems : List Tree → List (Nat × Tree)
  | [] => []
  | t :: ts => t.anchored ++ anchoredItems ts

def anchoredEntries : List (Tree × Tree) → List (Nat × Tree)
  | [] => []
  | (k, v) :: es => k.anchored ++ v.anchored ++ anchoredEntries es

end

end Tree

/-! ## The grammar -/

/-- What is left to read of a document and what is known there. -/
structure Reading where
  tokens : List Token
  /-- What handles of tags stand for. -/
  handles : List (String × String) := []
  /-- The numbers of anchors, a later one of the same name first. -/
  anchors : List (String × Nat) := []

abbrev ReadM := StateT Reading (Except Problem)

namespace ReadM

def peek : ReadM (Option Token) := do
  return (← get).tokens.head?

def skip : ReadM Unit :=
  modify fun r => { r with tokens := r.tokens.drop 1 }

def fail : ReadM α := throw .badStructure

/-- Whether one of `ts` comes next; the end of the text is always among them. -/
def nextIs (ts : List Token) : ReadM Bool := do
  match ← peek with
  | none => return true
  | some t => return ts.contains t

def newAnchor (name : String) : ReadM Nat := do
  let n := ((← get).anchors.map (·.1)).eraseDups.length
  modify fun r => { r with anchors := (name, n) :: r.anchors }
  return n

def anchorOf (name : String) : ReadM Nat := do
  match (← get).anchors.lookup name with
  | some n => return n
  | none => throw .unknownAnchor

def tagOf (handle suffix : String) : ReadM String := do
  if handle.isEmpty then return suffix
  else
    match (← get).handles.lookup handle with
    | some expansion => return expansion ++ suffix
    | none => fail

/-- The anchor's name and the tag before a node, in either order. -/
def properties : ReadM (Option String × Option String) := do
  match ← peek with
  | some (.anchor name) =>
    skip
    match ← peek with
    | some (.tag handle suffix) =>
      skip
      return (some name, some (← tagOf handle suffix))
    | _ => return (some name, none)
  | some (.tag handle suffix) =>
    skip
    match ← peek with
    | some (.anchor name) =>
      skip
      return (some name, some (← tagOf handle suffix))
    | _ => return (none, some (← tagOf handle suffix))
  | _ => return (none, none)

/-- The kinds of lists that a node can be. -/
inductive Collection where
  | blockSequence
  /-- A sequence at the indentation of the mapping around it. -/
  | indentless
  | blockMapping
  | flowSequence
  | flowMapping

def collection? (inBlock indentless : Bool) : Option Token → Option Collection
  | some .blockEntry => if indentless then some .indentless else none
  | some .flowSequenceStart => some .flowSequence
  | some .flowMappingStart => some .flowMapping
  | some .blockSequenceStart => if inBlock then some .blockSequence else none
  | some .blockMappingStart => if inBlock then some .blockMapping else none
  | _ => none

mutual

/-- Reads a node. Every call takes a token or is made by one that has just taken one, and so three
times the number of tokens are fuel enough. -/
def node (fuel : Nat) (inBlock indentless : Bool) : ReadM Tree := do
  match fuel with
  | 0 => fail
  | fuel + 1 =>
    match ← peek with
    | some (.alias name) =>
      skip
      return .alias (← anchorOf name)
    | _ =>
      let (name, tag) ← properties
      let next ← peek
      match collection? inBlock indentless next, next with
      | some kind, _ =>
        let anchor ← name.mapM newAnchor
        let props : Properties := { anchor, tag }
        match kind with
        | .indentless => return .sequence props (← indentlessItems fuel)
        | .blockSequence =>
          skip
          return .sequence props (← blockItems fuel)
        | .flowSequence =>
          skip
          return .sequence props (← flowItems fuel true)
        | .blockMapping =>
          skip
          return .mapping props (← blockEntries fuel)
        | .flowMapping =>
          skip
          return .mapping props (← flowEntries fuel true)
      | none, some (.scalar plain text) =>
        skip
        let anchor ← name.mapM newAnchor
        return .scalar { anchor, tag } plain text
      | none, _ =>
        if name.isNone && tag.isNone then fail
        else
          let anchor ← name.mapM newAnchor
          return .scalar { anchor, tag } true ""

/-- Reads the items of a sequence in a block of its own. -/
def blockItems (fuel : Nat) : ReadM (List Tree) := do
  match fuel with
  | 0 => fail
  | fuel + 1 =>
    match ← peek with
    | some .blockEntry =>
      skip
      let item ←
        if ← nextIs [.blockEntry, .blockEnd] then pure Tree.missing else node fuel true false
      return item :: (← blockItems fuel)
    | some .blockEnd =>
      skip
      return []
    | _ => fail

/-- Reads the items of a sequence without a block of its own. -/
def indentlessItems (fuel : Nat) : ReadM (List Tree) := do
  match fuel with
  | 0 => fail
  | fuel + 1 =>
    match ← peek with
    | some .blockEntry =>
      skip
      let item ←
        if ← nextIs [.blockEntry, .key, .value, .blockEnd] then pure Tree.missing
        else node fuel true false
      return item :: (← indentlessItems fuel)
    | _ => return []

def blockEntries (fuel : Nat) : ReadM (List (Tree × Tree)) := do
  match fuel with
  | 0 => fail
  | fuel + 1 =>
    match ← peek with
    | some .key =>
      skip
      let k ← if ← nextIs [.key, .value, .blockEnd] then pure Tree.missing else node fuel true true
      let v ← blockValue fuel
      return (k, v) :: (← blockEntries fuel)
    | some .blockEnd =>
      skip
      return []
    | _ => fail

def blockValue (fuel : Nat) : ReadM Tree := do
  match fuel with
  | 0 => fail
  | fuel + 1 =>
    match ← peek with
    | some .value =>
      skip
      if ← nextIs [.key, .value, .blockEnd] then return Tree.missing else node fuel true true
    | _ => return Tree.missing

/-- Reads the items of a sequence in brackets; an item may be a mapping of a single entry. -/
def flowItems (fuel : Nat) (first : Bool) : ReadM (List Tree) := do
  match fuel with
  | 0 => fail
  | fuel + 1 =>
    match ← peek with
    | some .flowSequenceEnd =>
      skip
      return []
    | next =>
      if !first then
        if next == some .flowEntry then skip else fail
      match ← peek with
      | some .flowSequenceEnd =>
        skip
        return []
      | some .key =>
        skip
        let entry ← singleEntry fuel
        return .mapping {} [entry] :: (← flowItems fuel false)
      | _ =>
        let item ← node fuel false false
        return item :: (← flowItems fuel false)

/-- Reads the entry of a mapping without braces in a sequence. Where the key is left out, the token
behind its indicator is passed over. -/
def singleEntry (fuel : Nat) : ReadM (Tree × Tree) := do
  match fuel with
  | 0 => fail
  | fuel + 1 =>
    let k ←
      if ← nextIs [.value, .flowEntry, .flowSequenceEnd] then do
        skip
        pure Tree.missing
      else node fuel false false
    match ← peek with
    | some .value =>
      skip
      if ← nextIs [.flowEntry, .flowSequenceEnd] then return (k, Tree.missing)
      else return (k, ← node fuel false false)
    | _ => return (k, Tree.missing)

def flowEntries (fuel : Nat) (first : Bool) : ReadM (List (Tree × Tree)) := do
  match fuel with
  | 0 => fail
  | fuel + 1 =>
    match ← peek with
    | some .flowMappingEnd =>
      skip
      return []
    | next =>
      if !first then
        if next == some .flowEntry then skip else fail
      match ← peek with
      | some .flowMappingEnd =>
        skip
        return []
      | some .key =>
        skip
        let k ←
          if ← nextIs [.value, .flowEntry, .flowMappingEnd] then pure Tree.missing
          else node fuel false false
        let v ← flowValue fuel
        return (k, v) :: (← flowEntries fuel false)
      | _ =>
        let k ← node fuel false false
        return (k, Tree.missing) :: (← flowEntries fuel false)

def flowValue (fuel : Nat) : ReadM Tree := do
  match fuel with
  | 0 => fail
  | fuel + 1 =>
    match ← peek with
    | some .value =>
      skip
      if ← nextIs [.flowEntry, .flowMappingEnd] then return Tree.missing
      else node fuel false false
    | _ => return Tree.missing

end

/-- Reads the directives before a document, of which none may be given twice. -/
def directives (fuel : Nat) (version : Bool) : ReadM Unit := do
  match fuel with
  | 0 => fail
  | fuel + 1 =>
    match ← peek with
    | some (.version major minor) =>
      if version || major ≠ 1 || (minor ≠ 1 && minor ≠ 2) then fail
      skip
      directives fuel true
    | some (.handle name expansion) =>
      if ((← get).handles.lookup name).isSome then fail
      modify fun r => { r with handles := (name, expansion) :: r.handles }
      skip
      directives fuel version
    | _ => return ()

/-- What handles stand for unless a directive says otherwise. -/
def standardHandles : List (String × String) :=
  [("!", "!"), ("!!", "tag:yaml.org,2002:")]

def documentContent (fuel : Nat) : ReadM Tree := do
  match ← peek with
  | none | some (.version ..) | some (.handle ..) | some .documentStart | some .documentEnd =>
    return Tree.missing
  | _ => node fuel true false

/-- Reads the only document of a text. A text without any token is an empty document. -/
def document (fuel : Nat) : ReadM Tree := do
  match ← peek with
  | none => return Tree.missing
  | first =>
    directives fuel false
    modify fun r => { r with handles := r.handles ++ standardHandles }
    let announced := match first with
      | some (.version ..) | some (.handle ..) | some .documentStart => true
      | _ => false
    let tree ←
      if announced then do
        if (← peek) ≠ some .documentStart then fail
        skip
        documentContent fuel
      else node fuel true false
    modify fun r => { r with tokens := r.tokens.dropWhile (· == .documentEnd) }
    match ← peek with
    | none => return tree
    | some .documentStart => throw .severalDocuments
    | some _ => fail

end ReadM

namespace Tree

/-- The tree of the only document of a text. -/
def read (text : String) : Except Problem Tree := do
  let ts ← tokens text
  let (tree, _) ← (ReadM.document (3 * ts.length + 3)).run { tokens := ts }
  return tree

end Tree

end CodeIndex.Yaml
