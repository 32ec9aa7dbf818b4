import CodeIndex.Yaml.Scalar
import CodeIndex.Yaml.Tree

/-! # Reading YAML values

Aliases are replaced by what they refer to, tags are applied, and plain scalars are resolved. A
limit on the depth of collections keeps those that hold themselves from being unrolled, and a limit
on the number of aliases keeps those that repeat each other from growing without bound.
-/

namespace CodeIndex.Yaml

/-- The greatest depth to which collections may be nested. -/
def maxDepth : Nat := 128

/-- The number of aliases that may be followed for each event of a document. -/
def aliasesPerEvent : Nat := 100

/-- What aliases refer to, and how many of them may still be followed. -/
structure Composition where
  anchored : List (Nat × Tree)
  left : Nat

abbrev ComposeM := StateT Composition (Except Problem)

namespace ComposeM

/-- The node that a tree stands for, which is no alias. -/
def resolve : Tree → ComposeM Tree
  | .alias n => do
    let c ← get
    if c.left = 0 then throw .tooManyAliases
    set { c with left := c.left - 1 }
    match (c.anchored.filter fun (m, _) => m == n).getLast? with
    | some (_, t) => return t
    | none => throw .unknownAnchor
  | t => return t

/-- The name of a tag of the document's own, which begins with an exclamation mark. -/
def ownTag? (tag : Option String) : Option String :=
  tag.bind fun t =>
    match t.toList with
    | '!' :: name => some (String.ofList name)
    | _ => none

def withTag (tag : Option String) (v : Value) : Value :=
  match ownTag? tag with
  | none => v
  | some name => .tagged name v

/-- The value of a scalar. A standard tag asks for a value of its type. -/
def scalar (tag : Option String) (plain : Bool) (text : String) : Except Problem Value :=
  match tag with
  | none => if plain then Scalar.plainValue text else .ok (.string text)
  | some "tag:yaml.org,2002:bool" =>
    match Scalar.bool? text with
    | some b => .ok (.bool b)
    | none => .error .badTag
  | some "tag:yaml.org,2002:int" =>
    match Scalar.integer? text with
    | some result => result
    | none => .error .badTag
  | some "tag:yaml.org,2002:float" =>
    match Scalar.float? text with
    | some x => .ok (.number (.float x))
    | none => .error .badTag
  | some "tag:yaml.org,2002:null" => if Scalar.isNull text then .ok .null else .error .badTag
  | some tag =>
    if (ownTag? (some tag)).isSome && plain then Scalar.plainValue text else .ok (.string text)

/-- Adds an entry behind those in `entries`, which are in reverse. -/
def addEntry (entries : List (Value × Value)) (k v : Value) :
    Except Problem (List (Value × Value)) :=
  if entries.any fun (k', _) => k'.same k then .error .duplicateKey else .ok ((k, v) :: entries)

/-- The value of a tree, where `depth` more levels of collections are allowed. -/
def value (depth : Nat) (t : Tree) : ComposeM Value := do
  match ← resolve t with
  | .scalar props plain text => return withTag props.tag (← scalar props.tag plain text)
  | .sequence props items =>
    match depth with
    | 0 => throw .tooDeep
    | depth + 1 => do
      let items ← items.mapM fun item => value depth item
      return withTag props.tag (.sequence items)
  | .mapping props entries =>
    match depth with
    | 0 => throw .tooDeep
    | depth + 1 => do
      let entries ← entries.foldlM (fun done (k, v) => do
        let k ← value depth k
        addEntry done k (← value depth v)) []
      return withTag props.tag (.mapping entries.reverse)
  | .alias _ => throw .unknownAnchor

end ComposeM

namespace Value

/-- The value of the only document of a text. -/
def read (text : String) : Except Problem Value := do
  let tree ← Tree.read text
  let (v, _) ← (ComposeM.value maxDepth tree).run
    { anchored := tree.anchored, left := aliasesPerEvent * tree.events }
  return v

end Value

end CodeIndex.Yaml
