import CodeIndex.Json.Event
import CodeIndex.Tree.Json

/-! # Reading trees from JSON texts

The events of a text are followed with a stack of the places that are still open, so that trees
of any depth can be read. The first problem in reading order decides: a value of the wrong type is
refused as soon as it is known, a missing field at the end of its object, and ignored values only
have to be JSON.
-/

namespace CodeIndex

open Json (Problem Event Numeral readString readNumber)

namespace Node

/-- The fields of a branch that have been read. -/
structure Draft where
  kind : Option (Option String) := none
  children : Option (List Node) := none
  location : Option (Option Span) := none

def Draft.toNode (d : Draft) : Node :=
  .branch d.kind.join (d.children.getD []) d.location.join

inductive Field where
  | kind
  | children
  | location
  /-- A field of any other name. -/
  | ignored
deriving DecidableEq, Repr

def Field.ofName : String → Field
  | "kind" => .kind
  | "children" => .children
  | "location" => .location
  | _ => .ignored

def Draft.has (d : Draft) : Field → Bool
  | .kind => d.kind.isSome
  | .children => d.children.isSome
  | .location => d.location.isSome
  | .ignored => false

/-- A bound of a span that is written as an object. -/
inductive Bound where
  | start
  | stop
  | ignored
deriving DecidableEq, Repr

def Bound.ofName : String → Bound
  | "start_line" => .start
  | "end_line" => .stop
  | _ => .ignored

/-- A place that is still open, with the name of the field whose value comes next. -/
inductive Frame where
  | branch (draft : Draft) (next : Option Field)
  /-- The children so far, in reverse. -/
  | children (nodes : List Node)
  | bounds (start stop : Option UInt32) (next : Option Bound)
  /-- A span as an array: its bounds so far, in reverse. -/
  | pair (bounds : List UInt32)
  /-- An array or an object inside an ignored value. -/
  | ignored

structure Build where
  frames : List Frame := []
  result : Option Node := none

namespace Build

def deliver (b : Build) (n : Node) : Except Problem Build :=
  match b.frames with
  | [] => .ok { b with result := some n }
  | .children nodes :: frames => .ok { b with frames := .children (n :: nodes) :: frames }
  | _ => .error .mismatched

/-- Puts a finished span into the branch that it is the location of. -/
def deliverSpan (b : Build) (s : Span) : Except Problem Build :=
  match b.frames with
  | .branch draft _ :: frames =>
    .ok { b with frames := .branch { draft with location := some (some s) } none :: frames }
  | _ => .error .mismatched

/-- A line number, which is a whole number of 32 bits. -/
def lineOfNumeral (n : Numeral) : Except Problem UInt32 := do
  match ← readNumber n with
  | .int i =>
    if 0 ≤ i ∧ i < UInt32.size then return UInt32.ofNat i.toNat else .error .mismatched
  | .float _ => .error .mismatched

/-- Refuses a scalar that is JSON but of the wrong type. -/
def refuseScalar : Event → Except Problem Build
  | .number n => do
    let _ ← readNumber n
    .error .mismatched
  | .string raw => do
    let _ ← readString raw
    .error .mismatched
  | _ => .error .mismatched

def stepNode (b : Build) : Event → Except Problem Build
  | .null => b.deliver (.literal .nil)
  | .bool x => b.deliver (.literal (.bool x))
  | .number n => do b.deliver (.literal (.ofNumber (← readNumber n)))
  | .string raw => do b.deliver (.literal (.str (← readString raw)))
  | .openObject => .ok { b with frames := .branch {} none :: b.frames }
  | _ => .error .mismatched

/-- A step where the value of a field of a branch is wanted. -/
def stepField (b : Build) (draft : Draft) (frames : List Frame) :
    Field → Event → Except Problem Build
  | .kind, .null => .ok { b with frames := .branch { draft with kind := some none } none :: frames }
  | .kind, .string raw => do
    let s ← readString raw
    return { b with frames := .branch { draft with kind := some (some s) } none :: frames }
  | .children, .openArray => .ok { b with frames := .children [] :: b.frames }
  | .location, .null =>
    .ok { b with frames := .branch { draft with location := some none } none :: frames }
  | .location, .openObject => .ok { b with frames := .bounds none none none :: b.frames }
  | .location, .openArray => .ok { b with frames := .pair [] :: b.frames }
  | .ignored, .openArray | .ignored, .openObject => .ok { b with frames := .ignored :: b.frames }
  | .ignored, _ => .ok b
  | _, e => refuseScalar e

/-- A step where the value of a bound of a span is wanted. -/
def stepBound (b : Build) (start stop : Option UInt32) (frames : List Frame) :
    Bound → Event → Except Problem Build
  | .start, .number n => do
    return { b with frames := .bounds (some (← lineOfNumeral n)) stop none :: frames }
  | .stop, .number n => do
    return { b with frames := .bounds start (some (← lineOfNumeral n)) none :: frames }
  | .ignored, .openArray | .ignored, .openObject => .ok { b with frames := .ignored :: b.frames }
  | .ignored, _ => .ok b
  | _, e => refuseScalar e

def step (b : Build) (e : Event) : Except Problem Build :=
  match b.frames with
  | [] => b.stepNode e
  | .children nodes :: frames =>
    match e, frames with
    | .comma, _ => .ok b
    | .closeArray, .branch draft _ :: frames =>
      .ok { b with frames := .branch { draft with children := some nodes.reverse } none :: frames }
    | e, _ => b.stepNode e
  | .branch draft next :: frames =>
    match e, next with
    | .comma, _ => .ok { b with frames := .branch draft none :: frames }
    | .closeObject, _ => { b with frames }.deliver draft.toNode
    | .key raw, _ => do
      let field := Field.ofName (← readString raw)
      if draft.has field then .error .mismatched
      else return { b with frames := .branch draft (some field) :: frames }
    | e, some field => b.stepField draft frames field e
    | _, none => .error .malformed
  | .bounds start stop next :: frames =>
    match e, next with
    | .comma, _ => .ok { b with frames := .bounds start stop none :: frames }
    | .closeObject, _ =>
      match start, stop with
      | some start, some stop => { b with frames }.deliverSpan ⟨start, stop⟩
      | _, _ => .error .mismatched
    | .key raw, _ => do
      match Bound.ofName (← readString raw), start, stop with
      | .start, some _, _ => .error .mismatched
      | .stop, _, some _ => .error .mismatched
      | bound, _, _ => return { b with frames := .bounds start stop (some bound) :: frames }
    | e, some bound => b.stepBound start stop frames bound e
    | _, none => .error .malformed
  | .pair bounds :: frames =>
    match e, bounds with
    | .comma, [_, _] => .error .malformed
    | .comma, _ => .ok b
    | .closeArray, [stop, start] => { b with frames }.deliverSpan ⟨start, stop⟩
    | .number n, _ => do return { b with frames := .pair ((← lineOfNumeral n) :: bounds) :: frames }
    | e, _ => refuseScalar e
  | .ignored :: frames =>
    match e with
    | .openArray | .openObject => .ok { b with frames := .ignored :: b.frames }
    | .closeArray | .closeObject => .ok { b with frames }
    | _ => .ok b

/-- Whether the next token belongs to an ignored value. -/
def ignoring (b : Build) : Bool :=
  match b.frames with
  | .ignored :: _ | .branch _ (some .ignored) :: _ | .bounds _ _ (some .ignored) :: _ => true
  | _ => false

/-- The problem of a token that the end of the text interrupts. -/
def problemOfCut (b : Build) : Json.Token → Problem
  | .cutNumber => if b.ignoring then .malformed else .unfinished
  | .cutString raw => if b.ignoring then .unfinished else Json.problemOfCutString raw
  | _ => .unfinished

end Build

/-- Reads the tree that the octets of a JSON text spell. -/
def read (s : Text.Octets) : Except Problem Node := do
  let stream := Json.events s
  let built ← stream.events.foldlM Build.step {}
  match stream.ending, built.result with
  | .complete, some n => return n
  | .complete, none | .unfinished, _ => .error .unfinished
  | .malformed, _ => .error .malformed
  | .cut t, _ => .error (built.problemOfCut t)

def compact (n : Node) : String :=
  n.toJson.compact

end Node

end CodeIndex
