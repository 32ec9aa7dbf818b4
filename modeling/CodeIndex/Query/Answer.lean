import CodeIndex.Store.Record

/-! # Answers to queries -/

namespace CodeIndex

open Json (Value)

/-- A node with its address. -/
structure NodeMatch where
  id : Address
  node : Node
deriving BEq, Repr

/-- A name that is called, with the lines of its first call. -/
structure OutboundCall where
  name : String
  location : Option Span
deriving DecidableEq, Repr

/-- A callable with the references to its name and the names that it calls. -/
structure CallHierarchy where
  symbol : SymbolRecord
  inbound : List ReferenceRecord
  outbound : List OutboundCall
deriving BEq, Repr

namespace NodeMatch

def form : Json.RecordForm where
  names := ["id", "node"]
  least := 2

def toJson (m : NodeMatch) : Value :=
  .object [("id", m.id.toJson), ("node", m.node.toJson)]

def ofJson? (v : Value) : Option NodeMatch := do
  let fields ← form.fields? v
  return {
    id := ← fields.required "id" Address.ofJson?
    node := ← fields.required "node" Node.ofJson? }

end NodeMatch

namespace OutboundCall

def form : Json.RecordForm where
  names := ["name", "location"]
  least := 2

def toJson (c : OutboundCall) : Value :=
  .object (("name", .string c.name) :: Value.fieldIfAny "location" Span.toJson c.location)

def ofJson? (v : Value) : Option OutboundCall := do
  let fields ← form.fields? v
  return {
    name := ← fields.required "name" Value.string?
    location := ← fields.optional "location" Span.ofJson? }

end OutboundCall

namespace CallHierarchy

def outboundNames (h : CallHierarchy) : List String :=
  h.outbound.map (·.name)

def form : Json.RecordForm where
  names := ["symbol", "inbound", "outbound"]
  least := 3

def toJson (h : CallHierarchy) : Value :=
  .object
    [("symbol", h.symbol.toJson), ("inbound", .array (h.inbound.map ReferenceRecord.toJson)),
      ("outbound", .array (h.outbound.map OutboundCall.toJson))]

def ofJson? (v : Value) : Option CallHierarchy := do
  let fields ← form.fields? v
  return {
    symbol := ← fields.required "symbol" SymbolRecord.ofJson?
    inbound := ← fields.required "inbound" (Value.list? ReferenceRecord.ofJson?)
    outbound := ← fields.required "outbound" (Value.list? OutboundCall.ofJson?) }

end CallHierarchy

end CodeIndex
