import CodeIndex.Extraction.Record
import CodeIndex.Json.Record
import CodeIndex.Tree.Json

/-! # Extracted records as JSON values -/

namespace CodeIndex

open Json (Value)

namespace SymbolKind

def toJson (k : SymbolKind) : Value := .string k.word

/-- A kind is its word, alone or as the name of an empty field. -/
def ofJson? : Value → Option SymbolKind
  | .string word => ofWord? word
  | .object [(word, .null)] => ofWord? word
  | _ => none

end SymbolKind

namespace ExtractedSymbol

def form : Json.RecordForm where
  names := ["name", "kind", "scope", "span", "source_text", "subtree"]
  least := 6

def toJson (s : ExtractedSymbol) : Value :=
  .object
    [("name", .string s.name), ("kind", s.kind.toJson), ("scope", .string s.scope),
      ("span", s.span.toJson), ("source_text", .ofOption .string s.sourceText),
      ("subtree", .ofOption Node.toJson s.subtree)]

def ofJson? (v : Value) : Option ExtractedSymbol := do
  let fields ← form.fields? v
  return {
    name := ← fields.required "name" Value.string?
    kind := ← fields.required "kind" SymbolKind.ofJson?
    scope := ← fields.required "scope" Value.string?
    span := ← fields.required "span" Span.ofJson?
    sourceText := ← fields.optional "source_text" Value.string?
    subtree := ← fields.optional "subtree" Node.ofJson? }

end ExtractedSymbol

namespace ExtractedReference

def form : Json.RecordForm where
  names := ["symbol_name", "span"]
  least := 2

def toJson (r : ExtractedReference) : Value :=
  .object [("symbol_name", .string r.symbolName), ("span", r.span.toJson)]

def ofJson? (v : Value) : Option ExtractedReference := do
  let fields ← form.fields? v
  return {
    symbolName := ← fields.required "symbol_name" Value.string?
    span := ← fields.required "span" Span.ofJson? }

end ExtractedReference

end CodeIndex
