import CodeIndex.SymbolKind
import CodeIndex.Text.Lines
import CodeIndex.Tree.Node

/-! # What is extracted from a file -/

namespace CodeIndex

/-- A file together with its tree. -/
structure ParsedFile where
  /-- The path below the root of the repository, with slashes. -/
  path : String
  root : Node
  /-- The text of the file, where it can be read. -/
  source : Option String

/-- The lines of the file that a span covers, up to the end of the file; `none` without a text or
when the span covers no line of it. -/
def ParsedFile.textOf? (f : ParsedFile) (s : Span) : Option String :=
  f.source.bind fun text =>
    if s.start = 0 ∨ s.stop < s.start then none
    else Text.slice? text (s.start.toNat - 1) s.lineCount.toNat

/-- A named definition. -/
structure ExtractedSymbol where
  name : String
  kind : SymbolKind
  /-- The label of the enclosing types. -/
  scope : String
  span : Span
  /-- The lines of a callable. -/
  sourceText : Option String
  /-- The tree of a callable. -/
  subtree : Option Node
deriving BEq, Repr

/-- A use of a name. -/
structure ExtractedReference where
  symbolName : String
  span : Span
deriving DecidableEq, Repr

/-- The record of a node. -/
inductive Finding where
  | symbol (s : ExtractedSymbol)
  | reference (r : ExtractedReference)

namespace Finding

def symbol? : Finding → Option ExtractedSymbol
  | .symbol s => some s
  | .reference _ => none

def reference? : Finding → Option ExtractedReference
  | .symbol _ => none
  | .reference r => some r

end Finding

/-- All that is kept of one file. -/
structure FileExtraction where
  path : String
  root : Node
  symbols : List ExtractedSymbol
  references : List ExtractedReference

end CodeIndex
