import CodeIndex.Proofs.Json.Record
import CodeIndex.Proofs.Tree.AddressText
import CodeIndex.Proofs.Tree.Value
import CodeIndex.Query.Answer

/-! # Answers that are read back

What queries give is read back from the values that are written for it, where its numbers fit into
their words and its trees are such as texts are read as. The tree of a callable is never written as
null, which would be read as no tree.
-/

namespace CodeIndex

open Json (Value Fields)

/-! ## Parts of records -/

theorem SymbolKind.readsAs (kind : SymbolKind) : kind.toJson.ReadsAs ofJson? kind := by
  cases kind <;> exact ⟨rfl, rfl⟩

theorem Span.readsAs (s : Span) : s.toJson.ReadsAs ofJson? s :=
  ⟨s.ofJson?_toJson, s.ofJson?_sorted⟩

theorem Node.readsAs {n : Node} (h : n.Canonical) : n.toJson.ReadsAs ofJson? n :=
  ⟨ofJson?_toJson h, ofJson?_sorted h⟩

/-- A branch is written as an object. -/
theorem Node.toJson_ne_null {n : Node} (h : n.kind?.isSome) : n.toJson ≠ .null := by
  cases n with
  | branch kind children location =>
    intro hnull
    rw [toJson] at hnull
    cases hnull
  | literal value => cases h

def Address.Fits (a : Address) : Prop :=
  ∀ i ∈ a.path, i < UInt64.size

theorem Address.readsAs {a : Address} (h : a.Fits) : a.toJson.ReadsAs ofJson? a := by
  have hread : ofJson? a.toJson = some a := by
    change (parse a.text).toOption = some a
    rw [parse_text h]
    rfl
  exact ⟨hread, hread⟩

/-! ## Records -/

def FitsRow (id : Int) : Prop :=
  id ≤ Int64.maxValue.toInt

structure SymbolRecord.Exact (s : SymbolRecord) : Prop where
  id : FitsRow s.id
  fileId : FitsRow s.fileId
  canonical : ∀ n ∈ s.subtree, n.Canonical
  /-- Only branches have kinds. -/
  branch : ∀ n ∈ s.subtree, n.kind?.isSome

structure ReferenceRecord.Exact (r : ReferenceRecord) : Prop where
  id : FitsRow r.id
  fileId : FitsRow r.fileId

structure NodeMatch.Exact (m : NodeMatch) : Prop where
  id : m.id.Fits
  node : m.node.Canonical

structure CallHierarchy.Exact (h : CallHierarchy) : Prop where
  symbol : h.symbol.Exact
  inbound : ∀ r ∈ h.inbound, r.Exact

structure StoreStats.Exact (s : StoreStats) : Prop where
  files : s.files < UInt64.size
  symbols : s.symbols < UInt64.size
  references : s.references < UInt64.size

theorem ReferenceRecord.readsAs {r : ReferenceRecord} (h : r.Exact) :
    r.toJson.ReadsAs ofJson? r := by
  refine Value.readsAs_object rfl ?_
  intro fields hold
  have hid := hold.required "id" rfl (Value.readsAs_id h.id)
  have hfile := hold.required "file_id" rfl (Value.readsAs_id h.fileId)
  have hpath := hold.required "file_path" rfl (Value.readsAs_string r.path)
  have hname := hold.required "symbol_name" rfl (Value.readsAs_string r.symbolName)
  have hstart := hold.required "start_line" rfl (Value.readsAs_word r.span.start)
  have hstop := hold.required "end_line" rfl (Value.readsAs_word r.span.stop)
  simp [hid, hfile, hpath, hname, hstart, hstop]

theorem SymbolRecord.readsAs {s : SymbolRecord} (h : s.Exact) : s.toJson.ReadsAs ofJson? s := by
  refine Value.readsAs_object rfl ?_
  intro fields hold
  have hid := hold.required "id" rfl (Value.readsAs_id h.id)
  have hfile := hold.required "file_id" rfl (Value.readsAs_id h.fileId)
  have hpath := hold.required "file_path" rfl (Value.readsAs_string s.path)
  have hname := hold.required "name" rfl (Value.readsAs_string s.name)
  have hkind := hold.required "kind" rfl s.kind.readsAs
  have hscope := hold.required "scope" rfl (Value.readsAs_string s.scope)
  have hstart := hold.required "start_line" rfl (Value.readsAs_word s.span.start)
  have hstop := hold.required "end_line" rfl (Value.readsAs_word s.span.stop)
  have htext : fields.optional "source_text" Value.string? = some s.sourceText := by
    refine hold.optional _ .string ?_ fun text _ => ⟨nofun, Value.readsAs_string text⟩
    cases s.sourceText <;> cases s.subtree <;> rfl
  have hsubtree : fields.optional "subtree" Node.ofJson? = some s.subtree := by
    refine hold.optional _ Node.toJson ?_ fun n hn =>
      ⟨Node.toJson_ne_null (h.branch n hn), Node.readsAs (h.canonical n hn)⟩
    cases s.sourceText <;> cases s.subtree <;> rfl
  simp [hid, hfile, hpath, hname, hkind, hscope, hstart, hstop, htext, hsubtree]

theorem NodeMatch.readsAs {m : NodeMatch} (h : m.Exact) : m.toJson.ReadsAs ofJson? m := by
  refine Value.readsAs_object rfl ?_
  intro fields hold
  have hid := hold.required "id" rfl (Address.readsAs h.id)
  have hnode := hold.required "node" rfl (Node.readsAs h.node)
  simp [hid, hnode]

theorem OutboundCall.readsAs (c : OutboundCall) : c.toJson.ReadsAs ofJson? c := by
  refine Value.readsAs_object rfl ?_
  intro fields hold
  have hname := hold.required "name" rfl (Value.readsAs_string c.name)
  have hlocation : fields.optional "location" Span.ofJson? = some c.location := by
    refine hold.optional _ Span.toJson ?_ fun span _ => ⟨nofun, span.readsAs⟩
    cases c.location <;> rfl
  simp [hname, hlocation]

theorem CallHierarchy.readsAs {h : CallHierarchy} (hexact : h.Exact) :
    h.toJson.ReadsAs ofJson? h := by
  refine Value.readsAs_object rfl ?_
  intro fields hold
  have hsymbol := hold.required "symbol" rfl (SymbolRecord.readsAs hexact.symbol)
  have hinbound := hold.required "inbound" rfl
    (Value.readsAs_list fun r hr => ReferenceRecord.readsAs (hexact.inbound r hr))
  have houtbound := hold.required "outbound" rfl
    (Value.readsAs_list fun c _ => OutboundCall.readsAs c)
  simp [hsymbol, hinbound, houtbound]

theorem StoreStats.readsAs {s : StoreStats} (h : s.Exact) : s.toJson.ReadsAs ofJson? s := by
  refine Value.readsAs_object rfl ?_
  intro fields hold
  have hfiles := hold.required "files" rfl (Value.readsAs_count h.files)
  have hsymbols := hold.required "symbols" rfl (Value.readsAs_count h.symbols)
  have hreferences := hold.required "references" rfl (Value.readsAs_count h.references)
  simp [hfiles, hsymbols, hreferences]

end CodeIndex
