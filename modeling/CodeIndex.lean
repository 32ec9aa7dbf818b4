import CodeIndex.Build.Basic
import CodeIndex.Build.Discovery
import CodeIndex.Build.Report
import CodeIndex.Build.Source
import CodeIndex.CommandLine.Arguments
import CodeIndex.CommandLine.Run
import CodeIndex.Decimal.Rounded
import CodeIndex.Decimal.Shortest
import CodeIndex.Decimal.Spelled
import CodeIndex.Disk.Basic
import CodeIndex.Disk.DatabaseAddress
import CodeIndex.Disk.Entry
import CodeIndex.Disk.Fault
import CodeIndex.Disk.Initial
import CodeIndex.Disk.Path
import CodeIndex.Disk.Programs
import CodeIndex.Disk.StoredIndex
import CodeIndex.Error
import CodeIndex.Extraction.Extractor
import CodeIndex.Extraction.Json
import CodeIndex.Extraction.Record
import CodeIndex.Extraction.ScopeStack
import CodeIndex.Json.Escape
import CodeIndex.Json.Event
import CodeIndex.Json.Number
import CodeIndex.Json.Problem
import CodeIndex.Json.Reader
import CodeIndex.Json.Record
import CodeIndex.Json.Token
import CodeIndex.Json.Value
import CodeIndex.Main
import CodeIndex.Proofs.Disk.Databases
import CodeIndex.Proofs.Except
import CodeIndex.Proofs.Extraction.Walk
import CodeIndex.Proofs.Json.Compact
import CodeIndex.Proofs.Json.Integer
import CodeIndex.Proofs.Json.Quoted
import CodeIndex.Proofs.Query.Requests
import CodeIndex.Proofs.Store.Agreement
import CodeIndex.Proofs.Store.Calls
import CodeIndex.Proofs.Store.Sessions
import CodeIndex.Proofs.Text.Octets
import CodeIndex.Proofs.Tree.Ancestors
import CodeIndex.Proofs.Tree.Preorder
import CodeIndex.Proofs.Tree.RoundTrip
import CodeIndex.Proofs.Tree.Value
import CodeIndex.Query.Answer
import CodeIndex.Query.Engine
import CodeIndex.Query.Methods
import CodeIndex.Query.Params
import CodeIndex.Rules
import CodeIndex.Rules.Json
import CodeIndex.Settings.Basic
import CodeIndex.Settings.Document
import CodeIndex.Settings.Extractor
import CodeIndex.Settings.Format
import CodeIndex.Settings.Problem
import CodeIndex.Shell.Arithmetic
import CodeIndex.Shell.Builtin.Output
import CodeIndex.Shell.Builtin.Processes
import CodeIndex.Shell.Builtin.Variables
import CodeIndex.Shell.Call
import CodeIndex.Shell.Cat
import CodeIndex.Shell.CommandReader
import CodeIndex.Shell.Descriptors
import CodeIndex.Shell.Expansion
import CodeIndex.Shell.FloatText
import CodeIndex.Shell.Format
import CodeIndex.Shell.Lookup
import CodeIndex.Shell.Machine
import CodeIndex.Shell.Number
import CodeIndex.Shell.Options
import CodeIndex.Shell.Pattern
import CodeIndex.Shell.Program
import CodeIndex.Shell.Quoted
import CodeIndex.Shell.Reading
import CodeIndex.Shell.Run
import CodeIndex.Shell.Script
import CodeIndex.Shell.Signal
import CodeIndex.Shell.Start
import CodeIndex.Shell.Syntax
import CodeIndex.Shell.Test
import CodeIndex.Shell.Variables
import CodeIndex.Shell.WordReader
import CodeIndex.Span
import CodeIndex.Store.Cell
import CodeIndex.Store.Database
import CodeIndex.Store.Fault
import CodeIndex.Store.Memory
import CodeIndex.Store.Reader
import CodeIndex.Store.Record
import CodeIndex.SymbolKind
import CodeIndex.Text.Blank
import CodeIndex.Text.Lines
import CodeIndex.Text.Octet
import CodeIndex.Text.Packed
import CodeIndex.Text.Repaired
import CodeIndex.Text.Segments
import CodeIndex.Tree.Address
import CodeIndex.Tree.Dump
import CodeIndex.Tree.Json
import CodeIndex.Tree.Lookup
import CodeIndex.Tree.Node
import CodeIndex.Tree.Reader
import CodeIndex.Tree.Traversal
import CodeIndex.Yaml.Printer
import CodeIndex.Yaml.Problem
import CodeIndex.Yaml.Reader
import CodeIndex.Yaml.Scalar
import CodeIndex.Yaml.Token
import CodeIndex.Yaml.Tree
import CodeIndex.Yaml.Value
import CodeIndex.Proofs.Query.Failures
import CodeIndex.Proofs.Store.Rebuilds
import CodeIndex.Proofs.Store.Statements
import CodeIndex.Proofs.Tree.AddressText
import CodeIndex.Proofs.Extraction.Rows
import CodeIndex.Proofs.Store.Contents
import CodeIndex.Proofs.Tree.Size
import CodeIndex.Proofs.Query.Indexed
import CodeIndex.Proofs.Decimal.Shortest
import CodeIndex.Proofs.Tree.Outline
import CodeIndex.Proofs.Query.CallGraph
import CodeIndex.Proofs.Json.Cut
import CodeIndex.Proofs.Tree.Denotation
import CodeIndex.Proofs.Tree.Truncation
import CodeIndex.Proofs.Tree.Settled
import CodeIndex.Proofs.Store.Numbering
import CodeIndex.Proofs.Build.Loads
import CodeIndex.Proofs.Json.Phrase
import CodeIndex.Proofs.Json.Lexeme
import CodeIndex.Proofs.Json.Meaning
import CodeIndex.Proofs.Tree.Grammar
import CodeIndex.Proofs.Tree.Rewriting
import CodeIndex.Proofs.Span
import CodeIndex.Proofs.Store.Isolation
import CodeIndex.Proofs.Query.Enclosing
import CodeIndex.Proofs.Json.Record
import CodeIndex.Proofs.Query.Answers
import CodeIndex.Proofs.Query.RoundTrip
import CodeIndex.Proofs.Tree.Relocation
import CodeIndex.Proofs.Query.OutboundCalls
import CodeIndex.Proofs.Text.Lines
import CodeIndex.Proofs.Extraction.SourceText
import CodeIndex.Proofs.Extraction.Wrappers
import CodeIndex.Proofs.Roles
import CodeIndex.Proofs.Text.Order
import CodeIndex.Proofs.Disk.Folders
import CodeIndex.Proofs.Build.Discovery
import CodeIndex.Proofs.Names
import CodeIndex.Proofs.Settings.ReadBack
import CodeIndex.Proofs.Yaml.Structure
import CodeIndex.Proofs.Yaml.Folded
import CodeIndex.Proofs.Yaml.Escapes
import CodeIndex.Proofs.Yaml.Literal
import CodeIndex.Proofs.Yaml.Numerals
import CodeIndex.Proofs.Yaml.Scanning
import CodeIndex.Proofs.Yaml.Words
import CodeIndex.Proofs.Yaml.Printed
import CodeIndex.Proofs.Yaml.Printable
import CodeIndex.Proofs.Yaml.Parsing
import CodeIndex.Proofs.Yaml.RoundTrip
import CodeIndex.Proofs.Settings.RoundTrip
