import ProtoBind.Codegen.Assembly
import ProtoBind.Codegen.Code
import ProtoBind.Codegen.Doc
import ProtoBind.Codegen.Enum
import ProtoBind.Codegen.Fault
import ProtoBind.Codegen.Imports
import ProtoBind.Codegen.Index
import ProtoBind.Codegen.Message
import ProtoBind.Codegen.Name
import ProtoBind.Codegen.Options
import ProtoBind.Codegen.Plan
import ProtoBind.Codegen.Program
import ProtoBind.Codegen.Reference
import ProtoBind.Codegen.Service
import ProtoBind.Command.Arguments
import ProtoBind.Command.Run
import ProtoBind.Command.Session
import ProtoBind.Files.Load
import ProtoBind.Files.Workspace
import ProtoBind.Grammar.Automaton
import ProtoBind.Grammar.Basic
import ProtoBind.Json.Basic
import ProtoBind.Json.Parser
import ProtoBind.Json.Printer
import ProtoBind.Main
import ProtoBind.Message.Class
import ProtoBind.Message.Client
import ProtoBind.Message.Create
import ProtoBind.Message.Decode
import ProtoBind.Message.Encode
import ProtoBind.Message.Equal
import ProtoBind.Message.Instance
import ProtoBind.Message.Library
import ProtoBind.Message.Show
import ProtoBind.Message.Store
import ProtoBind.Naming
import ProtoBind.Number.Binary64
import ProtoBind.Number.Decimal
import ProtoBind.Output.Disk
import ProtoBind.Output.Run
import ProtoBind.Proofs.Codegen.Bindings
import ProtoBind.Proofs.Codegen.Blocks
import ProtoBind.Proofs.Codegen.Bodies
import ProtoBind.Proofs.Codegen.Conversion
import ProtoBind.Proofs.Codegen.Copies
import ProtoBind.Proofs.Codegen.Diagnostics
import ProtoBind.Proofs.Codegen.Docstrings
import ProtoBind.Proofs.Codegen.Emission
import ProtoBind.Proofs.Codegen.Exports
import ProtoBind.Proofs.Codegen.Faults
import ProtoBind.Proofs.Codegen.Imports
import ProtoBind.Proofs.Codegen.Indentation
import ProtoBind.Proofs.Codegen.Lasting
import ProtoBind.Proofs.Codegen.Layout
import ProtoBind.Proofs.Codegen.Nesting
import ProtoBind.Proofs.Codegen.Partition
import ProtoBind.Proofs.Codegen.Plan
import ProtoBind.Proofs.Codegen.Program
import ProtoBind.Proofs.Codegen.Scopes
import ProtoBind.Proofs.Codegen.Unordered
import ProtoBind.Proofs.Entries
import ProtoBind.Proofs.Files.Inputs
import ProtoBind.Proofs.Files.Paths
import ProtoBind.Proofs.Message.Attributes
import ProtoBind.Proofs.Message.Classes
import ProtoBind.Proofs.Message.Clear
import ProtoBind.Proofs.Message.Collect
import ProtoBind.Proofs.Message.Confined
import ProtoBind.Proofs.Message.Contributions
import ProtoBind.Proofs.Message.Delivered
import ProtoBind.Proofs.Message.Elements
import ProtoBind.Proofs.Message.Equality
import ProtoBind.Proofs.Message.Evolution
import ProtoBind.Proofs.Message.Loops
import ProtoBind.Proofs.Message.Members
import ProtoBind.Proofs.Message.Merging
import ProtoBind.Proofs.Message.Pieces
import ProtoBind.Proofs.Message.Properties
import ProtoBind.Proofs.Message.Readable
import ProtoBind.Proofs.Message.Receiving
import ProtoBind.Proofs.Message.Records
import ProtoBind.Proofs.Message.Recreated
import ProtoBind.Proofs.Message.Responses
import ProtoBind.Proofs.Message.RoundTrip
import ProtoBind.Proofs.Message.Sendable
import ProtoBind.Proofs.Message.Sending
import ProtoBind.Proofs.Message.Setters
import ProtoBind.Proofs.Message.Typed
import ProtoBind.Proofs.Message.Unknown
import ProtoBind.Proofs.Message.Writable
import ProtoBind.Proofs.Naming
import ProtoBind.Proofs.Output.Disk
import ProtoBind.Proofs.Output.Effects
import ProtoBind.Proofs.Output.Generate
import ProtoBind.Proofs.Output.Paths
import ProtoBind.Proofs.Output.Pool
import ProtoBind.Proofs.Reflection.Conformance
import ProtoBind.Proofs.Reflection.Faithful
import ProtoBind.Proofs.Reflection.Image
import ProtoBind.Proofs.Reflection.Index
import ProtoBind.Proofs.Reflection.Numbers
import ProtoBind.Proofs.Reflection.Validity
import ProtoBind.Proofs.Results
import ProtoBind.Proofs.Schema.Arena
import ProtoBind.Proofs.Schema.Contents
import ProtoBind.Proofs.Schema.Counterparts
import ProtoBind.Proofs.Schema.Declared
import ProtoBind.Proofs.Schema.Failures
import ProtoBind.Proofs.Schema.Filed
import ProtoBind.Proofs.Schema.Files
import ProtoBind.Proofs.Schema.Final
import ProtoBind.Proofs.Schema.Forest
import ProtoBind.Proofs.Schema.Formed
import ProtoBind.Proofs.Schema.History
import ProtoBind.Proofs.Schema.Imports
import ProtoBind.Proofs.Schema.LoadOrder
import ProtoBind.Proofs.Schema.Loaded
import ProtoBind.Proofs.Schema.Meanings
import ProtoBind.Proofs.Schema.Outcomes
import ProtoBind.Proofs.Schema.Packages
import ProtoBind.Proofs.Schema.Prefixes
import ProtoBind.Proofs.Schema.Printed
import ProtoBind.Proofs.Schema.Reached
import ProtoBind.Proofs.Schema.Realized
import ProtoBind.Proofs.Schema.Renumbered
import ProtoBind.Proofs.Schema.Scopes
import ProtoBind.Proofs.Schema.Steady
import ProtoBind.Proofs.Schema.Tags
import ProtoBind.Proofs.Schema.Unordered
import ProtoBind.Proofs.Schema.Walk
import ProtoBind.Proofs.Source.Bare
import ProtoBind.Proofs.Source.Constructs
import ProtoBind.Proofs.Source.Derivations
import ProtoBind.Proofs.Source.Escapes
import ProtoBind.Proofs.Source.Forms
import ProtoBind.Proofs.Source.Identifiers
import ProtoBind.Proofs.Source.Integers
import ProtoBind.Proofs.Source.Layout
import ProtoBind.Proofs.Source.Lexemes
import ProtoBind.Proofs.Source.Matching
import ProtoBind.Proofs.Source.Moves
import ProtoBind.Proofs.Source.Names
import ProtoBind.Proofs.Source.OneLine
import ProtoBind.Proofs.Source.Places
import ProtoBind.Proofs.Source.Printed
import ProtoBind.Proofs.Source.Printing
import ProtoBind.Proofs.Source.Reading
import ProtoBind.Proofs.Source.Soundness
import ProtoBind.Proofs.Source.Spelling
import ProtoBind.Proofs.Source.Steps
import ProtoBind.Proofs.Source.Tables
import ProtoBind.Proofs.Source.Tags
import ProtoBind.Proofs.Source.Tiling
import ProtoBind.Proofs.Source.Trailing
import ProtoBind.Proofs.Wire.Grammar
import ProtoBind.Proofs.Wire.Lockstep
import ProtoBind.Proofs.Wire.Scalars
import ProtoBind.Proofs.Wire.Series
import ProtoBind.Proofs.Wire.Skipping
import ProtoBind.Proofs.Wire.Takes
import ProtoBind.Proofs.Wire.Varints
import ProtoBind.Reflection.Description
import ProtoBind.Reflection.Document
import ProtoBind.Reflection.Shape
import ProtoBind.Reflection.Tree
import ProtoBind.Scalar
import ProtoBind.Schema.Default
import ProtoBind.Schema.Graph
import ProtoBind.Schema.Loader
import ProtoBind.Schema.Node
import ProtoBind.Source.Decl
import ProtoBind.Source.Doc
import ProtoBind.Source.Literal
import ProtoBind.Source.Parser
import ProtoBind.Source.Rules
import ProtoBind.Source.Terminal
import ProtoBind.Source.Token
import ProtoBind.Text.Blank
import ProtoBind.Text.Numeral
import ProtoBind.Text.Printable
import ProtoBind.Text.Quoted
import ProtoBind.Text.Utf8
import ProtoBind.Value
import ProtoBind.Wire.Reader
import ProtoBind.Wire.Writer
