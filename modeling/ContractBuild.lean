import ContractBuild.Abi.Descriptor
import ContractBuild.Abi.Extract
import ContractBuild.Abi.TypeTag
import ContractBuild.Build.Bench
import ContractBuild.Build.Compile
import ContractBuild.Build.Diagnostic
import ContractBuild.Build.Run
import ContractBuild.Build.Stage
import ContractBuild.Cache.Entry
import ContractBuild.Cache.Key
import ContractBuild.Cache.Store
import ContractBuild.Cli.Execute
import ContractBuild.Cli.Grammar
import ContractBuild.Cli.Report
import ContractBuild.Cli.Request
import ContractBuild.Digest.Sha256
import ContractBuild.Disk.Fault
import ContractBuild.Disk.Files
import ContractBuild.Disk.Tree
import ContractBuild.Frozen.Base
import ContractBuild.Frozen.Basic
import ContractBuild.Frozen.Freeze
import ContractBuild.Graph.Basic
import ContractBuild.Graph.Candidate
import ContractBuild.Graph.Distribution
import ContractBuild.Graph.Fault
import ContractBuild.Graph.Locate
import ContractBuild.Graph.Resolve
import ContractBuild.Host.Basic
import ContractBuild.Host.Program
import ContractBuild.Host.Publish
import ContractBuild.Host.Scratch
import ContractBuild.Main
import ContractBuild.Manifest.Basic
import ContractBuild.Manifest.Parse
import ContractBuild.Mode
import ContractBuild.Native.Build
import ContractBuild.Native.Fault
import ContractBuild.Native.Settings
import ContractBuild.Native.Toolchain
import ContractBuild.Native.Workspace
import ContractBuild.Path
import ContractBuild.Proofs.Abi.Extract
import ContractBuild.Proofs.Abi.Hint
import ContractBuild.Proofs.Abi.Parse
import ContractBuild.Proofs.Abi.RoundTrip
import ContractBuild.Proofs.Abi.TypeTag
import ContractBuild.Proofs.Abi.Union
import ContractBuild.Proofs.Build.Call
import ContractBuild.Proofs.Build.Compile
import ContractBuild.Proofs.Build.Emission
import ContractBuild.Proofs.Build.Fixed
import ContractBuild.Proofs.Build.History
import ContractBuild.Proofs.Build.Progress
import ContractBuild.Proofs.Build.Run
import ContractBuild.Proofs.Build.Sources
import ContractBuild.Proofs.Cache.Contents
import ContractBuild.Proofs.Cache.Entry
import ContractBuild.Proofs.Cache.Interruption
import ContractBuild.Proofs.Cache.Key
import ContractBuild.Proofs.Cache.Pruning
import ContractBuild.Proofs.Cache.Refinement
import ContractBuild.Proofs.Cache.Removal
import ContractBuild.Proofs.Cache.Represents
import ContractBuild.Proofs.Cache.Store
import ContractBuild.Proofs.Cache.Tampering
import ContractBuild.Proofs.Digest.Sha256
import ContractBuild.Proofs.Disk.Destination
import ContractBuild.Proofs.Disk.Listing
import ContractBuild.Proofs.Disk.Operation
import ContractBuild.Proofs.Disk.Subtree
import ContractBuild.Proofs.Disk.Tree
import ContractBuild.Proofs.Disk.Whole
import ContractBuild.Proofs.Frozen.Canonical
import ContractBuild.Proofs.Frozen.Freeze
import ContractBuild.Proofs.Frozen.Place
import ContractBuild.Proofs.Graph.Candidate
import ContractBuild.Proofs.Graph.Closure
import ContractBuild.Proofs.Graph.Consistency
import ContractBuild.Proofs.Graph.Discovery
import ContractBuild.Proofs.Graph.Enclosing
import ContractBuild.Proofs.Graph.Entry
import ContractBuild.Proofs.Graph.Fault
import ContractBuild.Proofs.Graph.Finite
import ContractBuild.Proofs.Graph.Listing
import ContractBuild.Proofs.Graph.Mirror
import ContractBuild.Proofs.Graph.Name
import ContractBuild.Proofs.Graph.Order
import ContractBuild.Proofs.Graph.Pins
import ContractBuild.Proofs.Graph.Relocation
import ContractBuild.Proofs.Graph.Roots
import ContractBuild.Proofs.Graph.Search
import ContractBuild.Proofs.Graph.Termination
import ContractBuild.Proofs.Graph.WellFormed
import ContractBuild.Proofs.Host.Apart
import ContractBuild.Proofs.Host.Atomic
import ContractBuild.Proofs.Host.Chunk
import ContractBuild.Proofs.Host.Forward
import ContractBuild.Proofs.Host.Group
import ContractBuild.Proofs.Host.Publish
import ContractBuild.Proofs.Host.Reading
import ContractBuild.Proofs.Host.Replace
import ContractBuild.Proofs.Host.Solitary
import ContractBuild.Proofs.Host.Undo
import ContractBuild.Proofs.Host.Writer
import ContractBuild.Proofs.Native.Workspace
import ContractBuild.Proofs.Path
import ContractBuild.Proofs.Program
import ContractBuild.Proofs.Python.Content
import ContractBuild.Proofs.Python.Decorator
import ContractBuild.Proofs.Python.Import
import ContractBuild.Proofs.Python.Line
import ContractBuild.Proofs.Python.LineEnd
import ContractBuild.Proofs.Python.Normal
import ContractBuild.Proofs.Python.Number
import ContractBuild.Proofs.Python.Offset
import ContractBuild.Proofs.Python.Parameter
import ContractBuild.Proofs.Python.Place
import ContractBuild.Proofs.Python.Spelling
import ContractBuild.Proofs.Python.Token
import ContractBuild.Proofs.Text.Blank
import ContractBuild.Proofs.Text.Decimal
import ContractBuild.Proofs.Text.Delimited
import ContractBuild.Proofs.Text.Json
import ContractBuild.Proofs.Text.Nested
import ContractBuild.Proofs.Text.Offset
import ContractBuild.Proofs.Text.Outside
import ContractBuild.Proofs.Text.Sorted
import ContractBuild.Proofs.Text.Split
import ContractBuild.Proofs.Text.Utf8
import ContractBuild.Proofs.Version.Compatible
import ContractBuild.Proofs.Version.Normal
import ContractBuild.Proofs.Version.Order
import ContractBuild.Proofs.Version.Pin
import ContractBuild.Proofs.Version.Precedence
import ContractBuild.Proofs.Version.Release
import ContractBuild.Proofs.Version.Requirement
import ContractBuild.Proofs.Wasm.Absorption
import ContractBuild.Proofs.Wasm.Acceptance
import ContractBuild.Proofs.Wasm.External
import ContractBuild.Proofs.Wasm.Idempotence
import ContractBuild.Proofs.Wasm.Length
import ContractBuild.Proofs.Wasm.Liveness
import ContractBuild.Proofs.Wasm.Parser
import ContractBuild.Proofs.Wasm.Passes
import ContractBuild.Proofs.Wasm.Preservation
import ContractBuild.Proofs.Wasm.Reader
import ContractBuild.Proofs.Wasm.Reduce
import ContractBuild.Proofs.Wasm.Section
import ContractBuild.Proofs.Wasm.Standard
import ContractBuild.Proofs.Wasm.Valid
import ContractBuild.Python.Fault
import ContractBuild.Python.Import
import ContractBuild.Python.Line
import ContractBuild.Python.Module
import ContractBuild.Python.Signature
import ContractBuild.Text.Alphabetic
import ContractBuild.Text.CharClass
import ContractBuild.Text.Chars
import ContractBuild.Text.Decimal
import ContractBuild.Text.Json
import ContractBuild.Text.Mark
import ContractBuild.Text.Nested
import ContractBuild.Text.Numeric
import ContractBuild.Text.ShellWords
import ContractBuild.Text.Sorted
import ContractBuild.Text.Timestamp
import ContractBuild.Text.Utf8
import ContractBuild.Total
import ContractBuild.Version.Basic
import ContractBuild.Version.Pin
import ContractBuild.Version.Release
import ContractBuild.Version.Requirement
import ContractBuild.Wasm.Live
import ContractBuild.Wasm.Module
import ContractBuild.Wasm.Op
import ContractBuild.Wasm.Optimizer
import ContractBuild.Wasm.Parser
import ContractBuild.Wasm.Passes
import ContractBuild.Wasm.Reader
import ContractBuild.Wasm.Section
import ContractBuild.Wasm.Standard
import ContractBuild.Wasm.Types
import ContractBuild.Wasm.Typing
import ContractBuild.Wasm.Valid
import ContractBuild.Yaml.Cursor
import ContractBuild.Yaml.Node
import ContractBuild.Yaml.Scalar
import ContractBuild.Yaml.Token
