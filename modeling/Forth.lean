import Forth.CommandLine
import Forth.Dictionary.Basic
import Forth.Dictionary.Behavior
import Forth.Dictionary.Listing
import Forth.Dictionary.Resolve
import Forth.Dictionary.Word
import Forth.Failure
import Forth.File.Open
import Forth.File.Tree
import Forth.Host.Perform
import Forth.Host.Request
import Forth.Number.Binary64
import Forth.Number.Checked
import Forth.Number.Decimal
import Forth.Number.Layout
import Forth.Output
import Forth.Proofs.Action
import Forth.Proofs.Behavior.BuiltFrom
import Forth.Proofs.Definition.Atomic
import Forth.Proofs.Definition.Draft
import Forth.Proofs.Definition.Extent
import Forth.Proofs.Definition.Reading
import Forth.Proofs.Dictionary.Binding
import Forth.Proofs.Output
import Forth.Proofs.Primitive.Effect
import Forth.Proofs.Primitive.Failing
import Forth.Proofs.Primitive.Frame
import Forth.Proofs.Run.Containment
import Forth.Proofs.Run.Progress
import Forth.Proofs.Run.Trace
import Forth.Proofs.Session.Compilation
import Forth.Proofs.Session.Context
import Forth.Proofs.Session.Failing
import Forth.Proofs.Session.Invariant
import Forth.Proofs.Session.Reachable
import Forth.Proofs.Session.Reliable
import Forth.Proofs.Source.Cursor
import Forth.Proofs.Source.Operation
import Forth.Proofs.Source.Text
import Forth.Proofs.Text.Place
import Forth.Session.Basic
import Forth.Session.Definition
import Forth.Session.Evaluate
import Forth.Session.Invoke
import Forth.Session.Primitive
import Forth.Session.Run
import Forth.Source.Basic
import Forth.Source.Reader
import Forth.Source.Token
import Forth.Text.Blank
import Forth.Text.Location
import Forth.Text.Split
import Forth.Text.Utf8
import Forth.Value.Basic
import Forth.Value.Literal
import Forth.Value.Printer
import Forth.Main
import Forth.Proofs.Source.Runs
import Forth.Proofs.Source.Faithful
import Forth.Proofs.Text.Utf8
import Forth.Proofs.Source.LineBuffer
import Forth.Proofs.Source.Streaming
import Forth.Proofs.Value.Grammar
import Forth.Proofs.Value.Literal
import Forth.Proofs.Value.Number
import Forth.Proofs.Machine.Basic
import Forth.Proofs.Behavior.Nesting
import Forth.Proofs.Machine.Definition
import Forth.Proofs.Machine.Invocation
import Forth.Proofs.Machine.Termination
import Forth.Proofs.Definition.Tokens
import Forth.Proofs.Definition.Agreement
import Forth.Proofs.Machine.Exit
import Forth.Proofs.Source.Extension
import Forth.Proofs.Machine.Extension
import Forth.Proofs.Run.Exit
import Forth.Proofs.Definition.Capture
import Forth.Proofs.Dictionary.Proper
import Forth.Proofs.Session.Follows
import Forth.Proofs.Session.EarlyBinding
import Forth.Proofs.Dictionary.View
import Forth.Proofs.Machine.Agreement
import Forth.Proofs.Session.Alike
import Forth.Proofs.Machine.Alike
import Forth.Proofs.Source.Insertion
import Forth.Proofs.Run.Comment
import Forth.Proofs.Run.Sequence
import Forth.Proofs.Definition.Place
import Forth.Proofs.Run.Place
import Forth.Proofs.Dictionary.Regular
import Forth.Proofs.Session.Vocabulary
import Forth.Proofs.Session.Locality
import Forth.Proofs.Run.Limit
import Forth.Proofs.Run.Flush
import Forth.Proofs.Run.Isolation
import Forth.Proofs.Source.ReaderBuffer
import Forth.Proofs.CommandLine.Entry
import Forth.Proofs.Source.Fetching
import Forth.Proofs.Source.Consistency
import Forth.Proofs.Dictionary.History
import Forth.Proofs.Number.Nearest
import Forth.Proofs.Number.Shortest
import Forth.Proofs.Primitive.Signature
import Forth.Proofs.Value.Arithmetic
import Forth.Proofs.Value.Numeral
import Forth.Proofs.Run.ReadBack
import Forth.Proofs.Text.ByteOrder
import Forth.Proofs.Dictionary.Listing
import Forth.Proofs.File.Open
import Forth.Proofs.Host.Aside
