import RemoteInspect.Binary64
import RemoteInspect.Decimal.General
import RemoteInspect.Decimal.Rounding
import RemoteInspect.Document
import RemoteInspect.Fault
import RemoteInspect.Handle.Basic
import RemoteInspect.Handle.Description
import RemoteInspect.Handle.Listing
import RemoteInspect.Handle.Rendering
import RemoteInspect.Inspect.Basic
import RemoteInspect.Inspect.Callable
import RemoteInspect.Inspect.Evaluation
import RemoteInspect.Inspect.Event
import RemoteInspect.Inspect.Failure
import RemoteInspect.Inspect.Iteration
import RemoteInspect.Inspect.Navigation
import RemoteInspect.Inspect.Outcome
import RemoteInspect.Inspect.Reading
import RemoteInspect.Inspect.Tracer
import RemoteInspect.Inspect.Transcript
import RemoteInspect.Kind
import RemoteInspect.Path.Basic
import RemoteInspect.Path.Defect
import RemoteInspect.Path.Layout
import RemoteInspect.Path.Node
import RemoteInspect.Path.Record
import RemoteInspect.Path.Step
import RemoteInspect.Pool
import RemoteInspect.Scalar
import RemoteInspect.Target.Basic
import RemoteInspect.Target.Key
import RemoteInspect.Target.Live
import RemoteInspect.Target.Mutation
import RemoteInspect.Target.Table
import RemoteInspect.Target.WorkingArea
import RemoteInspect.Text.Graphic
import RemoteInspect.Text.Lossy
import RemoteInspect.Text.Quoted
import RemoteInspect.Tree.Basic
import RemoteInspect.Tree.Description
import RemoteInspect.Tree.Evaluation
import RemoteInspect.Tree.Search
import RemoteInspect.Value
import RemoteInspect.Proofs.Binary64
import RemoteInspect.Proofs.Binary64.Text
import RemoteInspect.Proofs.Decimal.General
import RemoteInspect.Proofs.Decimal.Numeral
import RemoteInspect.Proofs.Decimal.Rounding
import RemoteInspect.Proofs.Except
import RemoteInspect.Proofs.Handle.Construction
import RemoteInspect.Proofs.Handle.Denotation
import RemoteInspect.Proofs.Handle.Description
import RemoteInspect.Proofs.Handle.Levels
import RemoteInspect.Proofs.Handle.Listing
import RemoteInspect.Proofs.Handle.Numbering
import RemoteInspect.Proofs.Handle.Parts
import RemoteInspect.Proofs.Handle.Restoring
import RemoteInspect.Proofs.Handle.Words
import RemoteInspect.Proofs.Inspect.Agreement
import RemoteInspect.Proofs.Inspect.Answer
import RemoteInspect.Proofs.Inspect.Balance
import RemoteInspect.Proofs.Inspect.Capacity
import RemoteInspect.Proofs.Inspect.Custody
import RemoteInspect.Proofs.Inspect.Demand
import RemoteInspect.Proofs.Inspect.Displays
import RemoteInspect.Proofs.Inspect.Effect
import RemoteInspect.Proofs.Inspect.Entering
import RemoteInspect.Proofs.Inspect.Faultless
import RemoteInspect.Proofs.Inspect.Following
import RemoteInspect.Proofs.Inspect.Height
import RemoteInspect.Proofs.Inspect.Inheritance
import RemoteInspect.Proofs.Inspect.Iteration
import RemoteInspect.Proofs.Inspect.Keeping
import RemoteInspect.Proofs.Inspect.KeyCopies
import RemoteInspect.Proofs.Inspect.Keys
import RemoteInspect.Proofs.Inspect.Levels
import RemoteInspect.Proofs.Inspect.Limited
import RemoteInspect.Proofs.Inspect.Logging
import RemoteInspect.Proofs.Inspect.Measures
import RemoteInspect.Proofs.Inspect.Metatables
import RemoteInspect.Proofs.Inspect.Naming
import RemoteInspect.Proofs.Inspect.Noninterference
import RemoteInspect.Proofs.Inspect.Numbering
import RemoteInspect.Proofs.Inspect.Operations
import RemoteInspect.Proofs.Inspect.Readers
import RemoteInspect.Proofs.Inspect.ReadersAgree
import RemoteInspect.Proofs.Inspect.Rederivation
import RemoteInspect.Proofs.Inspect.Refinement
import RemoteInspect.Proofs.Inspect.Refusal
import RemoteInspect.Proofs.Inspect.Reporting
import RemoteInspect.Proofs.Inspect.Reserving
import RemoteInspect.Proofs.Inspect.Room
import RemoteInspect.Proofs.Inspect.Runs
import RemoteInspect.Proofs.Inspect.Settled
import RemoteInspect.Proofs.Inspect.Tracing
import RemoteInspect.Proofs.Inspect.Writing
import RemoteInspect.Proofs.Path.Decoding
import RemoteInspect.Proofs.Path.Encoding
import RemoteInspect.Proofs.Path.Layout
import RemoteInspect.Proofs.Path.Nodes
import RemoteInspect.Proofs.Path.StepText
import RemoteInspect.Proofs.Scalar
import RemoteInspect.Proofs.Target.CallStack
import RemoteInspect.Proofs.Target.Changes
import RemoteInspect.Proofs.Target.History
import RemoteInspect.Proofs.Target.InPlace
import RemoteInspect.Proofs.Target.KeyOrder
import RemoteInspect.Proofs.Target.Keys
import RemoteInspect.Proofs.Target.Metatables
import RemoteInspect.Proofs.Target.Order
import RemoteInspect.Proofs.Target.Reachable
import RemoteInspect.Proofs.Target.Reading
import RemoteInspect.Proofs.Target.Slot
import RemoteInspect.Proofs.Target.Sound
import RemoteInspect.Proofs.Target.Walk
import RemoteInspect.Proofs.Target.WellFormed
import RemoteInspect.Proofs.Target.Writing
import RemoteInspect.Proofs.Text.Numerals
import RemoteInspect.Proofs.Text.Quoted
import RemoteInspect.Proofs.Tree.Preorder
import RemoteInspect.Proofs.Tree.Search
