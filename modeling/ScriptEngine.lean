import ScriptEngine.CommandLine
import ScriptEngine.Config
import ScriptEngine.Construction
import ScriptEngine.Construction.Basic
import ScriptEngine.Context
import ScriptEngine.Engine
import ScriptEngine.Engine.Basic
import ScriptEngine.Engine.Compile
import ScriptEngine.Engine.Emission
import ScriptEngine.Engine.Host
import ScriptEngine.Engine.Machine
import ScriptEngine.Engine.Miss
import ScriptEngine.Error
import ScriptEngine.Graph.Basic
import ScriptEngine.Graph.Builder
import ScriptEngine.Graph.Const
import ScriptEngine.Graph.Dump
import ScriptEngine.Graph.Op
import ScriptEngine.Graph.Order
import ScriptEngine.Heap.Basic
import ScriptEngine.Heap.Coercion
import ScriptEngine.Heap.Error
import ScriptEngine.Heap.Objects
import ScriptEngine.Heap.View
import ScriptEngine.InlineCache
import ScriptEngine.Layout
import ScriptEngine.Lowering
import ScriptEngine.Lowering.Access
import ScriptEngine.Lowering.Basic
import ScriptEngine.Lowering.Calls
import ScriptEngine.Lowering.Values
import ScriptEngine.Main
import ScriptEngine.Memory
import ScriptEngine.Number.Decimal
import ScriptEngine.Number.Double
import ScriptEngine.Program
import ScriptEngine.Proofs.Meaning.Evaluation
import ScriptEngine.Proofs.Meaning.Execution
import ScriptEngine.Proofs.Meaning.Forks
import ScriptEngine.Proofs.Meaning.Functions
import ScriptEngine.Proofs.Meaning.Gaps
import ScriptEngine.Proofs.Meaning.Growth
import ScriptEngine.Proofs.Meaning.Implemented
import ScriptEngine.Proofs.Meaning.Joins
import ScriptEngine.Proofs.Meaning.Preservation
import ScriptEngine.Proofs.Meaning.Raising
import ScriptEngine.Proofs.Meaning.Reading
import ScriptEngine.Proofs.Meaning.Simulation
import ScriptEngine.Proofs.Meaning.Steps
import ScriptEngine.Proofs.Meaning.Walk
import ScriptEngine.Proofs.State
import ScriptEngine.Report
import ScriptEngine.Scope
import ScriptEngine.Shape
import ScriptEngine.Space
import ScriptEngine.Stub.Allocation
import ScriptEngine.Stub.Basic
import ScriptEngine.Stub.Library
import ScriptEngine.Stub.Operators
import ScriptEngine.Stub.Properties
import ScriptEngine.Syntax.Expressions
import ScriptEngine.Syntax.Literals
import ScriptEngine.Syntax.Patterns
import ScriptEngine.Syntax.Reader
import ScriptEngine.Syntax.Statements
import ScriptEngine.Syntax.Token
import ScriptEngine.Syntax.Tree
import ScriptEngine.Text.Quoted
import ScriptEngine.Text.Ranges
import ScriptEngine.Word
import ScriptEngine.Proofs.Heap.Allocation
import ScriptEngine.Proofs.Heap.Words
import ScriptEngine.Proofs.Heap.Bytes
import ScriptEngine.Proofs.Heap.Contents
import ScriptEngine.Proofs.Heap.Display
import ScriptEngine.Proofs.Heap.Fresh
import ScriptEngine.Proofs.Heap.History
import ScriptEngine.Proofs.Heap.Elements
import ScriptEngine.Proofs.Heap.Interning
import ScriptEngine.Proofs.Heap.Invariant
import ScriptEngine.Proofs.Heap.Start
import ScriptEngine.Proofs.Heap.HiddenClasses
import ScriptEngine.Proofs.Heap.ObjectModel
import ScriptEngine.Proofs.Heap.Portions
import ScriptEngine.Proofs.Heap.Paging
import ScriptEngine.Proofs.Engine.Compiling
import ScriptEngine.Proofs.Engine.Planned
import ScriptEngine.Proofs.Graph.Constructed
import ScriptEngine.Proofs.Lowering.Editing
import ScriptEngine.Proofs.Lowering.Faithful
import ScriptEngine.Proofs.Lowering.Framing
import ScriptEngine.Proofs.Lowering.Lowered
import ScriptEngine.Proofs.Engine.Scoping
import ScriptEngine.Proofs.Engine.Stubs
import ScriptEngine.Proofs.Meaning.World
import ScriptEngine.Proofs.Machine.Areas
import ScriptEngine.Proofs.Machine.Dispatch
import ScriptEngine.Proofs.Machine.Operators
import ScriptEngine.Proofs.Engine.Keeping
import ScriptEngine.Proofs.Heap.Granting
import ScriptEngine.Proofs.Heap.Parts
import ScriptEngine.Proofs.Machine.Access
import ScriptEngine.Proofs.Machine.Allocation
import ScriptEngine.Proofs.Machine.Compounds
import ScriptEngine.Proofs.Machine.Coercions
import ScriptEngine.Proofs.Machine.Equality
import ScriptEngine.Proofs.Machine.Parking
import ScriptEngine.Proofs.Machine.Refusal
import ScriptEngine.Proofs.Heap.Roots
import ScriptEngine.Proofs.Number.Whole
import ScriptEngine.Proofs.Machine.Signs
import ScriptEngine.Proofs.Lowering.Identity
import ScriptEngine.Proofs.Graph.References
import ScriptEngine.Proofs.Engine.Numbering
import ScriptEngine.Proofs.Engine.Contexts
import ScriptEngine.Proofs.Graph.Postorder
import ScriptEngine.Proofs.Graph.Arena
import ScriptEngine.Proofs.Machine.Passing
import ScriptEngine.Proofs.Heap.Conduct
import ScriptEngine.Proofs.Heap.Delivering
import ScriptEngine.Proofs.Machine.Answers
import ScriptEngine.Proofs.Machine.Enduring
