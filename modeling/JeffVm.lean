import JeffVm.Lib.KeyedList
import JeffVm.Tape
import JeffVm.TapeBinaryRoundTrip
import JeffVm.Backtrack
import JeffVm.StackDiscipline
import JeffVm.PathExecution
import JeffVm.Pieces
import JeffVm.LoopControl
import JeffVm.CaughtStack
import JeffVm.Closure
import JeffVm.Scheduler
import JeffVm.Propagation
import JeffVm.Awaited
import JeffVm.MemoryEdges
import JeffVm.EdgeProcess
import JeffVm.Garbage
import JeffVm.Fusing
import JeffVm.Termination
import JeffVm.Destructuring
import JeffVm.AnyFile
import JeffVm.Relocation
import JeffVm.Declarations
import JeffVm.Scope
import JeffVm.SimpleMath
import JeffVm.StringReference
import JeffVm.Negation
import JeffVm.Returns
import JeffVm.Conditions
import JeffVm.OptimizerBounds
import JeffVm.LineBounds
import JeffVm.TokenText
import JeffVm.TokenQueue
import JeffVm.Hierarchy
import JeffVm.Hydration
import JeffVm.MethodResolution
import JeffVm.StringSplit
import JeffVm.Arithmetic
import JeffVm.CopyIsomorphism
import JeffVm.StringMethods
import JeffVm.Sorting
import JeffVm.Membership
import JeffVm.Hashing
import JeffVm.StructMap
import JeffVm.HttpHeader
import JeffVm.HttpRequest
import JeffVm.Lib.Cursors
import JeffVm.Iterators
import JeffVm.IteratorFrames
import JeffVm.IteratorPlaces
import JeffVm.IteratorConstructors
import JeffVm.Enumeration
import JeffVm.Gotos
import JeffVm.Lib.WhileLoop
import JeffVm.Lib.AppendLog
import JeffVm.Buffer
import JeffVm.TapeWriter
import JeffVm.ThreadPool
import JeffVm.Compiled
import JeffVm.ExpressionRuns
import JeffVm.Deadlock
import JeffVm.TapeTextRoundTrip
import JeffVm.TapeTextOrder
import JeffVm.Accepted
import JeffVm.Written
import JeffVm.WrittenReads
import JeffVm.Formulas
import JeffVm.FormulaFiles
