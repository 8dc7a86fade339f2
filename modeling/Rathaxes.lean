import Rathaxes.Back.Gen
import Rathaxes.Back.TypeCheck
import Rathaxes.CodeWorker.Position
import Rathaxes.CodeWorker.Table
import Rathaxes.CodeWorker.Text
import Rathaxes.Laws.ConfigMatcher
import Rathaxes.Laws.Gen
import Rathaxes.Laws.Load
import Rathaxes.Laws.Query
import Rathaxes.Laws.Session
import Rathaxes.Laws.TypeCheck
import Rathaxes.Link.ConfigMatcher
import Rathaxes.Link.Load
import Rathaxes.Link.Query
import Rathaxes.Link.Session
import Rathaxes.Node.Back
import Rathaxes.Node.RType
import Rathaxes.Node.With
import Rathaxes.Resolve.Block
import Rathaxes.Resolve.Pointcut
import Rathaxes.Laws.Pointcut
import Rathaxes.Back.Introspect
import Rathaxes.Laws.Introspect
import Rathaxes.Resolve.Implementation
import Rathaxes.Laws.Implementation
import Rathaxes.CodeWorker.DepthFirst
import Rathaxes.Resolve.TypeReordering
import Rathaxes.Laws.TypeRegistration
import Rathaxes.Laws.TypeReordering
import Rathaxes.Link.Merge
import Rathaxes.Laws.Merge
import Rathaxes.Laws.Registration
import Rathaxes.CodeWorker.Grouping
import Rathaxes.Laws.WeavingOrder
import Rathaxes.CodeWorker.FileSystem
import Rathaxes.Link.Validate
import Rathaxes.Link.Install
import Rathaxes.Laws.Validate
import Rathaxes.Laws.StoredNames
import Rathaxes.Laws.MergeTotal
import Rathaxes.Laws.Install
import Rathaxes.Front.Call
import Rathaxes.Laws.Arguments
import Rathaxes.CodeWorker.Descent
import Rathaxes.Mid.Interface
import Rathaxes.Laws.Interface
import Rathaxes.Laws.Serial
import Rathaxes.Laws.Mangle
import Rathaxes.Laws.Declarations
import Rathaxes.Back.Lookup
import Rathaxes.Laws.SequenceLookup
import Rathaxes.Laws.PointcutLookup
import Rathaxes.Laws.Normalize
import Rathaxes.Back.InferTypes
import Rathaxes.Laws.InferTypes
import Rathaxes.CodeWorker.Reader
import Rathaxes.Parse.Value
import Rathaxes.Laws.Value
import Rathaxes.CodeWorker.Pass
import Rathaxes.Mid.TypeCheck
import Rathaxes.Laws.SoundLookup
import Rathaxes.Laws.Qualification
import Rathaxes.Laws.Versions
import Rathaxes.CodeWorker.Bits
import Rathaxes.Front.Register
import Rathaxes.Laws.Number
import Rathaxes.Laws.Register
import Rathaxes.Laws.Calls
import Rathaxes.Laws.TypeLookup
import Rathaxes.Laws.ScopedPointcut
import Rathaxes.Resolve.TypeMap
import Rathaxes.Laws.TypeMap
import Rathaxes.Laws.SequenceScope
import Rathaxes.CLang.Pointer
import Rathaxes.Resolve.Transcribe
import Rathaxes.Back.ChunkCall
import Rathaxes.Laws.ChunkCall
import Rathaxes.Laws.Transcribe
import Rathaxes.Front.Sequence
import Rathaxes.Laws.SequenceCalls
import Rathaxes.Back.PlaceHolders
import Rathaxes.Laws.PlaceHolderTrace
import Rathaxes.Laws.PlaceHolders
import Rathaxes.Laws.PlaceHolderOrder
import Rathaxes.Back.Meta
import Rathaxes.Laws.Meta
import Rathaxes.Laws.PlaceHolderTypes
import Rathaxes.Back.TemplateSpec
import Rathaxes.Laws.TypeTemplate
import Rathaxes.Laws.PointcutReach
import Rathaxes.Laws.SequenceTemplate
import Rathaxes.CodeWorker.Numeral
import Rathaxes.Laws.Hexadecimal
import Rathaxes.Laws.Builtintype
import Rathaxes.CodeWorker.Nested
import Rathaxes.Laws.Config
import Rathaxes.Parse.Prototype
import Rathaxes.Laws.Prototype
import Rathaxes.Laws.Dependences
import Rathaxes.CodeWorker.Raise
import Rathaxes.Laws.Instance
import Rathaxes.Laws.Recursion
import Rathaxes.Laws.Driver
import Rathaxes.Front.Generate
import Rathaxes.Laws.Device
import Rathaxes.Laws.Generate
import Rathaxes.Back.TypeHash
import Rathaxes.Laws.TypeHash
import Rathaxes.Laws.Parameters
