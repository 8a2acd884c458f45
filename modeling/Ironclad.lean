import Ironclad.Pointers.SpatialSafety
import Ironclad.Pointers.NullEmpty
import Ironclad.Pointers.Escape
import Ironclad.Pointers.Narrowing
import Ironclad.Pointers.NullTests
import Ironclad.Pointers.RoundTrip
import Ironclad.Pointers.Agreement
import Ironclad.Pointers.Displacement
import Ironclad.Pointers.CastChains
import Ironclad.Pointers.CastPositions
import Ironclad.Pointers.FixedArrays
import Ironclad.Pointers.Iteration
import Ironclad.Pointers.Allocators
import Ironclad.Pointers.AssignmentRule
import Ironclad.Pointers.AlignedArrays
import Ironclad.Pointers.Matrices
import Ironclad.Pointers.VariableSize
import Ironclad.Pointers.ArrayMeaning
import Ironclad.Analysis.ValueFlows
import Ironclad.Analysis.Records
import Ironclad.Analysis.AnalysisFile
import Ironclad.Analysis.UniqueKeys
import Ironclad.Gc.Kinds
import Ironclad.Gc.PreciseGarbage
import Ironclad.Gc.PreciseScan
import Ironclad.Gc.Constructed
import Ironclad.Gc.RangeSplit
import Ironclad.Gc.BlockGuarantees
import Ironclad.Gc.TypedTables
import Ironclad.Gc.TypedArrays
import Ironclad.Validator.Addresses
import Ironclad.Translator.Groups
import Ironclad.Translator.FixOutput
import Ironclad.Translator.StrayBounds
import Ironclad.Translator.CleanArray
import Ironclad.Translator.Allocations
import Ironclad.Translator.TypeNames
import Ironclad.Wrappers.FastCopy
import Ironclad.Wrappers.StreamIO
import Ironclad.Wrappers.Counted
import Ironclad.Wrappers.Appending
import Ironclad.Wrappers.Tokens
import Ironclad.Wrappers.Formats
import Ironclad.Wrappers.Overlapping
import Ironclad.Wrappers.Filling
import Ironclad.Wrappers.Initializers
import Ironclad.Wrappers.Realloc
import Ironclad.Wrappers.Reduction
