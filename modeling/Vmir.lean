import Vmir.BinopCorrect
import Vmir.CastCorrect
import Vmir.VmSharing
import Vmir.SsaExitCorrect
import Vmir.CmpRuns
import Vmir.BitReads
import Vmir.FieldReads
import Vmir.Vbr
import Vmir.AbbrevRecords
import Vmir.Tiling
import Vmir.FirstFitHeap
import Vmir.HeapBlocks
import Vmir.HeapSafety
import Vmir.HeapReclaim
import Vmir.CxxExceptions
import Vmir.ExceptionLifetime
import Vmir.Alignment
import Vmir.TypeLayout
import Vmir.RecordLayout
import Vmir.StructLayout
import Vmir.MeasuredRuns
import Vmir.BlockParser
import Vmir.ParserTermination
import Vmir.DemandOrder
import Vmir.ConstExprs
import Vmir.ConstNumbering
import Vmir.GlobalPlacement
import Vmir.FloatCompare
import Vmir.BranchFixup
import Vmir.EmitFunction
import Vmir.BranchCorrect
import Vmir.CmpCorrect
import Vmir.CallForms
import Vmir.PrepareCall
import Vmir.CallingConvention
import Vmir.CallReturns
import Vmir.ByvalStack
import Vmir.AbbrevEncoding
import Vmir.AbbrevReads
import Vmir.GepRuns
import Vmir.EmitLoad
import Vmir.GlobalInit
import Vmir.LivenessExact
import Vmir.DeadCodeClean
import Vmir.StackOwnership
import Vmir.LoadCast
import Vmir.JitBoundary
import Vmir.DefUseComplete
import Vmir.VbrRoundTrip
import Vmir.ValueTableRuns
import Vmir.PrintfBuffer
import Vmir.StrTokCalls
import Vmir.TypeTermination
import Vmir.ReplaceComplete
import Vmir.CriticalEdgesBroken
import Vmir.AggregateSplit
import Vmir.RecordsInBounds
import Vmir.FdTableRuns
import Vmir.TriangularMatrix
import Vmir.TlsfUsage
import Vmir.HeapRealloc
import Vmir.BitIntrinsics
import Vmir.ColourSupply
import Vmir.ArgvCopy
import Vmir.ArmImmediates
import Vmir.LiteralPool
import Vmir.LiteralPoolRows
import Vmir.SwitchDispatch
import Vmir.LeaMergeExact
import Vmir.TlsfHeapUsage
import Vmir.TlsfWalk
import Vmir.PlacedValues
import Vmir.Coalescing
import Vmir.ColourPlaces
import Vmir.PassedArguments
import Vmir.RegAllocRuns
