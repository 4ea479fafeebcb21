import Art.Dex.Instruction
import Art.Verifier.MethodVerifier
import Art.Runtime.FillArrayData
import Art.Compiler.Nodes
import Art.Compiler.InstructionSimplifier
import Art.Compiler.BoundsCheckElimination
import Art.Compiler.TypeConversion
import Art.Mirror.String
import Art.Lib.BitStream
import Art.Base.BitMemoryRegion
import Art.Base.BitTable
import Art.Lib.MagicDivision
import Art.Lib.Dominance
import Art.Compiler.Graph
import Art.Compiler.CodeGeneratorArm64
import Art.Compiler.CodeGeneratorUtils
import Art.Lib.SignedDivision
import Art.Compiler.CodeGeneratorX8664
import Art.Compiler.DivRemByConstant
import Art.Lib.Cursor
import Art.Base.Leb128
import Art.Dex.CompactOffsetTable
import Art.Lib.CountedLoop
import Art.Compiler.InductionVarAnalysis
import Art.Compiler.InductionVarRange
import Art.Lib.BitScan
import Art.Lib.Trace
import Art.Gc.SpaceBitmap
import Art.Gc.MarkCompact
import Art.Compiler.LastValue
import Art.Lib.BitFields
import Art.Lib.LexSign
import Art.Dex.Utf
import Art.Gc.ImmuneSpaces
import Art.Runtime.JniString
import Art.Lib.CappedSet
import Art.Lib.KeyedFold
import Art.Profile.ProfileCompilationInfo
import Art.Lib.SignedField
import Art.Compiler.AssemblerRiscv64
import Art.Base.Leb128Update
import Art.Lib.WordLoop
import Art.Base.BitVector
import Art.Base.BitVectorSet
import Art.Base.BitTableDedup
import Art.Lib.WindowSearch
import Art.Gc.RegionSpace
import Art.Lib.BitChunks
import Art.Base.BitMemoryRegionChunks
import Art.Lib.LinearProbe
import Art.Base.HashSet
import Art.Base.HashSetLookup
import Art.Base.HashSetLoad
import Art.Lib.IntervalList
import Art.Compiler.LiveInterval
import Art.Compiler.LiveIntervalScan
import Art.Lib.Dataflow
import Art.Compiler.SsaLiveness
import Art.Lib.ParallelAssignment
import Art.Compiler.ParallelMoveResolver
import Art.Compiler.ParallelMoveResolverWithSwap
