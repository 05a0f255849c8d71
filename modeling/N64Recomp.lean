import N64Recomp.AresBridge.AudioPcm
import N64Recomp.AresBridge.RspRing
import N64Recomp.AresBridge.RspTrace
import N64Recomp.CGenerator.IntegerOps
import N64Recomp.CGenerator.MulDiv
import N64Recomp.CGenerator.Operands
import N64Recomp.CGenerator.RelocOperands
import N64Recomp.CGenerator.RelocatedOps
import N64Recomp.CGenerator.Values
import N64Recomp.CGenerator.Yields
import N64Recomp.CLang.Expr
import N64Recomp.CLang.Integer
import N64Recomp.CLang.Word
import N64Recomp.Compression.PersSzp
import N64Recomp.Compression.Yay0
import N64Recomp.Context.Collisions
import N64Recomp.Context.Names
import N64Recomp.Context.Reloc
import N64Recomp.Context.ResolveJal
import N64Recomp.Context.Rom
import N64Recomp.Context.Types
import N64Recomp.Data.BackReference
import N64Recomp.Data.BlockWalk
import N64Recomp.Data.Blocks
import N64Recomp.Data.Except
import N64Recomp.Data.Faults
import N64Recomp.Data.FlatCode
import N64Recomp.Data.Halves
import N64Recomp.Data.KeepFirst
import N64Recomp.Data.KeyIndex
import N64Recomp.Data.LongProduct
import N64Recomp.Data.MixedRadix
import N64Recomp.Data.NumeralTexts
import N64Recomp.Data.Ring
import N64Recomp.Data.Rounds
import N64Recomp.Data.SortedSet
import N64Recomp.Data.Widths
import N64Recomp.Decompressed.CheckedReads
import N64Recomp.Decompressed.FragmentLoops
import N64Recomp.Decompressed.FragmentPairs
import N64Recomp.Decompressed.FragmentPass
import N64Recomp.Decompressed.FragmentRelocs
import N64Recomp.Decompressed.FragmentScan
import N64Recomp.Decompressed.FragmentSection
import N64Recomp.Decompressed.PatternReads
import N64Recomp.Decompressed.PatternScan
import N64Recomp.Decompressed.PointerTargets
import N64Recomp.Decompressed.Registration
import N64Recomp.Decompressed.ReturnLabels
import N64Recomp.Decompressed.ScanEnds
import N64Recomp.Decompressed.ScanReads
import N64Recomp.Decompressed.Synthesis
import N64Recomp.Decompressed.SyntheticLink
import N64Recomp.Decompressed.SyntheticRom
import N64Recomp.Elf.Baking
import N64Recomp.Elf.Pairing
import N64Recomp.Elf.SectionRelocs
import N64Recomp.Elf.SymbolIndices
import N64Recomp.Elf.Symbols
import N64Recomp.Emit.Basic
import N64Recomp.LiveGenerator.Arithmetic
import N64Recomp.LiveGenerator.Containers
import N64Recomp.LiveGenerator.LinkedBatch
import N64Recomp.LiveGenerator.Linking
import N64Recomp.LiveGenerator.Loads
import N64Recomp.LiveGenerator.Machine
import N64Recomp.LiveGenerator.MulDiv
import N64Recomp.LiveGenerator.Operands
import N64Recomp.LiveGenerator.Refines
import N64Recomp.LiveGenerator.Refusals
import N64Recomp.LiveGenerator.Stores
import N64Recomp.Mips.Control
import N64Recomp.Mips.Integer
import N64Recomp.Mips.Memory
import N64Recomp.Mips.MulDiv
import N64Recomp.Mips.UnalignedPairs
import N64Recomp.Operations
import N64Recomp.Overlays.SectionTable
import N64Recomp.Overlays.TableRows
import N64Recomp.RSPRecomp.Dispatcher
import N64Recomp.RSPRecomp.Emit
import N64Recomp.RSPRecomp.Images
import N64Recomp.RSPRecomp.Instruction
import N64Recomp.RSPRecomp.Labels
import N64Recomp.RSPRecomp.Machine
import N64Recomp.RSPRecomp.PermutationIndex
import N64Recomp.RSPRecomp.PermutationNames
import N64Recomp.RSPRecomp.Permutations
import N64Recomp.RSPRecomp.Resume
import N64Recomp.RSPRecomp.Scalar
import N64Recomp.RSPRecomp.ScalarExprs
import N64Recomp.RSPRecomp.ScalarOps
import N64Recomp.RecompModTool.BuildModContext
import N64Recomp.RecompModTool.ModContext
import N64Recomp.RecompModTool.ModRelocs
import N64Recomp.RecompModTool.ModRuns
import N64Recomp.RecompModTool.ModTables
import N64Recomp.RecompModTool.Registry
import N64Recomp.RecompModTool.VersionStrings
import N64Recomp.Recompilation.Analysis
import N64Recomp.Recompilation.BodyTransfers
import N64Recomp.Recompilation.CallTrees
import N64Recomp.Recompilation.EmittedLabels
import N64Recomp.Recompilation.ExecutableIndex
import N64Recomp.Recompilation.Execution
import N64Recomp.Recompilation.FunctionBounds
import N64Recomp.Recompilation.FunctionEnd
import N64Recomp.Recompilation.FunctionRuns
import N64Recomp.Recompilation.Instruction
import N64Recomp.Recompilation.InstructionRuns
import N64Recomp.Recompilation.Items
import N64Recomp.Recompilation.LabelTargets
import N64Recomp.Recompilation.Layout
import N64Recomp.Recompilation.LinkedHosts
import N64Recomp.Recompilation.ProcessInstruction
import N64Recomp.Recompilation.RecompileFunction
import N64Recomp.Recompilation.RecompiledFunction
import N64Recomp.Recompilation.Refusal
import N64Recomp.Recompilation.RelocCopies
import N64Recomp.Recompilation.RelocCursor
import N64Recomp.Recompilation.RelocTarget
import N64Recomp.Recompilation.Simulation
import N64Recomp.Recompilation.StaticFunctions
import N64Recomp.Recompilation.TableSizes
import N64Recomp.Recompilation.Tracker
import N64Recomp.Recompilation.TransferItems
import N64Recomp.Runtime.BigEndian
import N64Recomp.Runtime.Memory
import N64Recomp.Runtime.RecompH
import N64Recomp.Runtime.Unaligned
import N64Recomp.Sljit.Assembly
import N64Recomp.Sljit.Basic
import N64Recomp.SymbolFile.Parse
