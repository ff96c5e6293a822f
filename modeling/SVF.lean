import SVF.AE.CycleWTO
import SVF.AE.IntegerCastSoundness
import SVF.AE.IntervalLeftShift
import SVF.AE.IntervalRuns
import SVF.AE.MemoryWrites
import SVF.AE.PointerComparisons
import SVF.AE.StateOrder
import SVF.AE.SwitchBranch
import SVF.CFL.AliasSoundness
import SVF.CFL.BinarizedLanguage
import SVF.CFL.FilledProductions
import SVF.CFL.HybridAgreement
import SVF.CFL.OnTheFlyClosure
import SVF.CFL.SymbolPacking
import SVF.DDA.StrongUpdates
import SVF.Graphs.FieldBounds
import SVF.Graphs.FlowEncoding
import SVF.Graphs.IntraElimination
import SVF.Graphs.SVFGRestored
import SVF.Graphs.VTableSlots
import SVF.Graphs.WTORuns
import SVF.MSSA.ModRefFixpoint
import SVF.MSSA.PtsChains
import SVF.MSSA.ReachingVersions
import SVF.MSSA.RegionCoverage
import SVF.MTA.LockSpans
import SVF.MemoryModel.AccessPathOrder
import SVF.MemoryModel.CondPointsTo
import SVF.MemoryModel.CondStdSets
import SVF.MemoryModel.DiffPTDataAgreement
import SVF.MemoryModel.Normalization
import SVF.MemoryModel.PTAResultRestored
import SVF.MemoryModel.RemappedPointsTo
import SVF.MemoryModel.ReversePointsTo
import SVF.SABER.BranchConds
import SVF.SABER.IntraVFGGuard
import SVF.SABER.SliceReachability
import SVF.SVFIR.ExtCopies
import SVF.Util.ControlDependence
import SVF.Util.CoreBitVectorRuns
import SVF.Util.DistanceMatrix
import SVF.Util.RegionComponents
import SVF.WPA.FlowLeastSolution
import SVF.WPA.GepCycles
import SVF.WPA.MeldLabelling
import SVF.WPA.RepSubs
import SVF.WPA.VersionedResult
