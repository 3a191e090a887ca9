import PrismPath.Ebpf.FacetAgreement
import PrismPath.Ebpf.KernelAgreement
import PrismPath.Ebpf.KernelEval
import PrismPath.Ebpf.KernelEvalLemmas
import PrismPath.Ebpf.Migration
import PrismPath.Ebpf.Net
import PrismPath.Ebpf.NetEnforcement
import PrismPath.Ebpf.NetSwap
import PrismPath.Ebpf.NetWhole
import PrismPath.Ebpf.PptImage
import PrismPath.Ebpf.PptImageLemmas
import PrismPath.Ebpf.ReceiptRoot
import PrismPath.Ebpf.ResidentNode
import PrismPath.Ebpf.Selector
import PrismPath.Ebpf.SelectorPath
import PrismPath.Ebpf.TableLimits
import PrismPath.Hotswap.CryptoHost
import PrismPath.Hotswap.CryptoSwap
import PrismPath.Hotswap.FlowFloor
import PrismPath.Hotswap.LogTruth
import PrismPath.Hotswap.OutcomeAudit
import PrismPath.Hotswap.RestoreAfterCrash
import PrismPath.Hotswap.SuiteSelection
import PrismPath.Hotswap.Totality
import PrismPath.Hw.AtomWords
import PrismPath.Hw.CompileCondition
import PrismPath.Hw.CompileFlow
import PrismPath.Hw.CompiledTruth
import PrismPath.Hw.LoadSerialized
import PrismPath.Hw.NodeRouting
import PrismPath.Hw.PptInterp
import PrismPath.Hw.PptInterpAgreement
import PrismPath.Hw.PptInterpRun
import PrismPath.Hw.PptPynq
import PrismPath.Hw.PptReceipt
import PrismPath.Hw.PptReceiptRun
import PrismPath.Hw.SafeNode
import PrismPath.Hw.TableRun
import PrismPath.Hw.TargetAgreement
import PrismPath.Hw.UartTx
import PrismPath.Hw.VectorFiles
import PrismPath.Hw.ZeckCodec
import PrismPath.Hw.ZeckDecReports
import PrismPath.Hw.ZeckEncRun
import PrismPath.Kernel.Analysis
import PrismPath.Kernel.Analyze
import PrismPath.Kernel.DeadEdges
import PrismPath.Kernel.EdgeFindings
import PrismPath.Kernel.FieldPolicy
import PrismPath.Kernel.FieldSpecs
import PrismPath.Kernel.LevelMMeaning
import PrismPath.Kernel.StateWindow
import PrismPath.Kernel.StaticCheck
import PrismPath.Kernel.StuckCheck
import PrismPath.Kernel.Verdicts
import PrismPath.Ledgers.CrashResume
import PrismPath.Ledgers.FilesDigest
import PrismPath.Ledgers.FinishedRuns
import PrismPath.Ledgers.FlowLedger
import PrismPath.Ledgers.Gates
import PrismPath.Ledgers.MerkleAccumulator
import PrismPath.Ledgers.MerklePaths
import PrismPath.Ledgers.ReceiptBundle
import PrismPath.Ledgers.SignerRuns
import PrismPath.Ledgers.TornStatements
import PrismPath.Ledgers.TrailerRoundTrip
import PrismPath.Ledgers.VerifyChain
import PrismPath.Lib.Clocked
import PrismPath.Lib.Durable
import PrismPath.Lib.FloatGrammar
import PrismPath.Lib.Intervals
import PrismPath.Lib.JsonIndent
import PrismPath.Lib.JsonJoined
import PrismPath.Lib.JsonLines
import PrismPath.Lib.LineFile
import PrismPath.Lib.MerkleForest
import PrismPath.Lib.Process
import PrismPath.Lib.Reading
import PrismPath.Lib.Runs
import PrismPath.Lib.Serial
import PrismPath.Lib.Tarjan
import PrismPath.Lib.TarjanExact
import PrismPath.Lib.Terminated
import PrismPath.Mesh.Firmware
import PrismPath.Mesh.RolloutAgreement
import PrismPath.Mesh.VersionFloor
import PrismPath.Python.Alike
import PrismPath.Python.Comparable
import PrismPath.Python.Lines
import PrismPath.Python.Repr
import PrismPath.Python.SortedReload
import PrismPath.Routing.LockFile
import PrismPath.Routing.LockTree
import PrismPath.Routing.PrefilterCache
import PrismPath.Rust.CanonicalValue
import PrismPath.Rust.Condition
import PrismPath.Rust.ConditionAgreement
import PrismPath.Rust.EdgeTier
import PrismPath.Rust.Engine
import PrismPath.Rust.EngineAgreement
import PrismPath.Rust.FacetSink
import PrismPath.Rust.FibonacciCode
import PrismPath.Rust.FlowAgreement
import PrismPath.Rust.FlowAuthority
import PrismPath.Rust.Host
import PrismPath.Rust.HostLaws
import PrismPath.Rust.ManifestDigest
import PrismPath.Rust.Pack
import PrismPath.Rust.RunAgreement
import PrismPath.Rust.Spiral
import PrismPath.Rust.SpiralDecode
import PrismPath.Rust.Wire
import PrismPath.Safety.InvisibleText
import PrismPath.Safety.Policy
import PrismPath.Safety.PolicyClauses
import PrismPath.Telemetry.AckRuns
import PrismPath.Telemetry.ConcentratorFraming
import PrismPath.Telemetry.EpochJournal
import PrismPath.Telemetry.FibonacciWire
import PrismPath.Telemetry.GrayWalk
import PrismPath.Telemetry.JournalDisk
import PrismPath.Telemetry.JournalRuns
import PrismPath.Telemetry.Quantizer
import PrismPath.Telemetry.QuantizerLemmas
import PrismPath.Telemetry.Refresh
import PrismPath.Telemetry.Replay
import PrismPath.Telemetry.SelfHealIntegrity
import PrismPath.Telemetry.SpiralBands
import PrismPath.Telemetry.SpiralLayout
import PrismPath.Telemetry.SpiralRoutes
import PrismPath.Telemetry.Stability
import PrismPath.Telemetry.WireDecisions
import PrismPath.Workers.ChildPaths
import PrismPath.Workers.DueTimeouts
import PrismPath.Workers.JoinAgreement
import PrismPath.Workers.JoinPolicy
import PrismPath.Workers.Scheduler
