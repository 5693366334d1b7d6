import VoidInfer.HostKV.Prediction
import VoidInfer.Exl3.ResidentRun
import VoidInfer.Exl3.TokenRun
import VoidInfer.Exl3.ServingRetired
import VoidInfer.Exl3.LaneKvRun
import VoidInfer.Exl3.BatchedVerifyRun
import VoidInfer.Exl3.SamplingRun
import VoidInfer.Exl3.LinePoolRun
import VoidInfer.Exl3.PendingAtomic
import VoidInfer.Serve.ToolCallStream
import VoidInfer.Exl3.PrefixFlightsCancel
import VoidInfer.Exl3.HierarchyFrontiers
import VoidInfer.Exl3.CompletionEventPoolRun
import VoidInfer.Exl3.GreedyPacketBatchSafe
import VoidInfer.Serve.ResponseStoreRun
import VoidInfer.Frontend.MediaRequestsRun
import VoidInfer.Serve.ResponsesReplay
import VoidInfer.Exl3.DevicePageCacheRun
import VoidInfer.DeviceKV.Placement
import VoidInfer.HostKV.ArenaPacking
import VoidInfer.DeviceKV.HalfFloat
import VoidInfer.Exl3.ServingStorage
import VoidInfer.Exl3.SuffixProposer
import VoidInfer.Exl3.VerificationTree
import VoidInfer.Exl3.PayloadBudgetRun
import VoidInfer.Exl3.ReserveRetry
import VoidInfer.DeviceKV.HostCopies
import VoidInfer.Exl3.PackedProjection
import VoidInfer.Exl3.ReadySelection
import VoidInfer.Exl3.PrefixIndexAdmit
import VoidInfer.Exl3.Safetensors
import VoidInfer.Exl3.ColdReplayRestore
import VoidInfer.Exl3.FreshPrefill
import VoidInfer.Exl3.GrowableRegionRun
import VoidInfer.Frontend.OutputStorage
import VoidInfer.Frontend.ThinkingTrackers
import VoidInfer.Runtime.PrefixReuse
import VoidInfer.Frontend.BpeVocab
import VoidInfer.Serve.ToolCallRoundTrip
import VoidInfer.Frontend.WordMatch
import VoidInfer.Exl3.VeriCacheQueue
import VoidInfer.Exl3.ExportCopyPlan
import VoidInfer.WorkspaceLayout
import VoidInfer.DeviceKV.OscarCodes
import VoidInfer.Exl3.PackedCostPolicy
