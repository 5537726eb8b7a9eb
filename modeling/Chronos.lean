import Chronos.Theorems.Lifecycle
import Chronos.Theorems.Outcomes
import Chronos.Theorems.Claims
import Chronos.Theorems.Workflows
import Chronos.Theorems.WorkflowGraph
import Chronos.Theorems.Fencing
import Chronos.Theorems.AuditTrail
import Chronos.Theorems.RetryBudget
import Chronos.Theorems.Idempotency
import Chronos.Theorems.Aging
import Chronos.Theorems.AiSummary
import Chronos.Theorems.CronFiring
import Chronos.Theorems.CronTicks
import Chronos.Theorems.Subscription
import Chronos.Theorems.SweepIsolation
import Chronos.Theorems.WorkerLifecycle
import Chronos.Theorems.Deadlock
import Chronos.Theorems.PayloadBound
import Chronos.Theorems.ZombieLeases
import Chronos.Theorems.Drain
import Chronos.Theorems.CapInstall
import Chronos.Theorems.TenantIsolation
import Chronos.Theorems.ReadOnly
import Chronos.Theorems.LastOwner
import Chronos.Theorems.BatchContract
import Chronos.Theorems.BatchSingles
import Chronos.Theorems.EnqueueDependencies
import Chronos.Theorems.ClaimOrder
import Chronos.Theorems.EarnedBoost
import Chronos.Theorems.Backoff
import Chronos.Theorems.ReadyMetrics
import Chronos.Theorems.RateLimit
import Chronos.Theorems.SummaryCache
import Chronos.Theorems.TenancyBackfill
import Chronos.Theorems.SlotSignal
import Chronos.Theorems.WorkflowIds
import Chronos.Theorems.ClaimWaits
import Chronos.Theorems.LeaseOrder
import Chronos.Theorems.FirstUse
import Chronos.Theorems.Throughput
import Chronos.Theorems.Updates
import Chronos.Theorems.Admission
import Chronos.Theorems.Registration
import Chronos.Theorems.Sessions
import Chronos.Theorems.Conservation
import Chronos.Theorems.Completion
import Chronos.Theorems.WakeUps
import Chronos.Theorems.Records
import Chronos.Theorems.KeptLeases
import Chronos.Theorems.FleetView
import Chronos.Theorems.Linearizability
import Chronos.Theorems.Overview
import Chronos.Theorems.FailurePipeline
