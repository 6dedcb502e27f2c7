import BullMQ.Text.Search
import BullMQ.Redis.SortedSet
import BullMQ.Redis.Order
import BullMQ.Sql.Table
import BullMQ.Priority.Line
import BullMQ.Priority.Trace
import BullMQ.Redis.Collections
import BullMQ.Redis.Keyspace
import BullMQ.Transition.Run
import BullMQ.Transition.Edges
import BullMQ.Model.Keys
import BullMQ.Model.Store
import BullMQ.Model.Enqueue
import BullMQ.Model.Parent
import BullMQ.Model.Dedup
import BullMQ.Model.Add
import BullMQ.Model.Fetch
import BullMQ.Model.Remove
import BullMQ.Model.Finish
import BullMQ.Model.Maintain
import BullMQ.Model.Cleanup
import BullMQ.Model.Scheduler
import BullMQ.Model.Command
import BullMQ.Model.QueueCommand
import BullMQ.Model.Flow
import BullMQ.Model.Orphans
import BullMQ.Model.Bulk
import BullMQ.Model.EventLimit
import BullMQ.Flow.Entries
import BullMQ.Flow.Tree
import BullMQ.Flow.Descendants
import BullMQ.Flow.Links
import BullMQ.Model.Activation
import BullMQ.Placement.Basic
import BullMQ.Model.GetJobs
import BullMQ.Placement.Evolution
import BullMQ.Placement.Helpers
import BullMQ.Placement.Retention
import BullMQ.Placement.Scripts
import BullMQ.Placement.Commands
import BullMQ.Placement.Children
import BullMQ.Placement.Ownership
import BullMQ.Placement.StalledCheck
import BullMQ.Claims.Register
import BullMQ.Dedup.View
import BullMQ.Dedup.Adds
import BullMQ.Dedup.Jobs
import BullMQ.Dedup.Sweeps
import BullMQ.Dedup.Finish
import BullMQ.Dedup.Numbered
import BullMQ.Dedup.Iterations
import BullMQ.Naming.Unheard
import BullMQ.Naming.Scripts
import BullMQ.Naming.Sweeps
import BullMQ.Naming.Obliterated
import BullMQ.Naming.Housed
import BullMQ.Naming.HousedScripts
import BullMQ.Properties.OneState
import BullMQ.Properties.Locks
import BullMQ.Properties.Stalled
import BullMQ.Properties.ErrorCodes
import BullMQ.Properties.Concurrency
import BullMQ.Properties.RateLimit
import BullMQ.Properties.FlowAtomicity
import BullMQ.Properties.ChildAccounts
import BullMQ.Properties.Removal
import BullMQ.Properties.Forest
import BullMQ.Properties.UpsertCollision
import BullMQ.Properties.PendingIteration
import BullMQ.Properties.SchedulerAdvance
import BullMQ.Properties.Drain
import BullMQ.Properties.FreshIds
import BullMQ.Properties.Orphans
import BullMQ.Properties.BulkAdd
import BullMQ.Properties.JobIds
import BullMQ.Properties.Deduplication
import BullMQ.Properties.PushBack
import BullMQ.Properties.PriorityOrder
import BullMQ.Postgres.Schema
import BullMQ.Postgres.Dedup
import BullMQ.Postgres.Flow
import BullMQ.Postgres.Add
import BullMQ.Properties.BulkFastPath
import BullMQ.Properties.EventTrim
import BullMQ.Postgres.Process
import BullMQ.Postgres.Admin
import BullMQ.Postgres.Scheduler
import BullMQ.Properties.SchedulerAgreement
import BullMQ.Postgres.Command
import BullMQ.Sql.Rows
import BullMQ.Postgres.Evolution
import BullMQ.Properties.StalledMarks
import BullMQ.Properties.LockedRemoval
import BullMQ.Postgres.Holders
import BullMQ.Postgres.Admission
import BullMQ.Properties.DedupRows
import BullMQ.Properties.DedupPayload
import BullMQ.Properties.FailedChildren
import BullMQ.Properties.IntervalLaw
import BullMQ.Postgres.Metrics
import BullMQ.Properties.Metrics
import BullMQ.Properties.Release
import BullMQ.Properties.DueClaims
import BullMQ.Redis.Bands
import BullMQ.Properties.DelayedScores
import BullMQ.Model.Worker
import BullMQ.Properties.Attempts
import BullMQ.Properties.Retention
import BullMQ.Model.Queue
import BullMQ.Properties.Clean
import BullMQ.Properties.FailureAgreement
import BullMQ.Properties.LegacyKeys
import BullMQ.Properties.JobKeys
import BullMQ.Properties.Paging
import BullMQ.Redis.Scan
import BullMQ.Model.Paginate
import BullMQ.Properties.Pagination
import BullMQ.Properties.Resume
import BullMQ.Properties.BulkLoops
import BullMQ.Async.Fifo
import BullMQ.Model.AddNodes
import BullMQ.Properties.FlowOrder
import BullMQ.Model.AsyncFifoQueue
import BullMQ.Properties.FifoDelivery
import BullMQ.Model.ScriptLoader
import BullMQ.Text.Inclusion
import BullMQ.Properties.Directives
import BullMQ.Properties.Templates
import BullMQ.Properties.Resolution
import BullMQ.Properties.LoaderEnds
import BullMQ.Properties.Assembly
import BullMQ.Model.States
import BullMQ.Properties.States
import BullMQ.Wakeups.Relation
import BullMQ.Wakeups.Scripts
import BullMQ.Wakeups.Commands
import BullMQ.Model.Blocking
import BullMQ.Properties.Wakeups
import BullMQ.Model.MainLoop
import BullMQ.Properties.MainLoop
import BullMQ.Model.ChildPool
import BullMQ.Properties.ChildPool
import BullMQ.Renewal.Locks
import BullMQ.Model.LockManager
import BullMQ.Properties.Renewal
import BullMQ.Properties.Exclusive
import BullMQ.Lifecycle.Within
import BullMQ.Lifecycle.Scripts
import BullMQ.Properties.Lifecycle
