import Argunix.Lib.HashMap
import Argunix.Lib.Http
import Argunix.Lib.Fold
import Argunix.Lib.Acyclic
import Argunix.Lib.Trace
import Argunix.Lib.Runs
import Argunix.Lib.Lines
import Argunix.Lib.Segments
import Argunix.Lib.JsonText
import Argunix.Lib.Base64
import Argunix.Lib.Like
import Argunix.Lib.Group
import Argunix.Lib.Json
import Argunix.Lib.Newest
import Argunix.Lib.BTreeMap
import Argunix.Lib.NixLex
import Argunix.Lib.NixParse
import Argunix.Domain
import Argunix.Eval
import Argunix.Store
import Argunix.Sched.Wfq
import Argunix.Sched.Fairness
import Argunix.Sched.Waiting
import Argunix.Sched.Ledger
import Argunix.Sched.HashOrder
import Argunix.Sched.Dag
import Argunix.Sched.StepGraph
import Argunix.Sched.Enqueue
import Argunix.Sched.Bookkeeping
import Argunix.Sched.Reachable
import Argunix.Sched.Session
import Argunix.Sched.Strategy
import Argunix.Sched.Flat
import Argunix.Sched.Loading
import Argunix.Sched.Drain
import Argunix.Sched.Cancel
import Argunix.Sched.Fate
import Argunix.Sched.Isolation
import Argunix.Sched.Sweep
import Argunix.Daemon.Plan
import Argunix.Daemon.Phase
import Argunix.Daemon.World
import Argunix.Daemon.Settled
import Argunix.Daemon.Boot
import Argunix.Daemon.Loop
import Argunix.Daemon.Abort
import Argunix.Daemon.Pool
import Argunix.Daemon.Honest
import Argunix.Daemon.Reported
import Argunix.Daemon.Cancelled
import Argunix.Daemon.Checks
import Argunix.Daemon.Verdict
import Argunix.Daemon.Resume
import Argunix.Daemon.Mail
import Argunix.Daemon.Crash
import Argunix.Daemon.MultiArch
import Argunix.Daemon.FanIn
import Argunix.Builders.Registry
import Argunix.Builders.Slots
import Argunix.Builders.Spill
import Argunix.Builders.Hub
import Argunix.Builders.Displaced
import Argunix.Builders.Waiter
import Argunix.Builders.Enroll
import Argunix.Builders.Revoke
import Argunix.Builders.Protocol
import Argunix.Builders.Framing
import Argunix.Daemon.Attempt
import Argunix.Daemon.Dispatch
import Argunix.Daemon.Gc
import Argunix.Web.Cancel
import Argunix.Web.Persist
import Argunix.Web.Supersede
import Argunix.Web.Deliveries
import Argunix.Forge.Events
import Argunix.Forge.Payload
import Argunix.Web.Webhook
import Argunix.Web.Policy
import Argunix.Web.Attribution
import Argunix.Registry.Images
import Argunix.Registry.Tags
import Argunix.Registry.ShaTags
import Argunix.Registry.Endpoint
import Argunix.Registry.BlobPool
import Argunix.Registry.PoolBooks
import Argunix.Registry.Scratch
import Argunix.Web.Badge
import Argunix.Web.Flake
import Argunix.Web.FlakeText
import Argunix.Web.FlakeServe
import Argunix.Web.FlakeUrl
import Argunix.Builder.Agent
import Argunix.Builder.BuildTask
import Argunix.Web.Deletion
import Argunix.AgentFlow.Bus
import Argunix.AgentFlow.Scheduler
import Argunix.Effects.Tags
import Argunix.Lib.Utf8
import Argunix.Nom.Parser
import Argunix.Nom.Render
import Argunix.Lib.Broadcast
import Argunix.Web.LiveLog
import Argunix.Daemon.LogTap
import Argunix.Lib.Glob
import Argunix.Web.Watched
import Argunix.AgentFlow.TaskStore
import Argunix.Lib.FileTree
import Argunix.AgentFlow.StorageBackend
import Argunix.AgentFlow.StorageManager
import Argunix.AgentFlow.Priority
import Argunix.AgentFlow.ObjectGc
import Argunix.Lib.Stops
import Argunix.Daemon.Drive
import Argunix.Daemon.Retention
