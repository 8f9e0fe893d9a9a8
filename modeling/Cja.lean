import Cja.Lib.StepRun
import Cja.Lib.KeyedTable
import Cja.Lib.Fallible
import Cja.Lib.FileSystem
import Cja.Lib.Utf8
import Cja.Lib.While
import Cja.Lib.Search
import Cja.Lib.LinkTree
import Cja.Lib.Locked
import Cja.Lib.FileTree
import Cja.Lib.Semaphore
import Cja.Lib.Text
import Cja.Lib.TaskLocal
import Cja.Lib.Judged
import Cja.Lib.Base64
import Cja.Jobs.Tables
import Cja.Jobs.Worker
import Cja.Jobs.Steps
import Cja.Jobs.Life
import Cja.Jobs.Refinement
import Cja.Jobs.Simulation
import Cja.Jobs.Conservation
import Cja.Jobs.Charging
import Cja.Jobs.Backoff
import Cja.Jobs.Owners
import Cja.Jobs.Attempts
import Cja.Jobs.Lease
import Cja.Jobs.Payload
import Cja.Jobs.Kept
import Cja.Jobs.Exhausted
import Cja.Jobs.Shutdown
import Cja.Jobs.Heartbeat
import Cja.Jobs.LoopRefinement
import Cja.Jobs.Gate
import Cja.Jobs.Wake
import Cja.Jobs.Registry
import Cja.Jobs.Drain
import Cja.Jobs.Settle
import Cja.Cron.Schedule
import Cja.Cron.Claim
import Cja.Cron.ExactlyOnce
import Cja.Cron.Worker
import Cja.Cron.Scheduled
import Cja.Durable.Db
import Cja.Durable.RowInvariant
import Cja.Durable.Rig
import Cja.Durable.Attempt
import Cja.Durable.Engine
import Cja.Durable.EngineSteps
import Cja.Durable.Holders
import Cja.Durable.System
import Cja.Durable.Retries
import Cja.Durable.Orphans
import Cja.Durable.Transcript
import Cja.Durable.View
import Cja.Durable.Course
import Cja.Durable.Resume
import Cja.Durable.Cancel
import Cja.Durable.Budget
import Cja.Durable.Wire
import Cja.Durable.CancelWork
import Cja.Durable.SingleAdvancer
import Cja.Durable.Answers
import Cja.Durable.Sanitize
import Cja.Passkeys.Routes
import Cja.Passkeys.Effects
import Cja.Passkeys.Login
import Cja.Passkeys.SingleUse
import Cja.Passkeys.AllOrNothing
import Cja.Passkeys.Counter
import Cja.Passkeys.Extractors
import Cja.Passkeys.Client
import Cja.Server.Session
import Cja.Server.Trace
import Cja.Tasks.Supervisor
import Cja.Testing.Reaper
import Cja.Testing.Separation
import Cja.Testing.MockOauth
import Cja.Cli.Migrations
import Cja.Secret.Refresher
import Cja.Secret.Boot
import Cja.Llm.Redaction
import Cja.Llm.Transport
import Cja.Llm.Usage
import Cja.Llm.Stream
import Cja.Llm.Retries
import Cja.Assets.Builder
import Cja.Assets.Manifest
import Cja.Assets.Names
import Cja.Assets.SourceMap
import Cja.Assets.Order
import Cja.Assets.Served
import Cja.Assets.Embedded
import Cja.Assets.Urls
import Cja.Assets.Directives
import Cja.Assets.Visible
import Cja.Assets.Graph
import Cja.Assets.Totality
import Cja.Assets.Watch
import Cja.Assets.Imports
import Cja.Assets.Bundler
import Cja.Tools.Resolve
import Cja.Tools.Environment
import Cja.Eyes.Manifest
