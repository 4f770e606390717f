import Loadr.Agent.Link
import Loadr.Controller.StartDelivery
import Loadr.Controller.Losses
import Loadr.Deployment.Finality
import Loadr.Deployment.Reservations
import Loadr.Payload
import Loadr.Executor.Shares
import Loadr.Executor.Fleet
import Loadr.Flow.Abort
import Loadr.Flow.Rows
import Loadr.Flow.Failures
import Loadr.Flow.Groups
import Loadr.Flow.Guards
import Loadr.Flow.Parallel
import Loadr.Deployment.Pauses
import Loadr.Executor.Ramp
import Loadr.Agent.Slot
import Loadr.Protocols.Redirects
import Loadr.Protocols.Trace
import Loadr.Protocols.Sse
import Loadr.Sweep
import Loadr.Plugin.Confinement
import Loadr.Core.Federation
import Loadr.Core.Gauges
import Loadr.Core.Cookies
import Loadr.Config.Merge
import Loadr.History.Regressions
import Loadr.Flow.Throttle
import Loadr.Flow.SharedFeed
import Loadr.Executor.Pacing
import Loadr.Flow.Rendezvous
import Loadr.Config.Thresholds
import Loadr.Request.Leaves
import Loadr.Request.Decoding
import Loadr.Flow.Retry
import Loadr.Protocols.Socket
import Loadr.Plugin.CssSelect
import Loadr.Plugin.Credentials
import Loadr.Plugin.Redis
import Loadr.Plugin.Base64
