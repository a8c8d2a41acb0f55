import CwStation.Verification.Approvals.Pending
import CwStation.Verification.Approvals.Winner
import CwStation.Verification.Bandscan.Runs
import CwStation.Verification.Bandscan.Scoring
import CwStation.Verification.Bridge.Streaming
import CwStation.Verification.Crud.Bulk
import CwStation.Verification.Crud.Filters
import CwStation.Verification.Crud.Ordering
import CwStation.Verification.Crud.Pages
import CwStation.Verification.Crud.Partial
import CwStation.Verification.Datasets.Exports
import CwStation.Verification.Datasets.Filters
import CwStation.Verification.Decoder.Debounce
import CwStation.Verification.Decoder.Delivery
import CwStation.Verification.Decoder.Level
import CwStation.Verification.Decoder.RoundTrip
import CwStation.Verification.Decoder.Timeline
import CwStation.Verification.Documents.Copies
import CwStation.Verification.Heartbeats.Excluded
import CwStation.Verification.Heartbeats.Pruning
import CwStation.Verification.Logbook.RoundTrip
import CwStation.Verification.Logins.OneKey
import CwStation.Verification.Macros.Tags
import CwStation.Verification.Monitor.Copy
import CwStation.Verification.OAuth.Answers
import CwStation.Verification.Radio.Cycle
import CwStation.Verification.Radio.Exclusion
import CwStation.Verification.Radio.Orphans
import CwStation.Verification.Radio.Seek
import CwStation.Verification.Radio.Separation
import CwStation.Verification.Radio.Validation
import CwStation.Verification.Rigctl.Alignment
import CwStation.Verification.Scheduler.Bounds
import CwStation.Verification.Scheduler.CatchUp
import CwStation.Verification.Scheduler.Edits
import CwStation.Verification.Scheduler.Restarts
import CwStation.Verification.Search.Dialects
import CwStation.Verification.Search.Ranking
import CwStation.Verification.Search.Syntax
import CwStation.Verification.SearchIndex.Convergence
import CwStation.Verification.SearchIndex.Excluded
import CwStation.Verification.Simulate.Truth
import CwStation.Verification.Stream.Chips
import CwStation.Verification.Stream.Failures
import CwStation.Verification.Synth.Envelope
import CwStation.Verification.Tasks.Liveness
import CwStation.Verification.Tasks.Repair
import CwStation.Verification.Tasks.Supersession
import CwStation.Verification.Telemetry.Loggers
import CwStation.Verification.Telemetry.Records
import CwStation.Verification.Telemetry.Storable
import CwStation.Verification.Telemetry.Tail
import CwStation.Verification.Transmit.Lock
import CwStation.Verification.Webhooks.Headers
import CwStation.Verification.Webhooks.Pairing
import CwStation.Verification.Webhooks.Sending
import CwStation.Verification.Webhooks.Ticks
