import StateHistory.Main
import StateHistory.Proofs.Session.Trace
import StateHistory.Proofs.Session.Occurrence
import StateHistory.Proofs.Session.History
import StateHistory.Proofs.Session.Notification
import StateHistory.Proofs.Session.Closing
import StateHistory.Proofs.Session.Reception
import StateHistory.Proofs.Session.Sending
import StateHistory.Proofs.Session.Moment
import StateHistory.Proofs.Session.Delivery
import StateHistory.Proofs.Session.Refusal
import StateHistory.Proofs.Session.Life
import StateHistory.Proofs.Configuration.Checked
import StateHistory.Proofs.Follow.Progress
import StateHistory.Proofs.Follow.Resume
import StateHistory.Proofs.Follow.Survivors
import StateHistory.Proofs.Follow.Attendance
import StateHistory.Proofs.Follow.Outcome
import StateHistory.Proofs.Number.Binary64
import StateHistory.Proofs.Follow.Backoff
import StateHistory.Proofs.Schema.Declaration
import StateHistory.Proofs.Schema.Inheritance
import StateHistory.Proofs.Schema.Closure
import StateHistory.Proofs.Schema.Acceptance
import StateHistory.Proofs.Schema.Safety
import StateHistory.Proofs.Schema.Grammar
import StateHistory.Proofs.Schema.Variant
import StateHistory.Proofs.Schema.Place
import StateHistory.Proofs.Schema.Object
import StateHistory.Proofs.Schema.Width
import StateHistory.Proofs.Binary.Reading
import StateHistory.Proofs.Binary.Recognition
import StateHistory.Proofs.Binary.Numbers
import StateHistory.Proofs.Binary.Spelling
import StateHistory.Proofs.Binary.Width
import StateHistory.Proofs.Binary.Cursor
import StateHistory.Proofs.Message.Reading
import StateHistory.Proofs.Message.Json
import StateHistory.Proofs.Message.Spelling
import StateHistory.Proofs.Message.Format
import StateHistory.Proofs.Message.Vector
import StateHistory.Proofs.Frame.Failure
import StateHistory.Proofs.Frame.Agreement
import StateHistory.Proofs.Frame.Tags
import StateHistory.Proofs.Frame.Requests
import StateHistory.Proofs.Frame.Reads
import StateHistory.Proofs.Schema.Equivalence
import StateHistory.Proofs.Schema.Rearrangement
import StateHistory.Proofs.Schema.Traversal
import StateHistory.Proofs.Schema.Levels
import StateHistory.Proofs.Binary.Numerals
import StateHistory.Proofs.Chain.Asset
import StateHistory.Proofs.Chain.Name
import StateHistory.Proofs.Chain.Key
import StateHistory.Proofs.Chain.Calendar
import StateHistory.Proofs.Chain.Instant
import StateHistory.Proofs.Follow.Fork
import StateHistory.Proofs.Schema.Member
import StateHistory.Proofs.Text.Digits
import StateHistory.Proofs.Configuration.Setting
import StateHistory.Proofs.Configuration.Layer
import StateHistory.Proofs.Configuration.Merging
import StateHistory.Proofs.Configuration.Keeping
import StateHistory.Proofs.Configuration.Loading
import StateHistory.Proofs.Configuration.Integer
import StateHistory.Proofs.Configuration.Known
import StateHistory.Proofs.Configuration.Precedence
import StateHistory.Proofs.Endpoint.Host
import StateHistory.Proofs.Endpoint.Location
import StateHistory.Proofs.Json.Grammar
import StateHistory.Proofs.Json.Exactness
import StateHistory.Proofs.Json.Record
import StateHistory.Proofs.Schema.Text
