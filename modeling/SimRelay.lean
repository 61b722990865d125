import SimRelay.Wire.Frame
import SimRelay.Channel
import SimRelay.PayloadKey
import SimRelay.Fetched
import SimRelay.Session.Config
import SimRelay.Settings.File
import SimRelay.Rehearsal.Perform
import SimRelay.Proofs.Wire.Spelling
import SimRelay.Proofs.Call.Custody
import SimRelay.Proofs.Call.Bystanders
import SimRelay.Proofs.Store.SingleUse
import SimRelay.Proofs.Call.Pinging
import SimRelay.Proofs.Call.Requests
import SimRelay.Proofs.Call.Journey
import SimRelay.Proofs.Call.Speaking
import SimRelay.Proofs.Session.Introducing
import SimRelay.Proofs.Store.Keys
import SimRelay.Proofs.Call.Protocol
import SimRelay.Proofs.Call.Desk
import SimRelay.Proofs.Link.Dispatch
import SimRelay.Proofs.Session.Greeting
import SimRelay.Proofs.Call.Leaving
import SimRelay.Proofs.Call.Leftover
import SimRelay.Proofs.Wire.Prefixes
import SimRelay.Proofs.Wire.Framing
import SimRelay.Proofs.Call.Remnants
import SimRelay.Proofs.Call.Writers
import SimRelay.Proofs.Call.Departures
import SimRelay.Proofs.Call.Listening
import SimRelay.Proofs.Call.Receipts
import SimRelay.Proofs.Call.Questing
import SimRelay.Proofs.Call.Deadlines
import SimRelay.Proofs.Call.Attempts
import SimRelay.Proofs.Settings.Timeouts
import SimRelay.Proofs.Call.Overflow
import SimRelay.Proofs.Connect.Dialing
import SimRelay.Proofs.Call.Posting
import SimRelay.Proofs.Exchange.Routing
