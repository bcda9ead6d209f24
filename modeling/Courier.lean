import Courier.AddressOptions
import Courier.Frame
import Courier.Sim.Step
import Courier.Proofs.Chunk.Codec
import Courier.Proofs.Chunk.Layout
import Courier.Proofs.Chunk.Split
import Courier.Proofs.Outbound.Message
import Courier.Proofs.Outbound.Queue
import Courier.Proofs.Outbound.Steps
import Courier.Proofs.Outbound.Turns
import Courier.Proofs.Outbound.Run
import Courier.Proofs.Outbound.Fair
import Courier.Proofs.Outbound.Departure
import Courier.Proofs.Outbound.Lifetime
import Courier.Proofs.Outbound.Store
import Courier.Proofs.Outbound.Coherent
import Courier.Proofs.Outbound.Wire
import Courier.Proofs.Outbound.Drain
import Courier.Proofs.Outbound.Resend
import Courier.Proofs.Outbound.Spared
import Courier.Proofs.Reassembly.Partial
import Courier.Proofs.Reassembly.Table
import Courier.Proofs.Reassembly.Run
import Courier.Proofs.Reassembly.Ledger
import Courier.Proofs.Link.Run
import Courier.Proofs.Link.Steps
import Courier.Proofs.Link.Near
import Courier.Proofs.Link.Far
import Courier.Proofs.Link.Exact
import Courier.Proofs.Timed.Once
import Courier.Proofs.Timed.Outlive
import Courier.Proofs.Datagram.Leaving
import Courier.Proofs.Datagram.Awaiting
import Courier.Proofs.Datagram.Hearing
import Courier.Proofs.Datagram.Admission
import Courier.Proofs.Frame.Decode
import Courier.Proofs.Frame.Grammar
import Courier.Proofs.Stream.Exact
import Courier.Proofs.Stream.Keepalive
import Courier.Proofs.Stream.Pool
import Courier.Proofs.Stream.Pooling
import Courier.Proofs.Config
import Courier.Proofs.Timed.Run
import Courier.Proofs.Timed.Steps
import Courier.Proofs.Timed.Single
import Courier.Proofs.Sim.Refused
import Courier.Proofs.Link.Room
import Courier.Proofs.Lossless.Run
import Courier.Proofs.Lossless.Steps
import Courier.Proofs.Lossless.Conserved
import Courier.Proofs.Lossless.Drained
import Courier.Proofs.Stream.Roster
import Courier.Proofs.Stream.Turns
import Courier.Proofs.Stream.Service
import Courier.Proofs.Stream.Custody
import Courier.Proofs.Stream.Outgoing
import Courier.Proofs.Stream.Accepted
import Courier.Proofs.Stream.Reached
import Courier.Proofs.Sim.Rebuilt
import Courier.Proofs.Polling
import Courier.Proofs.Reassembly.Buffer
import Courier.Proofs.Reassembly.Calls
import Courier.Proofs.Reassembly.Store
import Courier.Proofs.Datagram.Handling
import Courier.Proofs.Sim.Handled
import Courier.Proofs.Text.Integer
import Courier.Proofs.Net.IpText
import Courier.Proofs.Text.Cut
import Courier.Proofs.Resolver
import Courier.Proofs.Address
import Courier.Proofs.Reply
import Courier.Proofs.Sim.Misdirected
import Courier.Proofs.Stream.Handing
import Courier.Proofs.Stream.LifeCycle
import Courier.Proofs.Sim.Delivered
import Courier.Proofs.Sim.Driven
import Courier.Proofs.Sim.Timers
import Courier.Proofs.Sim.Lives
import Courier.Proofs.Sim.Served
import Courier.Proofs.Text.Numeral
import Courier.Proofs.Address.Grammar
import Courier.Proofs.Address.Readable
import Courier.Proofs.Reassembly.Retention
import Courier.Proofs.Sim.Settings
