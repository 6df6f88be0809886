import Bitfold.Lib.Io
import Bitfold.Lib.Loops
import Bitfold.Lib.Bitmap
import Bitfold.Lib.Runs
import Bitfold.Lib.Network
import Bitfold.Lib.Tables
import Bitfold.Lib.Labels
import Bitfold.Core
import Bitfold.Command
import Bitfold.Codec
import Bitfold.Grammar
import Bitfold.CodecTheorems
import Bitfold.Envelope
import Bitfold.Channel
import Bitfold.ChannelTheorems
import Bitfold.Sequenced
import Bitfold.Unsequenced
import Bitfold.UnsequencedTheorems
import Bitfold.UnsequencedWindow
import Bitfold.Acknowledgment
import Bitfold.PeerParts
import Bitfold.PeersApart
import Bitfold.Clamping
import Bitfold.Throttling
import Bitfold.PathMtu
import Bitfold.Peer
import Bitfold.PeerIo
import Bitfold.Fragmenting
import Bitfold.Session
import Bitfold.SessionManager
import Bitfold.Handshake
import Bitfold.Queue
import Bitfold.Datagrams
import Bitfold.Flush
import Bitfold.Receiving
import Bitfold.Accounting
import Bitfold.AckSound
import Bitfold.AckWindow
import Bitfold.SentPackets
import Bitfold.LossReports
import Bitfold.Delivery
import Bitfold.Reassembly
import Bitfold.Completeness
import Bitfold.Messages
import Bitfold.AllOrNothing
import Bitfold.Isolation
import Bitfold.Gathering
import Bitfold.Repeats
import Bitfold.AnyOrder
import Bitfold.Mixing
import Bitfold.Transmission
import Bitfold.Sending
import Bitfold.EndToEnd
import Bitfold.Fidelity
import Bitfold.Connection
import Bitfold.Atomicity
import Bitfold.Establishing
import Bitfold.Polling
import Bitfold.Duplicates
import Bitfold.Admission
import Bitfold.Unestablished
import Bitfold.Bandwidth
import Bitfold.HeadOfQueue
import Bitfold.Lifecycle
import Bitfold.DatagramSize
import Bitfold.CutToSize
import Bitfold.Announcing
import Bitfold.ForgedReplies
import Bitfold.ProbeTimer
import Bitfold.Heartbeats
import Bitfold.Wire
import Bitfold.HandshakeSpec
import Bitfold.TwoPeers
import Bitfold.Integrity
import Bitfold.Provenance
import Bitfold.AtMostOnce
import Bitfold.Hosts
import Bitfold.Lib.Mesh
import Bitfold.Timeouts
