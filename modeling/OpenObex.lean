import OpenObex.Lib.Dialog
import OpenObex.Lib.Duplex
import OpenObex.Lib.Files
import OpenObex.Lib.Mem
import OpenObex.Lib.Reel
import OpenObex.Lib.Source
import OpenObex.Lib.Tokens
import OpenObex.Lib.Trace
import OpenObex.Lib.Twin
import OpenObex.Lib.Walk
import OpenObex.Lib.Window
import OpenObex.Lib.Wp
import OpenObex.Model.Api
import OpenObex.Model.Client
import OpenObex.Model.Databuffer
import OpenObex.Model.Header
import OpenObex.Model.Indication
import OpenObex.Model.Ircp
import OpenObex.Model.IrcpClient
import OpenObex.Model.IrcpLink
import OpenObex.Model.LowLevel
import OpenObex.Model.Main
import OpenObex.Model.Object
import OpenObex.Model.Server
import OpenObex.Model.State
import OpenObex.Model.Unicode
import OpenObex.Model.Usbutils
import OpenObex.Proof.AbortFinal
import OpenObex.Proof.Accounting
import OpenObex.Proof.Admission
import OpenObex.Proof.Agreement
import OpenObex.Proof.Answer
import OpenObex.Proof.Basic
import OpenObex.Proof.Buffer
import OpenObex.Proof.ClientRole
import OpenObex.Proof.Codec
import OpenObex.Proof.Connect
import OpenObex.Proof.Containment
import OpenObex.Proof.Conversation
import OpenObex.Proof.Delivery
import OpenObex.Proof.Download
import OpenObex.Proof.Events
import OpenObex.Proof.Exchange
import OpenObex.Proof.Fill
import OpenObex.Proof.Framing
import OpenObex.Proof.Grammar
import OpenObex.Proof.Ircp
import OpenObex.Proof.IrcpClient
import OpenObex.Proof.IrcpLink
import OpenObex.Proof.Law
import OpenObex.Proof.Leftovers
import OpenObex.Proof.LowLevel
import OpenObex.Proof.Mirror
import OpenObex.Proof.Negotiation
import OpenObex.Proof.Packing
import OpenObex.Proof.Parcels
import OpenObex.Proof.Parser
import OpenObex.Proof.Party
import OpenObex.Proof.Receive
import OpenObex.Proof.Reception
import OpenObex.Proof.Reread
import OpenObex.Proof.RoleStability
import OpenObex.Proof.Runs
import OpenObex.Proof.Send
import OpenObex.Proof.Sequence
import OpenObex.Proof.ServerRole
import OpenObex.Proof.Service
import OpenObex.Proof.Session
import OpenObex.Proof.Sides
import OpenObex.Proof.Sockets
import OpenObex.Proof.Stays
import OpenObex.Proof.Steady
import OpenObex.Proof.StopAndWait
import OpenObex.Proof.Stream
import OpenObex.Proof.StreamRuns
import OpenObex.Proof.Streaming
import OpenObex.Proof.Success
import OpenObex.Proof.Transfer
import OpenObex.Proof.Transmit
import OpenObex.Proof.Transplant
import OpenObex.Proof.Unicode
import OpenObex.Proof.Upload
import OpenObex.Proof.Usbutils
import OpenObex.Proof.Writer
