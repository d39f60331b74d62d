import Telemetry.Agent.Allocation
import Telemetry.Agent.Caller
import Telemetry.Agent.Poller
import Telemetry.Agent.Poster
import Telemetry.Agent.Reporter
import Telemetry.Agent.Settings
import Telemetry.Agent.Sources
import Telemetry.Agent.Start
import Telemetry.Agent.Transport
import Telemetry.Binary64.Basic
import Telemetry.Binary64.Fixed
import Telemetry.Binary64.Numeral
import Telemetry.Binary64.Scaled
import Telemetry.Binary64.Shortest
import Telemetry.Bytes
import Telemetry.Counters
import Telemetry.Digest.Hmac
import Telemetry.Digest.Sha256
import Telemetry.Fault
import Telemetry.Gzip.Bits
import Telemetry.Gzip.CodeLengths
import Telemetry.Gzip.CodeTree
import Telemetry.Gzip.Crc32
import Telemetry.Gzip.Deflate
import Telemetry.Gzip.Inflate
import Telemetry.Gzip.Member
import Telemetry.Gzip.Repeats
import Telemetry.Http.Host
import Telemetry.Http.Message
import Telemetry.Http.Status
import Telemetry.Http.Target
import Telemetry.Http.Url
import Telemetry.Json.Basic
import Telemetry.Json.Number
import Telemetry.Json.Quoted
import Telemetry.Json.Reader
import Telemetry.Json.Writer
import Telemetry.Loop
import Telemetry.Main
import Telemetry.Metric
import Telemetry.Net.Address
import Telemetry.Net.Ports
import Telemetry.Net.Subnet
import Telemetry.Options.Arguments
import Telemetry.Options.Exit
import Telemetry.Options.Layers
import Telemetry.Program
import Telemetry.Proofs.Agent.Accounting
import Telemetry.Proofs.Agent.Agreement
import Telemetry.Proofs.Agent.Allocation
import Telemetry.Proofs.Agent.Attempts
import Telemetry.Proofs.Agent.Bodies
import Telemetry.Proofs.Agent.Link
import Telemetry.Proofs.Agent.Remainders
import Telemetry.Proofs.Agent.Rounds
import Telemetry.Proofs.Agent.Settlement
import Telemetry.Proofs.Agent.Transport
import Telemetry.Proofs.Binary64.Rounding
import Telemetry.Proofs.Binary64.Scaled
import Telemetry.Proofs.Binary64.Shortest
import Telemetry.Proofs.Counters
import Telemetry.Proofs.Fault
import Telemetry.Proofs.Gzip.Bits
import Telemetry.Proofs.Gzip.CodeLengths
import Telemetry.Proofs.Gzip.CodeTree
import Telemetry.Proofs.Gzip.Deflate
import Telemetry.Proofs.Gzip.Extension
import Telemetry.Proofs.Gzip.Items
import Telemetry.Proofs.Gzip.Member
import Telemetry.Proofs.Gzip.Octets
import Telemetry.Proofs.Gzip.Repeats
import Telemetry.Proofs.Gzip.WrittenCodes
import Telemetry.Proofs.Json.Document
import Telemetry.Proofs.Json.Nesting
import Telemetry.Proofs.Json.Number
import Telemetry.Proofs.Json.Parts
import Telemetry.Proofs.Json.Quoted
import Telemetry.Proofs.Labels
import Telemetry.Proofs.Net.Address
import Telemetry.Proofs.Net.Subnet
import Telemetry.Proofs.Options.Arguments
import Telemetry.Proofs.Options.Layers
import Telemetry.Proofs.Options.Settings
import Telemetry.Proofs.Seal.Blocks
import Telemetry.Proofs.Seal.Oaep
import Telemetry.Proofs.Seal.Rsa
import Telemetry.Proofs.Seal.Sealing
import Telemetry.Proofs.Server.Authenticity
import Telemetry.Proofs.Server.Calls
import Telemetry.Proofs.Server.Contract
import Telemetry.Proofs.Server.Forms
import Telemetry.Proofs.Server.Ingress
import Telemetry.Proofs.Server.Orders
import Telemetry.Proofs.Server.Outsiders
import Telemetry.Proofs.Server.Page
import Telemetry.Proofs.Server.Refusals
import Telemetry.Proofs.Server.ReplySignatures
import Telemetry.Proofs.Server.Statistics
import Telemetry.Proofs.Signature.Binding
import Telemetry.Proofs.Signature.Canonical
import Telemetry.Proofs.Store.Apart
import Telemetry.Proofs.Store.Backends
import Telemetry.Proofs.Store.Batch
import Telemetry.Proofs.Store.Disk
import Telemetry.Proofs.Store.DumpLoop
import Telemetry.Proofs.Store.Dumping
import Telemetry.Proofs.Store.Entries
import Telemetry.Proofs.Store.Histories
import Telemetry.Proofs.Store.Holdings
import Telemetry.Proofs.Store.InOrder
import Telemetry.Proofs.Store.Levels
import Telemetry.Proofs.Store.PathText
import Telemetry.Proofs.Store.Recovery
import Telemetry.Proofs.Store.Restores
import Telemetry.Proofs.Store.RoundTrip
import Telemetry.Proofs.Store.Rows
import Telemetry.Proofs.Store.Snapshot
import Telemetry.Proofs.Store.Writes
import Telemetry.Proofs.Text.Integer
import Telemetry.Proofs.Text.Marks
import Telemetry.Proofs.Text.Numeral
import Telemetry.Proofs.Wire.Received
import Telemetry.Proofs.Wire.Body
import Telemetry.Proofs.Wire.Elements
import Telemetry.Proofs.Wire.Frame
import Telemetry.Proofs.Wire.MetricJson
import Telemetry.Proofs.Wire.ReplyJson
import Telemetry.Proofs.Wire.RoundTrip
import Telemetry.Reply
import Telemetry.Seal.Base64
import Telemetry.Seal.Der
import Telemetry.Seal.KeyFile
import Telemetry.Seal.Oaep
import Telemetry.Seal.Pem
import Telemetry.Seal.Rsa
import Telemetry.Seal.Sealing
import Telemetry.Server.Answer
import Telemetry.Server.Basic
import Telemetry.Server.Body
import Telemetry.Server.Calls
import Telemetry.Server.Lifecycle
import Telemetry.Server.Page
import Telemetry.Server.Requests
import Telemetry.Server.Route
import Telemetry.Server.Settings
import Telemetry.Server.Statistics
import Telemetry.Signature
import Telemetry.Store.Basic
import Telemetry.Store.Database
import Telemetry.Store.Disk
import Telemetry.Store.Dsn
import Telemetry.Store.DumpLoop
import Telemetry.Store.Holdings
import Telemetry.Store.Locator
import Telemetry.Store.Memory
import Telemetry.Store.PathText
import Telemetry.Store.Snapshot
import Telemetry.Text.Hex
import Telemetry.Text.Integer
import Telemetry.Text.Lossy
import Telemetry.Text.Percent
import Telemetry.Text.Pieces
import Telemetry.Wire.Body
import Telemetry.Wire.Frame
import Telemetry.Wire.MetricJson
import Telemetry.Wire.Path
import Telemetry.Wire.ReplyJson
import Telemetry.Wire.Stream
import Telemetry.Yaml.Basic
import Telemetry.Yaml.Reader
import Telemetry.Yaml.Scalar
import Telemetry.Yaml.Source
import Telemetry.Yaml.Token
