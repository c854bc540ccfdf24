import Copier.Foundation.Runs
import Copier.Foundation.Ring
import Copier.Foundation.Deferred
import Copier.Foundation.Arrivals
import Copier.Foundation.Linked
import Copier.Foundation.Recent
import Copier.Foundation.Buckets
import Copier.Foundation.Reversed
import Copier.Foundation.Logs
import Copier.Foundation.Stamps
import Copier.Foundation.Words
import Copier.Queue.Submission
import Copier.Queue.Handshake
import Copier.Queue.Streaming
import Copier.Queue.Csync
import Copier.HelloWorld.Scan
import Copier.Redis.Text
import Copier.Redis.Parser
import Copier.Redis.Pipelined
import Copier.Redis.AofRecovery
import Copier.Redis.Command
import Copier.Redis.Original
import Copier.Redis.Sds
import Copier.Redis.Server
import Copier.Redis.Accesses
import Copier.Redis.Layout
import Copier.Redis.Invariant
import Copier.Redis.Refinement
import Copier.Redis.Steps
import Copier.Redis.Waits
import Copier.Redis.Commands
import Copier.Redis.Heading
import Copier.Redis.Trim
import Copier.Redis.StringObject
import Copier.Redis.Descriptor
import Copier.Redis.Inspection
import Copier.Redis.BigArgument
import Copier.Redis.Origins
import Copier.Redis.Reply
import Copier.Redis.ReplyBlocks
import Copier.Redis.ReplyProgress
import Copier.Redis.Replies
import Copier.Redis.Context
import Copier.Redis.Replication
import Copier.Redis.Proxy
import Copier.Redis.Backlog
import Copier.Redis.Psync
import Copier.Redis.Histories
import Copier.Redis.Resync
import Copier.Redis.Exchange
import Copier.Redis.Replicas
import Copier.Redis.Dict
import Copier.Redis.DictMap
import Copier.Redis.DictScan
import Copier.Redis.Intset
import Copier.Redis.CheckAndSet
import Copier.Redis.Snapshot
import Copier.Redis.Ownership
import Copier.Redis.ZeroCopy
import Copier.Tinyproxy.Buffer
import Copier.Tinyproxy.Fifo
import Copier.Tinyproxy.Body
import Copier.Tinyproxy.Relay
import Copier.Tinyproxy.Lazy
import Copier.OpenSSL.Records
import Copier.OpenSSL.Decrypt
import Copier.Protobuf.Server
import Copier.Protobuf.Stream
import Copier.Protobuf.Framing
