import HashMapStorage.Machine.Fault
import HashMapStorage.Machine.Word
import HashMapStorage.Machine.Heap
import HashMapStorage.Machine.Chain
import HashMapStorage.Machine.Buffer
import HashMapStorage.Machine.Strings
import HashMapStorage.Machine.System
import HashMapStorage.Machine.Least
import HashMapStorage.Machine.ExchangeSort
import HashMapStorage.Machine.Text
import HashMapStorage.Machine.Queue
import HashMapStorage.Machine.Refinement
import HashMapStorage.Machine.Scan
import HashMapStorage.Machine.Deferred
import HashMapStorage.Machine.Ledger
import HashMapStorage.Data
import HashMapStorage.NodeList
import HashMapStorage.NodeListLaws
import HashMapStorage.ListContract
import HashMapStorage.Table
import HashMapStorage.TableLaws
import HashMapStorage.Hashing
import HashMapStorage.TableKeys
import HashMapStorage.TableRuns
import HashMapStorage.Serialization
import HashMapStorage.Lookup
import HashMapStorage.TableCounts
import HashMapStorage.Framing
import HashMapStorage.FramingLaws
import HashMapStorage.Reading
import HashMapStorage.Message
import HashMapStorage.MessageLaws
import HashMapStorage.Protobuf
import HashMapStorage.Fifo
import HashMapStorage.FifoRuns
import HashMapStorage.ServerLoop
import HashMapStorage.ServerLoopLaws
import HashMapStorage.Requests
import HashMapStorage.NetworkClient
import HashMapStorage.Skel
import HashMapStorage.SkelLaws
import HashMapStorage.Snapshot
import HashMapStorage.Wakeup
import HashMapStorage.Shutdown
import HashMapStorage.Verify
import HashMapStorage.Server
import HashMapStorage.Ownership
import HashMapStorage.Receiving
import HashMapStorage.Transport
import HashMapStorage.Delivery
import HashMapStorage.Closing
import HashMapStorage.Copying
import HashMapStorage.SerializationLaws
import HashMapStorage.ClientStub
import HashMapStorage.StubOps
import HashMapStorage.RoundTrip
import HashMapStorage.Answers
import HashMapStorage.Watcher
import HashMapStorage.Children
import HashMapStorage.KeyArrays
import HashMapStorage.SlotBounds
import HashMapStorage.Rounds
import HashMapStorage.Interrupts
import HashMapStorage.Commands
import HashMapStorage.Service
import HashMapStorage.Serving
import HashMapStorage.ServiceRuns
import HashMapStorage.Replies
import HashMapStorage.Remote
import HashMapStorage.MessageBlocks
import HashMapStorage.Footprint
import HashMapStorage.ClientBlocks
import HashMapStorage.Connecting
import HashMapStorage.Registering
import HashMapStorage.Draining
import HashMapStorage.Objects
import HashMapStorage.ObjectLaws
import HashMapStorage.TableObjects
import HashMapStorage.TableObjectLaws
import HashMapStorage.Releasing
import HashMapStorage.ObjectKeys
import HashMapStorage.Covering
import HashMapStorage.Storage
import HashMapStorage.StorageRuns
