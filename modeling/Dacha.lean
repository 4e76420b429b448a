import Dacha.Lib.Bytes
import Dacha.Lib.Run
import Dacha.Lib.Zigzag
import Dacha.Http2.FlowControl
import Dacha.Http2.Accounting
import Dacha.Crypto.ChaCha20
import Dacha.Common.Algorithms
import Dacha.Raft.Proto
import Dacha.Raft.LogMetadata
import Dacha.Raft.ConfigState
import Dacha.Raft.State
import Dacha.Raft.Core
import Dacha.Raft.Replication
import Dacha.Raft.Cycle
import Dacha.Raft.Handlers
import Dacha.Raft.MemoryLog
import Dacha.Raft.LogRefinement
import Dacha.Raft.Cluster
import Dacha.Raft.Membership
import Dacha.Raft.Proposal
import Dacha.Raft.AppendEntries
import Dacha.Raft.Commit
import Dacha.Raft.Lease
import Dacha.Raft.Safety
import Dacha.Raft.Advance
import Dacha.Raft.AdvanceHandlers
import Dacha.Raft.WorldAdvance
import Dacha.Raft.Votes
import Dacha.Crypto.Crc32c
import Dacha.SSTable.RecordLog
import Dacha.SSTable.RoundTrip
import Dacha.SSTable.InternalKey
import Dacha.SSTable.Separator
import Dacha.SSTable.Memtable
import Dacha.SSTable.SkipList
import Dacha.SSTable.VecMemtable
import Dacha.SSTable.Version
import Dacha.SSTable.Filter
import Dacha.SSTable.Manifest
import Dacha.SSTable.Db
import Dacha.SSTable.Compaction
import Dacha.SSTable.Refinement
import Dacha.SSTable.Levels
import Dacha.Protobuf.Wire
import Dacha.Protobuf.Codecs
import Dacha.Parsing.Combinators
import Dacha.Http.Syntax
import Dacha.Http.Reader
import Dacha.Http.Chunked
import Dacha.Compression.Deflate
import Dacha.Lib.MsbBits
import Dacha.Compression.Huffman
import Dacha.Hpack.StaticTables
import Dacha.Hpack.Primitive
import Dacha.Hpack.HeaderField
import Dacha.Hpack.DynamicTable
import Dacha.Hpack.Codec
import Dacha.Common.Sizes
import Dacha.Crypto.MerkleDamgard
import Dacha.Http.OutgoingChunked
import Dacha.Math.SecureUint
import Dacha.Math.SecureModulo
import Dacha.Crypto.Gcm
import Dacha.Lib.Montgomery
import Dacha.Math.Montgomery
import Dacha.Asn.Encoding
import Dacha.Asn.Der
import Dacha.Compression.LengthLimited
import Dacha.Compression.BitReader
import Dacha.Compression.Inflate
import Dacha.Common.SliceLike
import Dacha.Common.BinaryHeap
import Dacha.Compression.CyclicBuffer
import Dacha.Compression.MatchingWindow
import Dacha.Regexp.Syntax
import Dacha.Regexp.Compiler
import Dacha.Regexp.PikeVm
