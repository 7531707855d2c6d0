import A11.FiniteTable
import A11.DataTypes
import A11.PutBatch
import A11.ChunkStore
import A11.LocalChunkStore
import A11.LocalInvariant
import A11.LocalNext
import A11.LocalBatch
import A11.SqliteChunkStore
import A11.SqliteRefinement
import A11.SqlitePut
import A11.SqliteNext
import A11.Decimal
import A11.RedisChunkStore
import A11.RedisRefinement
import A11.RedisPut
import A11.RedisNext
import A11.RedisRuns
import A11.S2ChunkStore
import A11.S2Replay
import A11.S2Interrupted
import A11.ByteChunking
import A11.ByteReassembly
import A11.Ascii
import A11.Http1Codec
import A11.ChunkedDecoding
import A11.Http1Server
import A11.Http1Text
import A11.Http1Pipelining
import A11.Http1Client
import A11.SortedEntries
import A11.Json
import A11.Msgpack
import A11.MsgpackValues
import A11.StorageJson
import A11.JsonPacking
import A11.WireMsgpack
import A11.WireMsgpackRoundTrip
import A11.WireJson
import A11.WebSocketChannel
import A11.IntrusiveList
import A11.Select
import A11.SelectLists
import A11.SelectInvariant
import A11.SelectSteps
import A11.SelectRuns
import A11.SelectWaiters
import A11.ChannelLedger
import A11.MultiplexedDelivery
import A11.MultiplexedSending
import A11.WireSizes
import A11.WireStream
import A11.InProcessStream
import A11.InProcessDelivery
import A11.InProcessEndings
import A11.ChannelStream
import A11.ChannelMoves
import A11.ChannelEndings
import A11.StreamFailures
import A11.LocalClearing
import A11.Url
import A11.ActionCancel
import A11.ChunkStoreWriter
import A11.RedisSubscription
import A11.WriterInvariant
import A11.WriterSteps
import A11.WriterRuns
import A11.WriterWaiters
import A11.WriterDraining
import A11.ChunkStoreReader
import A11.StickyMimetypes
import A11.ReferenceMirror
import A11.FlowFormat
import A11.FlowIntegers
import A11.FlowOrder
import A11.SqliteRace
import A11.PathMtu
import A11.SessionEnding
import A11.JsonStrings
import A11.ContextStage
import A11.SlidingWindows
import A11.NodeMap
import A11.CompletionWatch
import A11.ContextPages
import A11.InlinePump
import A11.GlobMatching
