import Meguro.Core.Transition
import Meguro.Core.Potential
import Meguro.Core.OrderedMap
import Meguro.Core.Occurrence
import Meguro.Core.LastWrite
import Meguro.Core.Generator
import Meguro.Core.FileSystem
import Meguro.Core.Grouping
import Meguro.Core.LinkedList
import Meguro.Core.Chains
import Meguro.Core.Bits
import Meguro.Core.OutBuffer
import Meguro.Core.CodePoint
import Meguro.Core.ByteFile
import Meguro.Core.Tiling
import Meguro.Core.SearchTree
import Meguro.Core.Heapsort
import Meguro.Text.CString
import Meguro.Text.UnitSuffix
import Meguro.WritePermissions
import Meguro.Input.TokyoCabinet
import Meguro.Input.Line
import Meguro.Input.LineSplit
import Meguro.Input.LineFraming
import Meguro.Input.Files
import Meguro.Input.Listing
import Meguro.Uthash.Table
import Meguro.Uthash.Buckets
import Meguro.Uthash.Expansion
import Meguro.Uthash.Integrity
import Meguro.Uthash.Lookup
import Meguro.Uthash.ChainLength
import Meguro.Uthash.Destroy
import Meguro.Uthash.Jenkins
import Meguro.ShadowKey.Codec
import Meguro.ShadowKey.ShadowKeyMap
import Meguro.ShadowKey.Buffer
import Meguro.ShadowKey.RoundTrip
import Meguro.ShadowKey.LoadOrder
import Meguro.ShadowKey.HashTable
import Meguro.Store.Dictionary
import Meguro.HashDb.Record
import Meguro.HashDb.FreeBlockPool
import Meguro.HashDb.Database
import Meguro.HashDb.Layout
import Meguro.HashDb.Allocation
import Meguro.HashDb.WriteRec
import Meguro.HashDb.Reading
import Meguro.HashDb.Linking
import Meguro.HashDb.Represents
import Meguro.HashDb.Refinement
import Meguro.Base64.Codec
import Meguro.Base64.Encode
import Meguro.Base64.Decode
import Meguro.Mapper.Emit
import Meguro.Mapper.NoLoss
import Meguro.Mapper.Incremental
import Meguro.Mapper.Begin
import Meguro.Reducer.Begin
import Meguro.Reducer.Direct
import Meguro.Reducer.SkipMap
import Meguro.Reducer.Termination
import Meguro.Reducer.Cap
import Meguro.Reducer.Save
import Meguro.Reducer.BadPair
import Meguro.Script.Arguments
import Meguro.Script.NativeCallbacks
import Meguro.Script.Strings
import Meguro.Script.Deflate
import Meguro.Script.Inflate
import Meguro.Script.StringCache
import Meguro.Script.HashTable
import Meguro.Script.HashTableMap
import Meguro.Script.CacheTable
import Meguro.Script.Calls
import Meguro.Program
import Meguro.MapReduce
import Meguro.Queue.ThreadSafeQueue
import Meguro.Queue.Fifo
import Meguro.Queue.Wakeup
import Meguro.Queue.ProducerConsumer
import Meguro.Queue.Progress
import Meguro.Phase.Master
import Meguro.Phase.Discipline
import Meguro.Phase.Order
import Meguro.Phase.Delivery
import Meguro.Phase.Progress
import Meguro.Phase.Survival
import Meguro.Phase.Callbacks
import Meguro.Phase.Scripts
import Meguro.Sequential
import Meguro.SetCalls
import Meguro.SkipMap
import Meguro.Reducer.OwnOutput
