import DartSync.Library.KeyedList
import DartSync.Library.TreeSet
import DartSync.Library.TreeMerge
import DartSync.Library.Ring
import DartSync.Library.Buffer
import DartSync.Library.Runs
import DartSync.Library.Heap
import DartSync.Library.Stream
import DartSync.Library.Decimal
import DartSync.Library.Lanes
import DartSync.Library.Percent
import DartSync.Library.Critical
import DartSync.Library.Revisions
import DartSync.Basic
import DartSync.Queue
import DartSync.Queue.Memory
import DartSync.Queue.Calls
import DartSync.Queue.Async
import DartSync.Queue.Concat
import DartSync.LinkedList
import DartSync.LinkedList.Iterator
import DartSync.LinkedList.Calls
import DartSync.SDSet
import DartSync.SDSet.Calls
import DartSync.Serial
import DartSync.Packets
import DartSync.PeerTable
import DartSync.PeerTable.Codec
import DartSync.PeerTable.Diff
import DartSync.FileSystem.Folder
import DartSync.FileSystem.Subtract
import DartSync.FileSystem.Remove
import DartSync.FileSystem.Add
import DartSync.FileSystem.Patch
import DartSync.FileSystem.Diff
import DartSync.FileSystem.Converge
import DartSync.FileSystem.Codec
import DartSync.FileSystem.Decode
import DartSync.Messages
import DartSync.Payloads
import DartSync.ChunkyFile
import DartSync.FileSystem.Iterator
import DartSync.FileSystem.Order
import DartSync.FileSystem.PathList
import DartSync.HashTable
import DartSync.HashTable.Iterator
import DartSync.HashTable.Bag
import DartSync.HashTable.Memory
import DartSync.HashTable.Calls
import DartSync.FileTable
import DartSync.FileTable.Hash
import DartSync.FileTable.Lookup
import DartSync.FileTable.Entries
import DartSync.FileTable.OwnerMap
import DartSync.FileTable.NewWork
import DartSync.FileTable.Jobs
import DartSync.FileTable.Codec
import DartSync.FileTable.Decode
import DartSync.FileTable.ChunkIndex
import DartSync.FileSystem.RemovePath
import DartSync.FileSystem.PathComponents
import DartSync.Tracker
import DartSync.Tracker.PeerTable
import DartSync.Tracker.Pruning
import DartSync.Tracker.Liveliness
import DartSync.Tracker.Updates
import DartSync.Tracker.Departures
import DartSync.Tracker.Keys
import DartSync.Tracker.Acquisitions
import DartSync.Tracker.PollQueues
import DartSync.Tracker.Threads
import DartSync.Tracker.Tables
import DartSync.Framing
import DartSync.Tracker.ChunkGot
import DartSync.Tracker.ParseRequest
import DartSync.Tracker.Rio
import DartSync.Tracker.WebPage
import DartSync.Directory
import DartSync.Directory.Put
import DartSync.Client
import DartSync.Client.Steps
import DartSync.Client.Disk
import DartSync.Client.Adopt
import DartSync.Client.WorkQueue
import DartSync.Client.Owners
import DartSync.Client.Files
import DartSync.Client.Sizes
import DartSync.Client.Materialise
import DartSync.Client.OnDisk
import DartSync.Client.ApplyDiff
import DartSync.Client.Idle
import DartSync.Client.Edits
import DartSync.Client.Network
import DartSync.Client.Sockets
import DartSync.Client.Requests
import DartSync.Client.Delivery
import DartSync.Client.Answers
import DartSync.Client.MainLoop
import DartSync.Client.Chunks
import DartSync.Client.Causality
import DartSync.Client.ChunkBounds
import DartSync.Joining
import DartSync.Joining.Replica
import DartSync.Mirror
import DartSync.Client.Shared
import DartSync.Client.Download
import DartSync.Ownership
import DartSync.Swarm
import DartSync.Client.Follower
import DartSync.Mirror.Directory
