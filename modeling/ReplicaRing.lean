import ReplicaRing.Address
import ReplicaRing.Bytes
import ReplicaRing.Cache
import ReplicaRing.Catalog
import ReplicaRing.Checksum
import ReplicaRing.Client
import ReplicaRing.Clock
import ReplicaRing.Cluster
import ReplicaRing.Config
import ReplicaRing.Digest
import ReplicaRing.Digits
import ReplicaRing.FileTree
import ReplicaRing.Index
import ReplicaRing.Index.Codec
import ReplicaRing.Json
import ReplicaRing.Locks
import ReplicaRing.Log
import ReplicaRing.Main
import ReplicaRing.Metrics
import ReplicaRing.Node
import ReplicaRing.Peer
import ReplicaRing.Peers
import ReplicaRing.Point
import ReplicaRing.Proofs.Catalog
import ReplicaRing.Proofs.Catalog.Durable
import ReplicaRing.Proofs.Catalog.Faults
import ReplicaRing.Proofs.Catalog.File
import ReplicaRing.Proofs.Catalog.Plan
import ReplicaRing.Proofs.Cluster
import ReplicaRing.Proofs.Durability
import ReplicaRing.Proofs.FileTree
import ReplicaRing.Proofs.FileTree.Access
import ReplicaRing.Proofs.Handover
import ReplicaRing.Proofs.Index.Answers
import ReplicaRing.Proofs.Index.Codec
import ReplicaRing.Proofs.Index.Grow
import ReplicaRing.Proofs.Index.Insert
import ReplicaRing.Proofs.Index.Intact
import ReplicaRing.Proofs.Index.Refinement
import ReplicaRing.Proofs.Index.Shape
import ReplicaRing.Proofs.Index.Split
import ReplicaRing.Proofs.Json
import ReplicaRing.Proofs.Log.Crash
import ReplicaRing.Proofs.Log.Disk
import ReplicaRing.Proofs.Log.Faults
import ReplicaRing.Proofs.Log.History
import ReplicaRing.Proofs.Log.LockFree
import ReplicaRing.Proofs.Log.Plan
import ReplicaRing.Proofs.Log.Read
import ReplicaRing.Proofs.Log.Readers
import ReplicaRing.Proofs.Log.Refinement
import ReplicaRing.Proofs.Log.Tail
import ReplicaRing.Proofs.Log.Threads
import ReplicaRing.Proofs.Log.World
import ReplicaRing.Proofs.Log.Write
import ReplicaRing.Proofs.Log.Writers
import ReplicaRing.Proofs.Node
import ReplicaRing.Proofs.Overtaking
import ReplicaRing.Proofs.Peers
import ReplicaRing.Proofs.Placement
import ReplicaRing.Proofs.Plan
import ReplicaRing.Proofs.Prefix
import ReplicaRing.Proofs.Protocol
import ReplicaRing.Proofs.Ranks
import ReplicaRing.Proofs.Ring.Chain
import ReplicaRing.Proofs.Ring.Ownership
import ReplicaRing.Proofs.Row
import ReplicaRing.Proofs.Run
import ReplicaRing.Proofs.Sound
import ReplicaRing.Proofs.Store
import ReplicaRing.Proofs.Store.Faults
import ReplicaRing.Proofs.Store.Listed
import ReplicaRing.Proofs.Store.Plan
import ReplicaRing.Proofs.Timed
import ReplicaRing.Proofs.Traffic
import ReplicaRing.Quoted
import ReplicaRing.Replica
import ReplicaRing.Replica.Json
import ReplicaRing.Ring.Event
import ReplicaRing.Ring.Members
import ReplicaRing.Ring.Membership
import ReplicaRing.Space
import ReplicaRing.Startup
import ReplicaRing.StorageError
import ReplicaRing.Store
import ReplicaRing.Timed
import ReplicaRing.Yaml.Cursor
import ReplicaRing.Yaml.Node
import ReplicaRing.Yaml.Scalar
import ReplicaRing.Yaml.Token
import ReplicaRing.Yaml.Value
import ReplicaRing.Proofs.Deadlines
import ReplicaRing.Proofs.Log.Stamps
import ReplicaRing.Proofs.Repairs
import ReplicaRing.Proofs.Log.Kept
import ReplicaRing.Proofs.Store.Kept
import ReplicaRing.Proofs.Deletions
import ReplicaRing.Proofs.Log.Spared
import ReplicaRing.Proofs.Log.Image
import ReplicaRing.Proofs.Redelivery
import ReplicaRing.Proofs.Cascade
import ReplicaRing.Proofs.Ring.Arcs
import ReplicaRing.Proofs.Ring.Neighbours
import ReplicaRing.Proofs.Checksum
import ReplicaRing.Proofs.Index.Damage
import ReplicaRing.Proofs.Index.WellFormed
import ReplicaRing.Proofs.Ring.Intervals
import ReplicaRing.Proofs.Ring.Cycle
import ReplicaRing.Proofs.Catalog.Damage
import ReplicaRing.Proofs.Cache
import ReplicaRing.Proofs.Log.Overlay
import ReplicaRing.Proofs.Log.Append
import ReplicaRing.Proofs.Log.Alike
import ReplicaRing.Proofs.Catalog.Order
import ReplicaRing.Proofs.Store.Effect
import ReplicaRing.Proofs.Store.Lived
import ReplicaRing.Proofs.Store.Commute
import ReplicaRing.Proofs.Space
import ReplicaRing.Proofs.Index.Height
import ReplicaRing.Proofs.Cache.Recency
import ReplicaRing.Proofs.Ring.Delivery
