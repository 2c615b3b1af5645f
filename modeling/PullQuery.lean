import PullQuery.Assoc
import PullQuery.Binary64
import PullQuery.Binary64.Shortest
import PullQuery.Bitmap.Algebra
import PullQuery.Bitmap.Basic
import PullQuery.Bitmap.Lossify
import PullQuery.Bitmap.OffsetSet
import PullQuery.Bitmap.Page
import PullQuery.Bitmap.Words
import PullQuery.Bytes
import PullQuery.Context
import PullQuery.Count
import PullQuery.Each
import PullQuery.Error
import PullQuery.Execution
import PullQuery.Expr.Basic
import PullQuery.Expr.Eval
import PullQuery.Hash.Config
import PullQuery.Hash.Digest
import PullQuery.Hash.KeyHash
import PullQuery.Hash.Table
import PullQuery.Heap.Basic
import PullQuery.Heap.Pages
import PullQuery.Heap.Relation
import PullQuery.Heap.Scan
import PullQuery.Heap.Visibility
import PullQuery.Index.Ordered
import PullQuery.Index.ScanKey
import PullQuery.Keyed
import PullQuery.Node.Base
import PullQuery.Node.BitmapScan
import PullQuery.Node.HashBuild
import PullQuery.Node.Lifecycle
import PullQuery.Node.SeqScan
import PullQuery.Node.SubqueryScan
import PullQuery.Node.Tree
import PullQuery.Operator
import PullQuery.Plan
import PullQuery.Row
import PullQuery.Shape
import PullQuery.Slot
import PullQuery.Snapshot
import PullQuery.Sort
import PullQuery.Spill.Codec
import PullQuery.Spill.Store
import PullQuery.Storage.Fault
import PullQuery.Tid
import PullQuery.Value
import PullQuery.Proofs.Spill.Files
import PullQuery.Proofs.Hash.Rows
import PullQuery.Proofs.Hash.Ledger
import PullQuery.Proofs.Hash.Batches
import PullQuery.Proofs.Hash.Unlimited
import PullQuery.Proofs.Hash.Requests
import PullQuery.Proofs.Hash.Refinement
import PullQuery.Proofs.Hash.Loss
import PullQuery.Proofs.Bitmap.LowestBits
import PullQuery.Proofs.Bitmap.Offsets
import PullQuery.Proofs.Bitmap.Candidates
import PullQuery.Proofs.Expr.Truth
import PullQuery.Proofs.Index.Coverage
import PullQuery.Proofs.Index.Scan
import PullQuery.Proofs.Hash.KeyHash
import PullQuery.Proofs.Hash.Probe
import PullQuery.Proofs.Bitmap.Exactness
import PullQuery.Proofs.Node.Requests
import PullQuery.Proofs.Node.BitmapTrees
import PullQuery.Proofs.Heap.Position
import PullQuery.Proofs.Node.Pulls
import PullQuery.Proofs.Execution.Walk
import PullQuery.Proofs.Node.Contexts
import PullQuery.Proofs.Hash.Building
import PullQuery.Proofs.Node.Likeness
import PullQuery.Proofs.Node.Observations
import PullQuery.Proofs.Node.Running
import PullQuery.Proofs.Node.Settled
import PullQuery.Proofs.Node.Restart
import PullQuery.Proofs.Node.WholeInput
import PullQuery.Proofs.Bitmap.Programs
import PullQuery.Proofs.Bitmap.Laws
import PullQuery.Proofs.Execution.Stability
import PullQuery.Proofs.Node.Initializing
import PullQuery.Proofs.Node.Idle
import PullQuery.Proofs.Node.Coherence
import PullQuery.Proofs.Node.Positions
import PullQuery.Proofs.Requests
import PullQuery.Proofs.Spill.Delimiting
import PullQuery.Proofs.Spill.Queues
import PullQuery.Proofs.Bitmap.Additions
import PullQuery.Proofs.Index.Multiset
import PullQuery.Proofs.Bitmap.Entries
import PullQuery.Proofs.Bitmap.MemoryBound
import PullQuery.Proofs.Bitmap.Intersections
import PullQuery.Proofs.Bitmap.Observers
import PullQuery.Proofs.Bitmap.Shrinking
import PullQuery.Proofs.Node.EarlyStop
import PullQuery.Proofs.Bitmap.Confluence
import PullQuery.Proofs.Hash.Memory
import PullQuery.Proofs.Hash.Budget
import PullQuery.Proofs.Hash.Transfers
import PullQuery.Proofs.Hash.Sizing
import PullQuery.Proofs.Hash.Placement
import PullQuery.Proofs.Hash.Reservations
import PullQuery.Proofs.Node.HashCounters
import PullQuery.Proofs.Node.RowCounts
import PullQuery.Proofs.Node.Conservation
import PullQuery.Proofs.Node.Errors
import PullQuery.Proofs.Node.Refusals
import PullQuery.Proofs.Node.Arity
import PullQuery.Proofs.Node.RowIndependence
import PullQuery.Proofs.Heap.Cursor
import PullQuery.Proofs.Heap.BlockVisits
import PullQuery.Proofs.Heap.Locations
import PullQuery.Proofs.Heap.VersionChain
import PullQuery.Proofs.Expr.Integers
import PullQuery.Proofs.Expr.ThreeValued
import PullQuery.Proofs.Expr.Comparisons
import PullQuery.Proofs.Bitmap.Unions
import PullQuery.Proofs.Index.KeyLists
import PullQuery.Proofs.Heap.TidEncoding
import PullQuery.Proofs.Value.Floats
import PullQuery.Proofs.Value.Order
import PullQuery.Proofs.Hash.Rounds
