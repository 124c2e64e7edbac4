import VersionedTrie.Bytes.Basic
import VersionedTrie.Bytes.Order
import VersionedTrie.Bytes.Hex
import VersionedTrie.Bytes.Text
import VersionedTrie.Digest.Blake3
import VersionedTrie.Digest.Basic
import VersionedTrie.Digest.Xxh64
import VersionedTrie.Path
import VersionedTrie.StoredPath
import VersionedTrie.NodeKey.Basic
import VersionedTrie.Error
import VersionedTrie.NodeKey.Layout
import VersionedTrie.Node.Basic
import VersionedTrie.Node.Layout
import VersionedTrie.NodeCache
import VersionedTrie.Volume.PathText
import VersionedTrie.Volume.Basic
import VersionedTrie.Store.Batch
import VersionedTrie.Store.Zstandard
import VersionedTrie.Store.FrameLog
import VersionedTrie.Store.LogStore
import VersionedTrie.Store.Basic
import VersionedTrie.Trie.Basic
import VersionedTrie.Trie.Descent
import VersionedTrie.Trie.Changes
import VersionedTrie.Trie.Insert
import VersionedTrie.Trie.Remove
import VersionedTrie.Trie.Update
import VersionedTrie.Journal
import VersionedTrie.Inclusion
import VersionedTrie.Traversal.Queue
import VersionedTrie.Traversal.Basic
import VersionedTrie.Traversal.Schedule
import VersionedTrie.Replication
import VersionedTrie.Json.Value
import VersionedTrie.Json.Token
import VersionedTrie.Json.Reader
import VersionedTrie.Json.Record
import VersionedTrie.Documents
import VersionedTrie.Settings
import VersionedTrie.CommandLine.Arguments
import VersionedTrie.CommandLine.Program
import VersionedTrie.Main
import VersionedTrie.Proofs.Refinement
import VersionedTrie.Proofs.Canonical
import VersionedTrie.Proofs.HistoryIndependence
import VersionedTrie.Proofs.Inclusion
import VersionedTrie.Proofs.Inclusion.Uniqueness
import VersionedTrie.Proofs.Inclusion.Completeness
import VersionedTrie.Proofs.Binding
import VersionedTrie.Proofs.Log
import VersionedTrie.Proofs.Hub.Intact
import VersionedTrie.Proofs.Hub.Lockstep
import VersionedTrie.Proofs.Hub.Isolation
import VersionedTrie.Proofs.Hub.Overwriting
import VersionedTrie.Proofs.Lineage.Basic
import VersionedTrie.Proofs.Lineage.History
import VersionedTrie.Proofs.Lineage.Ledger
import VersionedTrie.Proofs.Lineage.Tracking
import VersionedTrie.Proofs.Lineage.Pruning
import VersionedTrie.Proofs.Zstandard
import VersionedTrie.Proofs.FrameLog.Records
import VersionedTrie.Proofs.FrameLog.Replay
import VersionedTrie.Proofs.FrameLog.Lengths
import VersionedTrie.Proofs.LogStore.Laid
import VersionedTrie.Proofs.LogStore.Basic
import VersionedTrie.Proofs.LogStore.Operations
import VersionedTrie.Proofs.LogStore.Recovery
import VersionedTrie.Proofs.LogStore.Wrapping
import VersionedTrie.Proofs.LogStore.Located
import VersionedTrie.Proofs.Hub.Crash
import VersionedTrie.Proofs.Hub.Retention
import VersionedTrie.Proofs.Hub.Separation
import VersionedTrie.Proofs.Matching
import VersionedTrie.Proofs.Hub.Failure
import VersionedTrie.Proofs.Traversal.Frontier
import VersionedTrie.Proofs.Traversal.Sweep
import VersionedTrie.Proofs.Traversal.Progress
import VersionedTrie.Proofs.Blake3
import VersionedTrie.Proofs.Replication.Delivery
import VersionedTrie.Proofs.Replication.Copy
import VersionedTrie.Proofs.Replication.Serving
import VersionedTrie.Proofs.Changes.Provenance
import VersionedTrie.Proofs.Hub.Provenance
import VersionedTrie.Proofs.Hub.Coherence
import VersionedTrie.Proofs.Hub.Transparency
import VersionedTrie.Proofs.Traversal.Course
import VersionedTrie.Proofs.Traversal.Listing
import VersionedTrie.Proofs.Traversal.Handoff
import VersionedTrie.Proofs.Traversal.Drain
import VersionedTrie.Proofs.Tree.Beside
import VersionedTrie.Proofs.Changes.Along
import VersionedTrie.Proofs.Changes.Frame
import VersionedTrie.Proofs.CopyOnWrite
import VersionedTrie.Proofs.Superseding
import VersionedTrie.Proofs.Batch
import VersionedTrie.Proofs.Reapplying
import VersionedTrie.Proofs.Json.Rendering
import VersionedTrie.Proofs.Json.Records
import VersionedTrie.Proofs.Documents
import VersionedTrie.Proofs.LogStore.Compaction
import VersionedTrie.Proofs.LogStore.Sparing
import VersionedTrie.Proofs.LogStore.Neighbours
import VersionedTrie.Proofs.NodeKeyLayout
import VersionedTrie.Proofs.NodeBytes
import VersionedTrie.Proofs.Changes.Splitting
