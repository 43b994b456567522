import Ragged.Json.Types
import Ragged.Proofs.Indices
import Ragged.Proofs.Plan
import Ragged.Raise
import Ragged.StoredArray
import Ragged.Proofs.Tiling
import Ragged.Proofs.Runs
import Ragged.Proofs.Store
import Ragged.Proofs.Handles
import Ragged.Proofs.Dataset
import Ragged.Proofs.Growing
import Ragged.Proofs.HeapWriter
import Ragged.Proofs.Blocks
import Ragged.Proofs.Writing
import Ragged.Proofs.Reading
import Ragged.Proofs.RoundTrip
import Ragged.Proofs.Portions
import Ragged.Proofs.Listing
import Ragged.Proofs.History
import Ragged.Proofs.StoredForm
import Ragged.Proofs.Chunks
import Ragged.Proofs.Sequential
import Ragged.Proofs.Paths
import Ragged.Proofs.Hierarchy
import Ragged.Proofs.Creating
import Ragged.Proofs.Greedy
import Ragged.Proofs.Sharing
import Ragged.Proofs.Streaming
import Ragged.Proofs.Json.Types
import Ragged.Proofs.Bijection
import Ragged.Proofs.Enumeration
import Ragged.Proofs.Progress
import Ragged.Proofs.InPlace
import Ragged.Proofs.Atomic
import Ragged.Proofs.Offsets
import Ragged.Proofs.Pointers
import Ragged.Proofs.Codec
import Ragged.Proofs.Allocation
import Ragged.Proofs.Snapshot
import Ragged.Proofs.Texts
import Ragged.Proofs.Spellings
import Ragged.Proofs.Budgets
import Ragged.Proofs.PointerBytes
import Ragged.Proofs.Regions
import Ragged.Proofs.Starts
import Ragged.Proofs.Partition
import Ragged.Proofs.Walk
import Ragged.Proofs.Notes
import Ragged.Proofs.Storable
import Ragged.Proofs.Representation
