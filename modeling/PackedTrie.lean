import PackedTrie.Build.Calls
import PackedTrie.Build.FromSource
import PackedTrie.Build.Text
import PackedTrie.Describe
import PackedTrie.File.Load
import PackedTrie.Lookup.Graph
import PackedTrie.Lookup.Machine
import PackedTrie.Node.Measured
import PackedTrie.Node.OfEntries
import PackedTrie.Source.Delimited
import PackedTrie.Source.Reader
import PackedTrie.Proofs.Node.Layout
import PackedTrie.Proofs.Payload.Holding
import PackedTrie.Proofs.Lookup.Reading
import PackedTrie.Proofs.Lookup.Traversal
import PackedTrie.Proofs.Entries
import PackedTrie.Proofs.Lookup.Agreement
import PackedTrie.Proofs.Lookup.Graph
import PackedTrie.Proofs.Lookup.Unambiguous
import PackedTrie.Proofs.Node.Grouping
import PackedTrie.Proofs.Node.OfEntries
import PackedTrie.Proofs.Build.Closing
import PackedTrie.Proofs.Build.Placement
import PackedTrie.Proofs.Build.Spine
import PackedTrie.Proofs.Build.Refinement
import PackedTrie.Proofs.Build.RoundTrip
import PackedTrie.Proofs.Build.Calls
import PackedTrie.Proofs.Build.Order
import PackedTrie.Proofs.Build.Traceless
import PackedTrie.Proofs.Machine.Find
import PackedTrie.Proofs.Machine.Walk
import PackedTrie.Proofs.Machine.Safety
import PackedTrie.Proofs.Machine.Skipping
import PackedTrie.Proofs.Lookup.Truncation
import PackedTrie.Proofs.Build.Tally
import PackedTrie.Proofs.Build.Counters
import PackedTrie.Proofs.Node.Prefixes
import PackedTrie.Proofs.Build.Threshold
import PackedTrie.Proofs.Sequencing
import PackedTrie.Proofs.File.Loading
import PackedTrie.Proofs.Node.Emission
import PackedTrie.Proofs.File.RoundTrip
import PackedTrie.Proofs.Node.Proper
import PackedTrie.Proofs.Build.Contents
import PackedTrie.Proofs.Build.Invariant
import PackedTrie.Proofs.Source.Lines
import PackedTrie.Proofs.Source.Readings
import PackedTrie.Proofs.Build.Intake
import PackedTrie.Proofs.Build.FromText
import PackedTrie.Proofs.File.Bounded
import PackedTrie.Proofs.Node.Measured
import PackedTrie.Proofs.VarInt.Shortest
import PackedTrie.Proofs.Node.BlockLength
import PackedTrie.Proofs.Lookup.Extent
import PackedTrie.Proofs.Build.Smallest
import PackedTrie.Proofs.Build.AllOrNothing
import PackedTrie.Proofs.VarInt.Fetching
import PackedTrie.Proofs.VarInt.Tagging
import PackedTrie.Proofs.VarInt.Framing
import PackedTrie.Proofs.VarInt.Canonical
import PackedTrie.Proofs.Build.Flattening
import PackedTrie.Proofs.Lookup.Interchange
import PackedTrie.Proofs.Machine.Backend
import PackedTrie.Proofs.Build.Reordering
import PackedTrie.Proofs.Source.Readers
import PackedTrie.Proofs.Source.Printing
