import TripleStore.Config.Document
import TripleStore.Isomorphism.Digest
import TripleStore.Session.Run
import TripleStore.Proofs.Index.Refinement
import TripleStore.Proofs.Isomorphism.Coloring
import TripleStore.Proofs.Isomorphism.Backtrack
import TripleStore.Proofs.Session.Transact
import TripleStore.Proofs.Graph.Threads
import TripleStore.Proofs.Graph.Walk
import TripleStore.Proofs.NodeTable.FirstSight
import TripleStore.Proofs.Graph.Pinned
import TripleStore.Proofs.Store.Isolation
import TripleStore.Proofs.Graph.Mirror
import TripleStore.Proofs.Record.SortedMap
import TripleStore.Proofs.Session.Closing
import TripleStore.Proofs.Session.Flags
import TripleStore.Proofs.Session.Delivery
import TripleStore.Proofs.Index.Scan
import TripleStore.Proofs.Graph.Effect
import TripleStore.Proofs.Value
import TripleStore.Proofs.Config.Document
import TripleStore.Proofs.Index.Readback
import TripleStore.Proofs.Value.Lexical
import TripleStore.Proofs.Record.Search
import TripleStore.Proofs.Record.Slots
import TripleStore.Proofs.Index.Wire
import TripleStore.Proofs.Compact.Written
import TripleStore.Proofs.Session.Copies
import TripleStore.Proofs.Record.InPlace
import TripleStore.Proofs.Index.InPlace
