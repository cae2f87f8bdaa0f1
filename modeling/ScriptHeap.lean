import ScriptHeap.Binary64.Basic
import ScriptHeap.Binary64.Rounding
import ScriptHeap.Binary64.Shortest
import ScriptHeap.Corpus.Basic
import ScriptHeap.Corpus.BuiltIn
import ScriptHeap.Digest.ContentHash
import ScriptHeap.Digest.Sha256
import ScriptHeap.Digest.StoredHash
import ScriptHeap.Heap.Basic
import ScriptHeap.Heap.Check
import ScriptHeap.Heap.Corruption
import ScriptHeap.Heap.Rebuild
import ScriptHeap.Heap.Record
import ScriptHeap.Heap.WriteOnce
import ScriptHeap.Json.Basic
import ScriptHeap.Json.Canonical
import ScriptHeap.Json.Library
import ScriptHeap.Json.Numeral
import ScriptHeap.Json.Reader
import ScriptHeap.Json.Token
import ScriptHeap.Kind
import ScriptHeap.NameMap
import ScriptHeap.Node.Basic
import ScriptHeap.Node.Check
import ScriptHeap.Node.Codec
import ScriptHeap.Node.Flatten
import ScriptHeap.Node.Path
import ScriptHeap.Policy
import ScriptHeap.Proofs.BuilderHistory
import ScriptHeap.Proofs.BuilderRun
import ScriptHeap.Proofs.ByteOrder
import ScriptHeap.Proofs.CanonicalText
import ScriptHeap.Proofs.CellCheck
import ScriptHeap.Proofs.CellFaults
import ScriptHeap.Proofs.Chain
import ScriptHeap.Proofs.ChainFaults
import ScriptHeap.Proofs.CheckLoop
import ScriptHeap.Proofs.CheckedRebuild
import ScriptHeap.Proofs.CorpusExtension
import ScriptHeap.Proofs.CorpusIdentity
import ScriptHeap.Proofs.CyclicHeap
import ScriptHeap.Proofs.DepthLimit
import ScriptHeap.Proofs.FlattenLoop
import ScriptHeap.Proofs.FlattenedCheck
import ScriptHeap.Proofs.Flattening
import ScriptHeap.Proofs.FlatteningWrites
import ScriptHeap.Proofs.HashText
import ScriptHeap.Proofs.HeapIdentity
import ScriptHeap.Proofs.JsonText
import ScriptHeap.Proofs.JsonValue
import ScriptHeap.Proofs.Layout
import ScriptHeap.Proofs.Links
import ScriptHeap.Proofs.ListedShapes
import ScriptHeap.Proofs.LookUp
import ScriptHeap.Proofs.Loop
import ScriptHeap.Proofs.MemberOrder
import ScriptHeap.Proofs.NodeGrammar
import ScriptHeap.Proofs.NumberText
import ScriptHeap.Proofs.Outcome
import ScriptHeap.Proofs.ParentLinks
import ScriptHeap.Proofs.PersistedHeap
import ScriptHeap.Proofs.Pointers
import ScriptHeap.Proofs.PreOrder
import ScriptHeap.Proofs.ReadValues
import ScriptHeap.Proofs.RebuildLoop
import ScriptHeap.Proofs.Rebuilt
import ScriptHeap.Proofs.Records
import ScriptHeap.Proofs.Redirect
import ScriptHeap.Proofs.Renumbering
import ScriptHeap.Proofs.RoundTrip
import ScriptHeap.Proofs.RoundedText
import ScriptHeap.Proofs.Seat
import ScriptHeap.Proofs.ShapeFaults
import ScriptHeap.Proofs.ShortestDecimal
import ScriptHeap.Proofs.Statements
import ScriptHeap.Proofs.TestBlocks
import ScriptHeap.Proofs.TokenText
import ScriptHeap.Proofs.TreeCheck
import ScriptHeap.Proofs.TreeFaults
import ScriptHeap.Proofs.TreeJson
import ScriptHeap.Proofs.TreeLinks
import ScriptHeap.Proofs.TreeText
import ScriptHeap.Proofs.Twins
import ScriptHeap.Proofs.ValidTree
import ScriptHeap.Proofs.VisitOrder
import ScriptHeap.Proofs.Walk
import ScriptHeap.Proofs.WalkLoop
import ScriptHeap.Proofs.WellFormed
import ScriptHeap.Sample
import ScriptHeap.Scalar
import ScriptHeap.Shape
import ScriptHeap.SourceLines
