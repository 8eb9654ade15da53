import HashTrie.Proofs.CanonicalForm
import HashTrie.Proofs.Chunks
import HashTrie.Proofs.IterationOrder
import HashTrie.Proofs.MergeLocality
import HashTrie.Proofs.MergeRoot
import HashTrie.Proofs.Selections
import HashTrie.Proofs.Union
import HashTrie.Script.Document
import HashTrie.Script.OneShot
import HashTrie.Script.Session.Play
import HashTrie.Proofs.Mapping
import HashTrie.Proofs.Removal
import HashTrie.Proofs.Containers
import HashTrie.Proofs.Grouping
import HashTrie.Proofs.PathCopying
import HashTrie.Proofs.Updating
import HashTrie.Proofs.Enumeration
import HashTrie.Proofs.SetAlgebra
import HashTrie.Proofs.Inclusion
import HashTrie.Proofs.Rebuilding
import HashTrie.Proofs.ContainerChoice
import HashTrie.Proofs.RoundTrip
import HashTrie.Proofs.Documents
import HashTrie.Proofs.Retaining
import HashTrie.Proofs.Scanning
import HashTrie.Proofs.NoFaults
import HashTrie.Proofs.Separation
