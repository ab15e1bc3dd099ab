import UnrolledList.Chain.Copy
import UnrolledList.Chain.Insert
import UnrolledList.Chain.Range
import UnrolledList.Chain.Walk
import UnrolledList.Config.Load
import UnrolledList.Packed.Dump
import UnrolledList.Proofs.Chain.Attempts
import UnrolledList.Proofs.Chain.Compression
import UnrolledList.Proofs.Chain.Duplicate
import UnrolledList.Proofs.Chain.Faithful
import UnrolledList.Proofs.Chain.Foresight
import UnrolledList.Proofs.Chain.Integrity
import UnrolledList.Proofs.Chain.Invisible
import UnrolledList.Proofs.Chain.Nearby
import UnrolledList.Proofs.Chain.Reading
import UnrolledList.Proofs.Chain.Splitting
import UnrolledList.Proofs.Chain.Traversal
import UnrolledList.Proofs.Chain.Trimming
import UnrolledList.Proofs.Config.Precedence
import UnrolledList.Proofs.Packed.Canonical
import UnrolledList.Proofs.Packed.Histories
import UnrolledList.Proofs.Packed.Navigation
import UnrolledList.Proofs.Packed.Searching
