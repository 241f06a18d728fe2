import LockstepSort.Key.Word
import LockstepSort.Pairs.Lemmas
import LockstepSort.Proofs.Insertion
import LockstepSort.Proofs.Partition
import LockstepSort.Proofs.Radix.Sort
import LockstepSort.Session
import LockstepSort.Proofs.Digits
import LockstepSort.Proofs.Arrangement
import LockstepSort.Proofs.Likeness.Pairs
import LockstepSort.Proofs.Likeness.Radix
import LockstepSort.Proofs.Likeness.Run
import LockstepSort.Proofs.Likeness.Sort
import LockstepSort.Proofs.Run
import LockstepSort.Proofs.Sort
import LockstepSort.Proofs.Call
import LockstepSort.Proofs.Order
import LockstepSort.Proofs.Unsplit
import LockstepSort.Proofs.Sharing
import LockstepSort.Proofs.Tiling
import LockstepSort.Proofs.Resort
import LockstepSort.Proofs.Renaming
import LockstepSort.Proofs.Recursion
import LockstepSort.Proofs.Refusal
import LockstepSort.Proofs.Depth
import LockstepSort.Proofs.Pivot
import LockstepSort.Proofs.Radix.Placement
import LockstepSort.Proofs.Reservation
import LockstepSort.Proofs.Trace
import LockstepSort.Proofs.SplitCount
import LockstepSort.Proofs.Span
import LockstepSort.Proofs.Mirror
import LockstepSort.Proofs.Spelling
import LockstepSort.Proofs.Radix.Cursors
import LockstepSort.Proofs.Absorption
