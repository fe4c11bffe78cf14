import LegacyPool.Spec.Types
import LegacyPool.Spec.Inner
import LegacyPool.Spec.System
import LegacyPool.Sanity.Moves
import LegacyPool.Sanity.Handoff
import LegacyPool.Sanity.Pop
import LegacyPool.Proofs.Buckets
import LegacyPool.Proofs.Wakeup
import LegacyPool.Proofs.Checkout
import LegacyPool.Proofs.Age
import LegacyPool.Proofs.Shared
import LegacyPool.Proofs.SingleFlight
import LegacyPool.Proofs.Waiters
import LegacyPool.Proofs.Put
import LegacyPool.Proofs.Keys
import LegacyPool.Proofs.IdleTask
import LegacyPool.Proofs.NoPanic
import LegacyPool.Proofs.Ownership
import LegacyPool.Proofs.Asserts
import LegacyPool.Proofs.Eviction
import LegacyPool.Proofs.Release
import LegacyPool.Proofs.Labels
import LegacyPool.Proofs.Pending
import LegacyPool.Proofs.Fairness
