import TreeShake.Link
import TreeShake.Proofs.Confluence
import TreeShake.Proofs.DeadCode
import TreeShake.Proofs.DefectExactness
import TreeShake.Proofs.LinkSoundness
import TreeShake.Proofs.Monotonicity
import TreeShake.Proofs.Replay
import TreeShake.Proofs.Idempotence
import TreeShake.Proofs.Canonical
import TreeShake.Proofs.Contracts
import TreeShake.Proofs.Absorption
import TreeShake.Proofs.Relinking
import TreeShake.Proofs.Tolerance
import TreeShake.Proofs.Consistency
import TreeShake.Proofs.Termination
import TreeShake.Proofs.Contributions
import TreeShake.Dependencies.Recording
import TreeShake.Proofs.Recording
import TreeShake.Proofs.Refusal
import TreeShake.Proofs.Composition
import TreeShake.Proofs.Resolution
import TreeShake.Proofs.Accumulation
import TreeShake.Proofs.Arrival
import TreeShake.Proofs.Assembly
import TreeShake.Proofs.Referrers
import TreeShake.Proofs.Interning
import TreeShake.Proofs.Preorder
import TreeShake.Proofs.Queries
