import SoftLinear.Console.Line
import SoftLinear.Constraint.Text
import SoftLinear.Proofs.Agreement
import SoftLinear.Proofs.Approach
import SoftLinear.Proofs.Arena
import SoftLinear.Proofs.Blocks
import SoftLinear.Proofs.CheckedSolve
import SoftLinear.Proofs.Contention
import SoftLinear.Proofs.Contradiction
import SoftLinear.Proofs.Convergence
import SoftLinear.Proofs.Corrections
import SoftLinear.Proofs.Coverage
import SoftLinear.Proofs.Enforcement
import SoftLinear.Proofs.Failure
import SoftLinear.Proofs.Foresight
import SoftLinear.Proofs.Frame
import SoftLinear.Proofs.Freshness
import SoftLinear.Proofs.Handles
import SoftLinear.Proofs.Idempotence
import SoftLinear.Proofs.Influence
import SoftLinear.Proofs.IsolatedConflict
import SoftLinear.Proofs.Isolation
import SoftLinear.Proofs.Judgement
import SoftLinear.Proofs.Likeness
import SoftLinear.Proofs.Merging
import SoftLinear.Proofs.Noninterference
import SoftLinear.Proofs.Notices
import SoftLinear.Proofs.Optimality
import SoftLinear.Proofs.Passes
import SoftLinear.Proofs.Priority
import SoftLinear.Proofs.Ranking
import SoftLinear.Proofs.Removal
import SoftLinear.Proofs.Replacement
import SoftLinear.Proofs.Sample
import SoftLinear.Proofs.Spacing
import SoftLinear.Proofs.Standstill
import SoftLinear.Proofs.Suspension
import SoftLinear.Proofs.Triangular
import SoftLinear.Proofs.Undo
import SoftLinear.Proofs.Upkeep
import SoftLinear.Proofs.Windows
import SoftLinear.Samples.Conflict
import SoftLinear.Settings.Build
import SoftLinear.Settings.Toml
import SoftLinear.Settings.Yaml
