import ChanceGraph.Node.Text
import ChanceGraph.Trace.Text
import ChanceGraph.Config.Text
import ChanceGraph.Session.Text
import ChanceGraph.Session.Leaves
import ChanceGraph.Session.Proposals
import ChanceGraph.Session.Caches
import ChanceGraph.Session.Traces
import ChanceGraph.Main
import ChanceGraph.Proofs.Exact
import ChanceGraph.Proofs.ExactSum
import ChanceGraph.Proofs.ErrorRate
import ChanceGraph.Proofs.Outcome
import ChanceGraph.Proofs.Walk
import ChanceGraph.Proofs.Generations
import ChanceGraph.Proofs.Runs
import ChanceGraph.Proofs.Sharing
import ChanceGraph.Proofs.Renaming
import ChanceGraph.Proofs.Soundness
import ChanceGraph.Proofs.Law
import ChanceGraph.Proofs.Tables
import ChanceGraph.Proofs.Trajectories
import ChanceGraph.Proofs.Acceptance
import ChanceGraph.Proofs.Proposals
import ChanceGraph.Proofs.Moves
import ChanceGraph.Proofs.Balance
import ChanceGraph.Proofs.Replay
import ChanceGraph.Proofs.Lockstep
import ChanceGraph.Proofs.Alike
import ChanceGraph.Proofs.Interchange
import ChanceGraph.Proofs.ForwardLaw
import ChanceGraph.Proofs.Chance
import ChanceGraph.Proofs.Enumeration
import ChanceGraph.Proofs.Columns
import ChanceGraph.Proofs.Inference
import ChanceGraph.Proofs.Rounding
import ChanceGraph.Proofs.Doubles
import ChanceGraph.Proofs.Operations
import ChanceGraph.Proofs.Summation
import ChanceGraph.Proofs.Probabilities
import ChanceGraph.Proofs.Conditioning
import ChanceGraph.Proofs.Addresses
import ChanceGraph.Proofs.Candidates
import ChanceGraph.Proofs.ForwardOutcomes
import ChanceGraph.Proofs.FilteredMoves
import ChanceGraph.Proofs.Paths
import ChanceGraph.Proofs.ForwardPaths
import ChanceGraph.Proofs.Listing
import ChanceGraph.Proofs.Grouping
import ChanceGraph.Proofs.Coarsening
import ChanceGraph.Proofs.Evidence
import ChanceGraph.Proofs.Scaling
import ChanceGraph.Proofs.Proportions
import ChanceGraph.Proofs.Turns
import ChanceGraph.Proofs.Checkpoints
import ChanceGraph.Proofs.Hypotheses
import ChanceGraph.Proofs.Negation
import ChanceGraph.Proofs.Regeneration
import ChanceGraph.Proofs.Sequences
import ChanceGraph.Proofs.Shares
import ChanceGraph.Proofs.Intervals
import ChanceGraph.Proofs.Chronicle
import ChanceGraph.Proofs.Bookkeeping
import ChanceGraph.Proofs.Pairing
import ChanceGraph.Proofs.Clearing
import ChanceGraph.Proofs.Testable
import ChanceGraph.Proofs.Truncation
