import LoxWalk.CommandLine
import LoxWalk.Main
import LoxWalk.Proofs.Grammar.Acceptance
import LoxWalk.Proofs.Session.Distances
import LoxWalk.Proofs.Grammar.Words
import LoxWalk.Proofs.Renaming.Declarations
import LoxWalk.Proofs.Renaming.Sessions
import LoxWalk.Proofs.Confinement.Closures
import LoxWalk.Proofs.Unparsing.Grouping
import LoxWalk.Proofs.Splitting.Units
import LoxWalk.Proofs.Session.Tables
import LoxWalk.Proofs.Execution.Balance
import LoxWalk.Proofs.Termination.LoopFree
import LoxWalk.Proofs.Termination.Halting
import LoxWalk.Proofs.Binding.Rules
import LoxWalk.Proofs.Output.Limits
import LoxWalk.Proofs.Output.Sessions
import LoxWalk.Proofs.Session.Statuses
import LoxWalk.Proofs.Tiling
import LoxWalk.Proofs.Respacing
import LoxWalk.Proofs.Session.Lines
import LoxWalk.Proofs.Grammar.Identities
import LoxWalk.Proofs.Grammar.Joining
import LoxWalk.Proofs.Grammar.Chunks
import LoxWalk.Proofs.Grammar.Relaxed
import LoxWalk.Proofs.Grammar.Tolerance
import LoxWalk.Proofs.Grammar.Faults
import LoxWalk.Proofs.Grammar.Positions
import LoxWalk.Proofs.Grammar.Bounds
import LoxWalk.Proofs.Session.CallLimit
import LoxWalk.Proofs.Execution.Returns
import LoxWalk.Proofs.Session.Initializers
import LoxWalk.Proofs.Execution.Refusals
import LoxWalk.Proofs.LongestMatch
import LoxWalk.Proofs.Binding.Depths
import LoxWalk.Proofs.Loops.Desugaring
import LoxWalk.Proofs.Blanking
import LoxWalk.Proofs.Grammar.Nodes
import LoxWalk.Proofs.Scopes
import LoxWalk.Proofs.Numbers.Reprinting
import LoxWalk.Proofs.Numbers.Listing
import LoxWalk.Proofs.Printing.Readback
import LoxWalk.Proofs.Tracking.Names
import LoxWalk.Proofs.Tracking.Sessions
