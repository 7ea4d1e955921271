import DrawingBugs.Proofs.Simulation.Lockstep
import DrawingBugs.Simulation.Settling
import DrawingBugs.Proofs.Grammar.Assignments
import DrawingBugs.Proofs.Grammar.Reading
import DrawingBugs.Proofs.Grammar.Combinators
import DrawingBugs.Proofs.Grammar.Expressions
import DrawingBugs.Proofs.Grammar.Commands
import DrawingBugs.Proofs.Grammar.Definitions
import DrawingBugs.Proofs.Grammar.Programs
import DrawingBugs.Proofs.Grammar.Lexemes
import DrawingBugs.Proofs.Grammar.Loading
import DrawingBugs.Proofs.Grammar.Shapes
import DrawingBugs.Proofs.Machine.Roles
import DrawingBugs.Proofs.Simulation.Soundness
import DrawingBugs.Proofs.Simulation.Progress
import DrawingBugs.Proofs.Simulation.Holding
import DrawingBugs.Proofs.Machine.Halting
import DrawingBugs.Proofs.Simulation.Killing
import DrawingBugs.Proofs.Machine.Independence
import DrawingBugs.Proofs.Simulation.Code
import DrawingBugs.Proofs.Simulation.Transparency
import DrawingBugs.Proofs.Grammar.Splitting
import DrawingBugs.Proofs.Grammar.Lookahead
import DrawingBugs.Proofs.Simulation.RoundCount
import DrawingBugs.Proofs.Simulation.Leaving
import DrawingBugs.Proofs.Machine.Turns
import DrawingBugs.Proofs.Machine.Stacks
import DrawingBugs.Proofs.Machine.Manners
import DrawingBugs.Proofs.Machine.Balance
import DrawingBugs.Proofs.Machine.Exits
import DrawingBugs.Proofs.Machine.Returns
import DrawingBugs.Proofs.Machine.Isolation
import DrawingBugs.Proofs.Machine.Footprint
import DrawingBugs.Proofs.Machine.Resolution
import DrawingBugs.Proofs.Machine.Confinement
import DrawingBugs.Proofs.Grammar.Relaid
import DrawingBugs.Proofs.Grammar.Layout
import DrawingBugs.Proofs.Number.Doubles
import DrawingBugs.Proofs.Number.Units
import DrawingBugs.Proofs.Number.Comparisons
import DrawingBugs.Proofs.Number.Rounding
import DrawingBugs.Proofs.Number.Headings
import DrawingBugs.Proofs.Number.Decimals
import DrawingBugs.Proofs.Machine.Actions
import DrawingBugs.Proofs.Machine.Headings
import DrawingBugs.Proofs.Simulation.Resets
import DrawingBugs.Proofs.Machine.Names
import DrawingBugs.Proofs.Simulation.Names
import DrawingBugs.Proofs.Document.Values
import DrawingBugs.Proofs.Document.Snapshots
import DrawingBugs.Proofs.Document.Trees
import DrawingBugs.Proofs.Grammar.Unread
import DrawingBugs.Proofs.Grammar.Pace
import DrawingBugs.Proofs.Grammar.Progress
import DrawingBugs.Proofs.Grammar.Classification
