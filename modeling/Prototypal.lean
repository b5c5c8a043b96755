import Prototypal.Analysis.Command
import Prototypal.Settings.LogStyle
import Prototypal.Settings.Project
import Prototypal.Proofs.Descent
import Prototypal.Proofs.Inheritance
import Prototypal.Proofs.Route
import Prototypal.Proofs.ValueSet
import Prototypal.Proofs.Exploration
import Prototypal.Proofs.Lookup
import Prototypal.Proofs.Enumeration
import Prototypal.Proofs.Deferral
import Prototypal.Proofs.Description
import Prototypal.Proofs.Growth
import Prototypal.Proofs.Reading
import Prototypal.Proofs.Staleness
import Prototypal.Proofs.Passage
import Prototypal.Proofs.Termination
import Prototypal.Proofs.Budget
import Prototypal.Proofs.Confluence
import Prototypal.Proofs.Footprint
import Prototypal.Proofs.History
import Prototypal.Proofs.Inertness
import Prototypal.Proofs.Monotonicity
import Prototypal.Proofs.Census
import Prototypal.Proofs.Lifetime
import Prototypal.Proofs.Visibility
import Prototypal.Proofs.Retention
import Prototypal.Proofs.SetAlgebra
import Prototypal.Proofs.Pieces
import Prototypal.Proofs.Grammar
import Prototypal.Proofs.Meaning
import Prototypal.Proofs.Tracking
import Prototypal.Proofs.Following
import Prototypal.Proofs.Spacing
import Prototypal.Proofs.Comments
import Prototypal.Proofs.Stripping
import Prototypal.Proofs.Lines
import Prototypal.Proofs.Allowance
import Prototypal.Proofs.Trailing
import Prototypal.Proofs.Constants
import Prototypal.Proofs.Indexing
import Prototypal.Proofs.Binding
import Prototypal.Proofs.Report
import Prototypal.Proofs.Walk
import Prototypal.Proofs.Packing
import Prototypal.Proofs.Custody
import Prototypal.Proofs.Spelling
import Prototypal.Proofs.Skipping
import Prototypal.Proofs.Members
import Prototypal.Proofs.Admissible
import Prototypal.Proofs.Completion
import Prototypal.Proofs.Interleaving
