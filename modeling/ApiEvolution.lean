import ApiEvolution.Report
import ApiEvolution.Session
import ApiEvolution.Surface.Declaration
import ApiEvolution.Proofs.Markup.Escaping
import ApiEvolution.Proofs.Markup.Rendering
import ApiEvolution.Proofs.Baseline.WrittenForm
import ApiEvolution.Proofs.Baseline.Sorting
import ApiEvolution.Proofs.Review.Answers
import ApiEvolution.Proofs.Review.Questions
import ApiEvolution.Proofs.Run.Completion
import ApiEvolution.Proofs.Run.Cancellation
import ApiEvolution.Proofs.Review.Rerun
import ApiEvolution.Proofs.Identity.Definitions
import ApiEvolution.Proofs.Pairing.BucketIndex
import ApiEvolution.Proofs.Pairing.OuterJoin
import ApiEvolution.Proofs.Pairing.Members
import ApiEvolution.Proofs.Surface.Rebinding
import ApiEvolution.Proofs.Surface.Shape
import ApiEvolution.Proofs.Surface.Passage
import ApiEvolution.Proofs.Universe.Lookup
import ApiEvolution.Proofs.Universe.Mirror
import ApiEvolution.Proofs.Universe.Reach
import ApiEvolution.Proofs.Universe.Growing
import ApiEvolution.Proofs.Universe.Soundness
import ApiEvolution.Proofs.Universe.Runs
import ApiEvolution.Proofs.Universe.Binding
import ApiEvolution.Proofs.Surface.Mapping
import ApiEvolution.Proofs.Universe.Exactness
import ApiEvolution.Proofs.Identity.Placeless
import ApiEvolution.Proofs.Run.Loading
import ApiEvolution.Proofs.Rules.Placeless
import ApiEvolution.Proofs.Pairing.Placeless
import ApiEvolution.Proofs.Surface.Declared
import ApiEvolution.Proofs.Run.Surface
import ApiEvolution.Proofs.Run.Differences
import ApiEvolution.Proofs.Run.Relocation
import ApiEvolution.Proofs.Run.Forwarding
import ApiEvolution.Proofs.Run.Transparency
import ApiEvolution.Proofs.Catalog
import ApiEvolution.Proofs.Run.Independence
import ApiEvolution.Proofs.Surface.Detached
import ApiEvolution.Proofs.Universe.Chronicle
import ApiEvolution.Proofs.Universe.Naming
import ApiEvolution.Proofs.Universe.History
import ApiEvolution.Proofs.Identity.Hashing
import ApiEvolution.Proofs.Pairing.Content
import ApiEvolution.Proofs.Pairing.Localized
import ApiEvolution.Proofs.Rules.Consulted
import ApiEvolution.Proofs.Pairing.Lifetime
import ApiEvolution.Proofs.Baseline.Canonical
import ApiEvolution.Proofs.Baseline.Subtraction
import ApiEvolution.Proofs.Review.Unneeded
import ApiEvolution.Proofs.Review.Remainder
import ApiEvolution.Proofs.Surface.Renaming
import ApiEvolution.Proofs.Surface.InStep
import ApiEvolution.Proofs.Universe.Renaming
import ApiEvolution.Proofs.Run.Isolation
import ApiEvolution.Proofs.Identity.Disguise
import ApiEvolution.Proofs.Rules.Disguise
import ApiEvolution.Proofs.Rules.Renaming
import ApiEvolution.Proofs.Pairing.Renaming
import ApiEvolution.Proofs.Run.Spelling
import ApiEvolution.Proofs.Rules.Reflexivity
import ApiEvolution.Proofs.Rules.Constraints
import ApiEvolution.Proofs.Rules.Sealing
import ApiEvolution.Proofs.Pairing.Copies
import ApiEvolution.Proofs.Run.Unchanged
import ApiEvolution.Proofs.Report
import ApiEvolution.Proofs.Run.Failure
import ApiEvolution.Proofs.Pairing.Comparers
import ApiEvolution.Proofs.Pairing.Nesting
import ApiEvolution.Proofs.Universe.Agreement
import ApiEvolution.Proofs.Universe.Thrift
import ApiEvolution.Proofs.Surface.Occurrences
import ApiEvolution.Proofs.Universe.Bookkeeping
import ApiEvolution.Proofs.Universe.Ownership
import ApiEvolution.Proofs.Universe.Multiverse
import ApiEvolution.Proofs.Text.Decimal
import ApiEvolution.Proofs.Text.Lines
import ApiEvolution.Proofs.Job.Grammar
import ApiEvolution.Proofs.Job.Parsing
import ApiEvolution.Proofs.Job.Writing
import ApiEvolution.Proofs.Job.Faults
import ApiEvolution.Proofs.Rules.Wording
import ApiEvolution.Proofs.Surface.AssemblyName
import ApiEvolution.Proofs.Surface.Traversal
import ApiEvolution.Proofs.Run.Attempts
import ApiEvolution.Proofs.Markup.Lexemes
import ApiEvolution.Proofs.Baseline.Acceptance
import ApiEvolution.Proofs.Pairing.BrokenExports
import ApiEvolution.Proofs.Surface.OwnReference
import ApiEvolution.Proofs.Pairing.LinearScan
import ApiEvolution.Proofs.Surface.Likeness
import ApiEvolution.Proofs.Surface.Preorder
import ApiEvolution.Proofs.Identity.Laws
