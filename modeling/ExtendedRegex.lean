import ExtendedRegex.Alphabet
import ExtendedRegex.Alphabet.Letter
import ExtendedRegex.SetAlgebra
import ExtendedRegex.Interval
import ExtendedRegex.RangeSet
import ExtendedRegex.Mask
import ExtendedRegex.Partition
import ExtendedRegex.Text.Printable
import ExtendedRegex.Text.Quoted
import ExtendedRegex.Text.SetText
import ExtendedRegex.Term.Basic
import ExtendedRegex.Term.Order
import ExtendedRegex.Term.Comparison
import ExtendedRegex.Term.Build
import ExtendedRegex.Term.Derivative
import ExtendedRegex.Term.Text
import ExtendedRegex.Search
import ExtendedRegex.Decision
import ExtendedRegex.Term.Branches
import ExtendedRegex.FirstSymbols
import ExtendedRegex.Numbering
import ExtendedRegex.Automaton
import ExtendedRegex.Equation
import ExtendedRegex.Pattern.DecimalDigit
import ExtendedRegex.Pattern.Syntax
import ExtendedRegex.Pattern.Error
import ExtendedRegex.Pattern.Reader
import ExtendedRegex.Proofs.Language
import ExtendedRegex.Proofs.Members
import ExtendedRegex.Proofs.Operations
import ExtendedRegex.Proofs.Quotient
import ExtendedRegex.Proofs.Order
import ExtendedRegex.Proofs.Comparison
import ExtendedRegex.Proofs.Canonical
import ExtendedRegex.Proofs.FirstSet
import ExtendedRegex.Proofs.Grouping
import ExtendedRegex.Proofs.Membership
import ExtendedRegex.Proofs.Distribution
import ExtendedRegex.Proofs.FiniteDerivatives
import ExtendedRegex.Proofs.Refinement
import ExtendedRegex.Proofs.Atoms
import ExtendedRegex.Proofs.Search
import ExtendedRegex.Proofs.Decision
import ExtendedRegex.Proofs.Equivalence
import ExtendedRegex.Proofs.Inclusion
import ExtendedRegex.Proofs.Termination
import ExtendedRegex.Proofs.Repetition
import ExtendedRegex.Proofs.Emptiness
import ExtendedRegex.Proofs.Automaton
import ExtendedRegex.Proofs.Equations
import ExtendedRegex.Proofs.Elimination
import ExtendedRegex.Proofs.Rebuild
import ExtendedRegex.Proofs.Discovery
import ExtendedRegex.Proofs.FirstSymbols
import ExtendedRegex.Proofs.NormalForm
import ExtendedRegex.Proofs.Blocks
import ExtendedRegex.Proofs.Plain
import ExtendedRegex.Proofs.Associativity
import ExtendedRegex.Proofs.Grammar
import ExtendedRegex.Proofs.Reading
import ExtendedRegex.Proofs.Parsing
import ExtendedRegex.Proofs.Unambiguous
import ExtendedRegex.Proofs.RangeSets
import ExtendedRegex.Proofs.Overlap
import ExtendedRegex.Proofs.Passes
import ExtendedRegex.Proofs.Faults
import ExtendedRegex.Proofs.Composition
import ExtendedRegex.Proofs.Separation
import ExtendedRegex.Proofs.Limit
import ExtendedRegex.Proofs.Trim
import ExtendedRegex.Proofs.Chain
import ExtendedRegex.Proofs.Simplification
