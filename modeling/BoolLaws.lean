import BoolLaws.Focus
import BoolLaws.Main
import BoolLaws.Table.Equivalence
import BoolLaws.Proofs.Preservation
import BoolLaws.Proofs.Rearrangement
import BoolLaws.Proofs.Repetition
import BoolLaws.Proofs.Termination
import BoolLaws.Law.Located
import BoolLaws.Proofs.Grammar
import BoolLaws.Proofs.Law.Located
import BoolLaws.Proofs.Law.Context
import BoolLaws.Proofs.Integrity
import BoolLaws.Proofs.Printing
import BoolLaws.Proofs.ReducedText
import BoolLaws.Proofs.TermPrinting
import BoolLaws.Proofs.Tables
import BoolLaws.Proofs.Wording
import BoolLaws.Proofs.Budget
import BoolLaws.Proofs.Viability
import BoolLaws.Proofs.LongestMatch
import BoolLaws.Proofs.Expansion
import BoolLaws.Proofs.Simplification
import BoolLaws.Proofs.Covering
import BoolLaws.Proofs.Choices
import BoolLaws.Proofs.Groups
import BoolLaws.Proofs.Removal
import BoolLaws.Proofs.Substitution
import BoolLaws.Proofs.Traversal
import BoolLaws.Proofs.Enumeration
import BoolLaws.Proofs.PartialEvaluation
import BoolLaws.Proofs.Alignment
import BoolLaws.Proofs.SortedForm
