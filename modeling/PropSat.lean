import PropSat.CommandLine.Terminal
import PropSat.Main
import PropSat.TruthTable
import PropSat.Dimacs.Writer
import PropSat.Proofs.Solver
import PropSat.Proofs.Conjunction
import PropSat.Proofs.NormalForm.FixedPoint
import PropSat.Proofs.Dimacs.DecimalNames
import PropSat.Proofs.NormalForm.Occurrence
import PropSat.Proofs.NormalForm.Polarity
import PropSat.Proofs.Resolution.Rounds
import PropSat.Proofs.Tableau.Consistency
import PropSat.Proofs.Tableau.Copying
import PropSat.Proofs.Tableau.Runs
import PropSat.Proofs.Dimacs.RoundTrip
import PropSat.Proofs.Dimacs.Layout
import PropSat.Proofs.Dimacs.Numbering
import PropSat.Proofs.Dpll.Confluence
import PropSat.Proofs.Dpll.Residue
import PropSat.Proofs.Dpll.Renaming
import PropSat.Proofs.CommandLine.Run
import PropSat.Proofs.NormalForm.Disjunction
import PropSat.Proofs.Replacement
import PropSat.Proofs.NormalForm.Refusal
import PropSat.Proofs.Entailment
import PropSat.Proofs.TruthTable.Columns
