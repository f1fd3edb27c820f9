import FrontEnd.Arithmetic
import FrontEnd.Automaton.Dot
import FrontEnd.Lr.Dot
import FrontEnd.Proofs.Automaton.Simulation
import FrontEnd.Proofs.Language
import FrontEnd.Proofs.Lexer.Pieces
import FrontEnd.Proofs.Slr.Acceptance
import FrontEnd.Proofs.Slr.ViablePrefix
import FrontEnd.Proofs.Slr.Termination
import FrontEnd.Proofs.Slr.Invariant
import FrontEnd.Proofs.Lexer.History
import FrontEnd.Proofs.Regex.Spelling
import FrontEnd.Proofs.Grammar.Rounds
import FrontEnd.Proofs.Slr.Policy
import FrontEnd.Proofs.Arithmetic.Expression
import FrontEnd.Proofs.Lr.Words
import FrontEnd.Proofs.Slr.Cells
import FrontEnd.Proofs.Tree.Evaluation
import FrontEnd.Proofs.Regex.Faults
import FrontEnd.Proofs.Slr.Potential
import FrontEnd.Proofs.Slr.Report
import FrontEnd.Proofs.Automaton.Liveness
import FrontEnd.Proofs.Tree.Counter
import FrontEnd.Proofs.Lexer.Locality
import FrontEnd.Proofs.Arithmetic.Scanner
import FrontEnd.Proofs.Automaton.Grouping
import FrontEnd.Proofs.Automaton.Renaming
import FrontEnd.Proofs.Regex.Rendering
import FrontEnd.Proofs.Automaton.Numbering
import FrontEnd.Proofs.Lr.Closure
import FrontEnd.Proofs.Tree.Frontier
import FrontEnd.Proofs.Tree.Readability
import FrontEnd.Proofs.Automaton.Layout
import FrontEnd.Proofs.Automaton.Closure
import FrontEnd.Proofs.Regex.Descent
import FrontEnd.Proofs.Lr.Drawing
