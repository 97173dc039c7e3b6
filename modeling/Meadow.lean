import Meadow.Assumptions
import Meadow.CaseSplit
import Meadow.CommandLine.Arguments
import Meadow.CommandLine.Options
import Meadow.CommandLine.Usage
import Meadow.Comparison
import Meadow.Config.Basic
import Meadow.Config.Document
import Meadow.FinSupp.Basic
import Meadow.FinSupp.Entries
import Meadow.FinSupp.Set
import Meadow.Form.Arithmetic
import Meadow.Form.Basic
import Meadow.Form.Eval
import Meadow.Job
import Meadow.Lines
import Meadow.Lines.Backspace
import Meadow.Machine
import Meadow.Main
import Meadow.Monomial.Basic
import Meadow.Monomial.Order
import Meadow.Output.Json
import Meadow.Output.JsonValue
import Meadow.Output.Style
import Meadow.Output.Text
import Meadow.Poly.Basic
import Meadow.Poly.Division
import Meadow.Poly.Factor
import Meadow.Poly.FactorText
import Meadow.Poly.Gcd
import Meadow.Poly.Kronecker
import Meadow.Poly.Order
import Meadow.Poly.Squarefree
import Meadow.Poly.Text
import Meadow.Program
import Meadow.Proofs.Assumptions
import Meadow.Proofs.CaseSplit
import Meadow.Proofs.Form.Arithmetic
import Meadow.Proofs.Form.Consistency
import Meadow.Proofs.Form.Leaves
import Meadow.Proofs.Form.Roots
import Meadow.Proofs.Form.Variables
import Meadow.Proofs.Form.WellFormed
import Meadow.Proofs.Masks
import Meadow.Proofs.Monomial.Order
import Meadow.Proofs.Output.Decoding
import Meadow.Proofs.Output.Grammar
import Meadow.Proofs.Output.Records
import Meadow.Proofs.Poly.Associates
import Meadow.Proofs.Poly.CanonicalFactors
import Meadow.Proofs.Poly.CanonicalGcd
import Meadow.Proofs.Poly.Construction
import Meadow.Proofs.Poly.Decomposition
import Meadow.Proofs.Poly.Degree
import Meadow.Proofs.Poly.Division
import Meadow.Proofs.Poly.Expansion
import Meadow.Proofs.Poly.Factorization
import Meadow.Proofs.Poly.Gcd
import Meadow.Proofs.Poly.Image
import Meadow.Proofs.Poly.Irreducible
import Meadow.Proofs.Poly.Kronecker
import Meadow.Proofs.Poly.LongDivision
import Meadow.Proofs.Poly.Normalized
import Meadow.Proofs.Poly.Primitive
import Meadow.Proofs.Poly.Squarefree
import Meadow.Proofs.Poly.Value
import Meadow.Proofs.Recombination
import Meadow.Proofs.Renaming.Factor
import Meadow.Proofs.Renaming.Form
import Meadow.Proofs.Renaming.Names
import Meadow.Proofs.Renaming.Poly
import Meadow.Proofs.Settings
import Meadow.Proofs.Statement.Diagnosis
import Meadow.Proofs.Statement.Expression
import Meadow.Proofs.Statement.Infix
import Meadow.Proofs.Statement.Reduction
import Meadow.Proofs.Statement.WellFormed
import Meadow.Proofs.Steps
import Meadow.Proofs.Stored.Division
import Meadow.Proofs.Stored.Eval
import Meadow.Proofs.Stored.Factor
import Meadow.Proofs.Stored.Form
import Meadow.Proofs.Stored.Gcd
import Meadow.Proofs.Stored.Kronecker
import Meadow.Proofs.Stored.Machine
import Meadow.Proofs.Stored.Monomial
import Meadow.Proofs.Stored.Poly
import Meadow.Proofs.Stored.Product
import Meadow.Proofs.Stored.Program
import Meadow.Proofs.Stored.Related
import Meadow.Proofs.Stored.Squarefree
import Meadow.Proofs.Stored.Statement
import Meadow.Proofs.Stored.Text
import Meadow.Proofs.Subset
import Meadow.Proofs.Subset.Enumeration
import Meadow.Proofs.Testing.Line
import Meadow.Proofs.Testing.Run
import Meadow.Proofs.Text.Evaluation
import Meadow.Proofs.Text.Rendering
import Meadow.Proofs.Text.Spelling
import Meadow.Proofs.Token.Lexing
import Meadow.Proofs.Univariate.Bound
import Meadow.Proofs.Univariate.Checked
import Meadow.Proofs.Univariate.DistinctDegree
import Meadow.Proofs.Univariate.Division
import Meadow.Proofs.Univariate.Factor
import Meadow.Proofs.Univariate.Hensel
import Meadow.Proofs.Univariate.Modular
import Meadow.Proofs.Univariate.ModularFactor
import Meadow.Proofs.Univariate.Reduction
import Meadow.Proofs.Univariate.Residue
import Meadow.Proofs.Univariate.Zassenhaus
import Meadow.Proofs.Verdict
import Meadow.Report
import Meadow.Session
import Meadow.Settings
import Meadow.Statement.Basic
import Meadow.Statement.Parser
import Meadow.Stored.Eval
import Meadow.Stored.Factor
import Meadow.Stored.Form
import Meadow.Stored.Gcd
import Meadow.Stored.Monomial
import Meadow.Stored.Poly
import Meadow.Stored.Program
import Meadow.Stored.Statement
import Meadow.Subset
import Meadow.Testing.Line
import Meadow.Testing.Run
import Meadow.Testing.Tally
import Meadow.Token.Basic
import Meadow.Token.Decimal
import Meadow.Token.Lexeme
import Meadow.Unicode.Alphabetic
import Meadow.Unicode.Grapheme
import Meadow.Unicode.GraphemeBreak
import Meadow.Unicode.Properties
import Meadow.Univariate.Factor
import Meadow.Univariate.Hensel
import Meadow.Univariate.Integer
import Meadow.Univariate.Modular
import Meadow.Univariate.ModularFactor
import Meadow.VariableLimit
