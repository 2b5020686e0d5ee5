import LineScript.CommandLine
import LineScript.Main
import LineScript.Proofs.Arena.Refinement
import LineScript.Proofs.Atomicity
import LineScript.Proofs.Branches.Selection
import LineScript.Proofs.Editing
import LineScript.Proofs.ErrorLine
import LineScript.Proofs.Expression.Compound
import LineScript.Proofs.Expression.Grammar
import LineScript.Proofs.Expression.Wrapping
import LineScript.Proofs.Identity.Unique
import LineScript.Proofs.Interpolation
import LineScript.Proofs.Lexeme.Comments
import LineScript.Proofs.Lexeme.Lines
import LineScript.Proofs.Loading.Acceptance
import LineScript.Proofs.Loading.Groups
import LineScript.Proofs.Loading.Parentheses
import LineScript.Proofs.Loading.Partners
import LineScript.Proofs.Nesting.Parameters
import LineScript.Proofs.Nesting.Transparency
import LineScript.Proofs.Number.Promotion
import LineScript.Proofs.Number.Truncation
import LineScript.Proofs.Number.Written
import LineScript.Proofs.Openers
import LineScript.Proofs.Operator.Comparison
import LineScript.Proofs.Operator.Integers
import LineScript.Proofs.Operator.Rejection
import LineScript.Proofs.Placement.Equivalence
import LineScript.Proofs.Positions
import LineScript.Proofs.Printing
import LineScript.Proofs.References.Reachable
import LineScript.Proofs.Removal
import LineScript.Proofs.Splitting
import LineScript.Proofs.Tables
