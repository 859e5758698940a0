import ShellQuery.Awk.Literal
import ShellQuery.Awk.Test
import ShellQuery.Catalog
import ShellQuery.Cli.Options
import ShellQuery.Cli.Run
import ShellQuery.Column.Basic
import ShellQuery.Column.Name
import ShellQuery.Comparison.Basic
import ShellQuery.Comparison.Operand
import ShellQuery.Comparison.Operator
import ShellQuery.Compile
import ShellQuery.Condition
import ShellQuery.Decimal.Binary64
import ShellQuery.Decimal.Layout
import ShellQuery.Decimal.Shortest
import ShellQuery.Error
import ShellQuery.FileTree
import ShellQuery.Formula.Basic
import ShellQuery.Formula.Cnf
import ShellQuery.JoinGraph.Basic
import ShellQuery.JoinGraph.Order
import ShellQuery.Json.Lexer
import ShellQuery.Json.Reader
import ShellQuery.Json.Value
import ShellQuery.Main
import ShellQuery.Query
import ShellQuery.SelectItem
import ShellQuery.Shell.Word
import ShellQuery.Stage
import ShellQuery.Statement.Basic
import ShellQuery.Statement.Json
import ShellQuery.Statement.Parser
import ShellQuery.Step
import ShellQuery.Table.Basic
import ShellQuery.Table.Join
import ShellQuery.Table.KeyGroup
import ShellQuery.Table.Operations
import ShellQuery.Text.Ascii
import ShellQuery.Text.Blank
import ShellQuery.Text.CharRange
import ShellQuery.Text.Digits
import ShellQuery.Text.Extending
import ShellQuery.Text.Printable
import ShellQuery.Text.Quoted
import ShellQuery.Text.Split
import ShellQuery.Token.Basic
import ShellQuery.Token.Error
import ShellQuery.Token.Lexer
import ShellQuery.Proofs.Formula.Meaning
import ShellQuery.Proofs.Formula.Cnf
import ShellQuery.Proofs.Formula.NormalForm
import ShellQuery.Proofs.Column.Matching
import ShellQuery.Proofs.Column.Merging
import ShellQuery.Proofs.Table.Resolution
import ShellQuery.Proofs.Table.Occurrences
import ShellQuery.Proofs.Schema
import ShellQuery.Proofs.Table.Layout
import ShellQuery.Proofs.Table.KeyGroup
import ShellQuery.Proofs.Table.KeyChain
import ShellQuery.Proofs.Table.JoinColumns
import ShellQuery.Proofs.Table.JoinLayout
import ShellQuery.Proofs.Stage
import ShellQuery.Proofs.Query.Location
import ShellQuery.Proofs.JoinGraph.Order
import ShellQuery.Proofs.JoinGraph.Queue
import ShellQuery.Proofs.JoinGraph.Greedy
import ShellQuery.Proofs.Condition
import ShellQuery.Proofs.Query.LeftDeep
import ShellQuery.Proofs.Query.Plan
import ShellQuery.Proofs.Query.Output
import ShellQuery.Proofs.Query.Equalities
import ShellQuery.Proofs.Query.Acceptance
import ShellQuery.Proofs.Table.Rows
import ShellQuery.Proofs.Query.Tuples
import ShellQuery.Proofs.Query.Answer
import ShellQuery.Proofs.Awk.Quoting
import ShellQuery.Proofs.Awk.Strings
import ShellQuery.Proofs.Awk.Reader
import ShellQuery.Proofs.Awk.ReadBack
import ShellQuery.Proofs.Table.Provenance
import ShellQuery.Proofs.Query.References
import ShellQuery.Proofs.Table.Reachable
import ShellQuery.Proofs.Table.SortOrder
import ShellQuery.Proofs.Table.Width
import ShellQuery.Proofs.Statement.Grammar
import ShellQuery.Proofs.Statement.Parsing
import ShellQuery.Proofs.Token.Spelling
import ShellQuery.Proofs.Compile
import ShellQuery.Proofs.Condition.Sequence
import ShellQuery.Proofs.Query.JoinTree
import ShellQuery.Proofs.Column.Case
import ShellQuery.Proofs.Formula.Map
import ShellQuery.Proofs.Condition.Case
import ShellQuery.Proofs.Query.Case
import ShellQuery.Proofs.Table.EquiJoin
import ShellQuery.Proofs.Table.JoinResolution
import ShellQuery.Proofs.Checked.Lookup
import ShellQuery.Proofs.Checked.Table
import ShellQuery.Proofs.Checked.Join
import ShellQuery.Proofs.Checked.Stage
import ShellQuery.Proofs.Checked.Graph
import ShellQuery.Proofs.Checked.SelectItem
import ShellQuery.Proofs.Checked.Plan
import ShellQuery.Proofs.Table.Reordering
import ShellQuery.Proofs.Query.Wildcards
import ShellQuery.Proofs.Token.Runs
import ShellQuery.Proofs.Token.Seams
import ShellQuery.Proofs.Token.Cursor
import ShellQuery.Proofs.Token.Passes
import ShellQuery.Proofs.Shell.Expansion
import ShellQuery.Proofs.Query.HeaderLine
import ShellQuery.Proofs.Decimal.Overflow
import ShellQuery.Proofs.Statement.Literals
import ShellQuery.Proofs.Table.Sorting
import ShellQuery.Proofs.Shell.Reading
