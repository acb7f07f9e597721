import UtilityCss.Candidate.Argument
import UtilityCss.Candidate.Basic
import UtilityCss.Candidate.Parser
import UtilityCss.Candidate.Root
import UtilityCss.Color.Alpha
import UtilityCss.Color.Hex
import UtilityCss.CompileError
import UtilityCss.Compiler.Basic
import UtilityCss.Compiler.File
import UtilityCss.Compiler.Output
import UtilityCss.Config.Basic
import UtilityCss.Config.Theme
import UtilityCss.Design.Apply
import UtilityCss.Design.Declaration
import UtilityCss.Design.System
import UtilityCss.Design.VariantBlock
import UtilityCss.Import.Basic
import UtilityCss.Import.Files
import UtilityCss.Import.Loader
import UtilityCss.Import.Resolver
import UtilityCss.Json.Number
import UtilityCss.Json.Token
import UtilityCss.Json.Tree
import UtilityCss.Json.Value
import UtilityCss.Number.Binary
import UtilityCss.Number.Integer
import UtilityCss.Number.Numeral
import UtilityCss.Number.Shortest
import UtilityCss.Plugin.Extension
import UtilityCss.Plugin.Module
import UtilityCss.Plugin.Option
import UtilityCss.Plugin.Tree
import UtilityCss.Proofs.Candidate.Faithful
import UtilityCss.Proofs.Candidate.Plain
import UtilityCss.Proofs.Candidate.Root
import UtilityCss.Proofs.Candidate.Texts
import UtilityCss.Proofs.Color.Alpha
import UtilityCss.Proofs.Color.Percentage
import UtilityCss.Proofs.Compiler.Applied
import UtilityCss.Proofs.Compiler.Cascade
import UtilityCss.Proofs.Compiler.ClassNames
import UtilityCss.Proofs.Compiler.Contents
import UtilityCss.Proofs.Compiler.Function
import UtilityCss.Proofs.Compiler.Reference
import UtilityCss.Proofs.Compiler.Variables
import UtilityCss.Proofs.Compiler.VariantBlock
import UtilityCss.Proofs.Config.Path
import UtilityCss.Proofs.Config.Precedence
import UtilityCss.Proofs.Design.Called
import UtilityCss.Proofs.Design.DeclaredUtility
import UtilityCss.Proofs.Design.Expanded
import UtilityCss.Proofs.Design.LeafSequence
import UtilityCss.Proofs.Design.Rank
import UtilityCss.Proofs.Design.SelfContained
import UtilityCss.Proofs.Design.Sort
import UtilityCss.Proofs.Design.VariantBlock
import UtilityCss.Proofs.Design.VariantForms
import UtilityCss.Proofs.Except
import UtilityCss.Proofs.Import.Cycle
import UtilityCss.Proofs.Import.Load
import UtilityCss.Proofs.Import.Machine
import UtilityCss.Proofs.Import.Reading
import UtilityCss.Proofs.Import.ThemeBlock
import UtilityCss.Proofs.Number.Numeral
import UtilityCss.Proofs.Number.Rounding
import UtilityCss.Proofs.Plugin.ClassSelector
import UtilityCss.Proofs.Stylesheet.Block
import UtilityCss.Proofs.Stylesheet.Closed
import UtilityCss.Proofs.Stylesheet.CommentText
import UtilityCss.Proofs.Stylesheet.Flatten
import UtilityCss.Proofs.Stylesheet.InPlace
import UtilityCss.Proofs.Stylesheet.Inert
import UtilityCss.Proofs.Stylesheet.Literal
import UtilityCss.Proofs.Stylesheet.NestedLevels
import UtilityCss.Proofs.Stylesheet.Node
import UtilityCss.Proofs.Stylesheet.Normal
import UtilityCss.Proofs.Stylesheet.Passage
import UtilityCss.Proofs.Stylesheet.Place
import UtilityCss.Proofs.Stylesheet.Property
import UtilityCss.Proofs.Stylesheet.QuotedNesting
import UtilityCss.Proofs.Stylesheet.Reading
import UtilityCss.Proofs.Stylesheet.Replace
import UtilityCss.Proofs.Stylesheet.Selector
import UtilityCss.Proofs.Stylesheet.Spot
import UtilityCss.Proofs.Text.ClosedCall
import UtilityCss.Proofs.Text.Nesting
import UtilityCss.Proofs.Text.Parts
import UtilityCss.Proofs.Text.Words
import UtilityCss.Proofs.Theme.Block
import UtilityCss.Proofs.Theme.Closure
import UtilityCss.Proofs.Theme.Collection
import UtilityCss.Proofs.Theme.Fold
import UtilityCss.Proofs.Theme.Keyframes
import UtilityCss.Proofs.Theme.Lookup
import UtilityCss.Proofs.Theme.Members
import UtilityCss.Proofs.Theme.QuotedCall
import UtilityCss.Proofs.Theme.Reachable
import UtilityCss.Proofs.Theme.VarReference
import UtilityCss.Proofs.Theme.WrittenPath
import UtilityCss.Proofs.Utility.Answered
import UtilityCss.Proofs.Utility.Called
import UtilityCss.Proofs.Utility.Fraction
import UtilityCss.Proofs.Utility.Nodes
import UtilityCss.Proofs.Utility.Recipe
import UtilityCss.Proofs.Utility.Resolved
import UtilityCss.Proofs.Utility.Value
import UtilityCss.Proofs.Value.Fraction
import UtilityCss.Proofs.Value.UrlCall
import UtilityCss.Proofs.Variant.Alike
import UtilityCss.Proofs.Variant.Breakpoint
import UtilityCss.Proofs.Variant.DoubleNegation
import UtilityCss.Proofs.Variant.Negation
import UtilityCss.Proofs.Variant.Preorder
import UtilityCss.Proofs.Variant.Reading
import UtilityCss.Proofs.Variant.Registry
import UtilityCss.Proofs.Variant.Rule
import UtilityCss.Proofs.Variant.Selector
import UtilityCss.Proofs.Variant.Size
import UtilityCss.Proofs.Variant.Slot
import UtilityCss.Proofs.Variant.Wrap
import UtilityCss.Stylesheet.Declaration
import UtilityCss.Stylesheet.Flatten
import UtilityCss.Stylesheet.InPlace
import UtilityCss.Stylesheet.Node
import UtilityCss.Stylesheet.Parser
import UtilityCss.Stylesheet.Prelude
import UtilityCss.Stylesheet.Printer
import UtilityCss.Stylesheet.Property
import UtilityCss.Stylesheet.Replace
import UtilityCss.Stylesheet.Selector
import UtilityCss.Stylesheet.SyntaxError
import UtilityCss.Stylesheet.Token
import UtilityCss.Text.Alphabetic
import UtilityCss.Text.Blank
import UtilityCss.Text.Call
import UtilityCss.Text.Cased
import UtilityCss.Text.Escape
import UtilityCss.Text.Find
import UtilityCss.Text.Lowercase
import UtilityCss.Text.Nesting
import UtilityCss.Text.Numeric
import UtilityCss.Theme.Block
import UtilityCss.Theme.Event
import UtilityCss.Theme.Function
import UtilityCss.Theme.Lookup
import UtilityCss.Theme.Options
import UtilityCss.Theme.Path
import UtilityCss.Theme.Reference
import UtilityCss.Theme.Store
import UtilityCss.Utility.Builtin
import UtilityCss.Utility.Builtin.Background
import UtilityCss.Utility.Builtin.Border
import UtilityCss.Utility.Builtin.Effect
import UtilityCss.Utility.Builtin.Flex
import UtilityCss.Utility.Builtin.Layout
import UtilityCss.Utility.Builtin.Motion
import UtilityCss.Utility.Builtin.Transform
import UtilityCss.Utility.Builtin.Typography
import UtilityCss.Utility.Custom
import UtilityCss.Utility.Match
import UtilityCss.Utility.Recipe
import UtilityCss.Utility.Registry
import UtilityCss.Utility.Table
import UtilityCss.Utility.Template
import UtilityCss.Utility.Value
import UtilityCss.Value.Arbitrary
import UtilityCss.Value.Color
import UtilityCss.Value.DataType
import UtilityCss.Value.Inference
import UtilityCss.Value.Measure
import UtilityCss.Variant.Basic
import UtilityCss.Variant.Builtin
import UtilityCss.Variant.Order
import UtilityCss.Variant.Parser
import UtilityCss.Variant.Registry
import UtilityCss.Variant.Rule
import UtilityCss.Variant.Wrap
