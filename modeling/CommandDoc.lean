import CommandDoc.Text.Blank
import CommandDoc.Text.LetterCase
import CommandDoc.Text.Nesting
import CommandDoc.Text.Occurrence
import CommandDoc.Text.Quoted
import CommandDoc.Text.WordChar
import CommandDoc.Ordered
import CommandDoc.Name.Identifier
import CommandDoc.Name.Kebab
import CommandDoc.Name.Flag
import CommandDoc.Signature.TypeTag
import CommandDoc.Signature.FunctionRef
import CommandDoc.Signature.Source
import CommandDoc.Param.Candidate
import CommandDoc.Param.AttributeBlock
import CommandDoc.Param.Attributes
import CommandDoc.Param.Markers
import CommandDoc.Param.Description
import CommandDoc.Data.Basic
import CommandDoc.Json.Printer
import CommandDoc.Json.Reader
import CommandDoc.Model.Parameter
import CommandDoc.Model.Basic
import CommandDoc.Model.Validation
import CommandDoc.Warning
import CommandDoc.Report
import CommandDoc.Bundle
import CommandDoc.Data.Signature
import CommandDoc.Data.Param
import CommandDoc.Data.Model
import CommandDoc.Comment.Lines
import CommandDoc.Comment.Directive
import CommandDoc.Data.Directive
import CommandDoc.Build.Error
import CommandDoc.Declaration
import CommandDoc.Tree.Basic
import CommandDoc.Tree.Flatten
import CommandDoc.Tree.Nested
import CommandDoc.Build.Basic
import CommandDoc.View.Columns
import CommandDoc.View.Usage
import CommandDoc.View.Markdown
import CommandDoc.View.Table
import CommandDoc.Decimal
import CommandDoc.Yaml.CharClass
import CommandDoc.Yaml.Scalar
import CommandDoc.Yaml.Printer
import CommandDoc.View.Format
import CommandDoc.Data.Settings
import CommandDoc.Yaml.Cursor
import CommandDoc.Yaml.ScalarText
import CommandDoc.Yaml.Token
import CommandDoc.Yaml.Node
import CommandDoc.Yaml.Composition
import CommandDoc.Yaml.Reader
import CommandDoc.Yaml.Settings
import CommandDoc.Files.Path
import CommandDoc.Files.Tree
import CommandDoc.Files.Error
import CommandDoc.Files.Declarations
import CommandDoc.Files.Settings
import CommandDoc.CommandLine.Arguments
import CommandDoc.CommandLine.Request
import CommandDoc.CommandLine.Response
import CommandDoc.Main
import CommandDoc.Proofs.Ordered
import CommandDoc.Proofs.Decimal
import CommandDoc.Proofs.Except
import CommandDoc.Proofs.Tree.Contents
import CommandDoc.Proofs.Tree.Row
import CommandDoc.Proofs.Tree.Arena
import CommandDoc.Proofs.Build.Assembly
import CommandDoc.Proofs.Warning
import CommandDoc.Proofs.Build.Rearrangement
import CommandDoc.Proofs.Model.Validation
import CommandDoc.Proofs.Model.VisibleFlags
import CommandDoc.Proofs.Comment.Lines
import CommandDoc.Proofs.Comment.Scan
import CommandDoc.Proofs.Comment.Directive
import CommandDoc.Proofs.Comment.LineForm
import CommandDoc.Proofs.Comment.RoundTrip
import CommandDoc.Proofs.Tree.Scope
import CommandDoc.Proofs.Tree.Deferral
import CommandDoc.Proofs.Tree.Inheritance
import CommandDoc.Proofs.Tree.Acceptance
import CommandDoc.Proofs.Tree.Refusal
import CommandDoc.Proofs.Name.Identifier
import CommandDoc.Proofs.Tree.StructNames
import CommandDoc.Proofs.Tree.NestedInsertion
import CommandDoc.Proofs.Tree.NestedWalk
import CommandDoc.Proofs.Declaration
import CommandDoc.Proofs.Build.Signature
import CommandDoc.Proofs.Text.Nesting
import CommandDoc.Proofs.Text.Occurrence
import CommandDoc.Proofs.Text.LetterCase
import CommandDoc.Proofs.Param.Markers
import CommandDoc.Proofs.Param.Description
import CommandDoc.Proofs.Signature.FunctionRef
import CommandDoc.Proofs.Param.Attributes
import CommandDoc.Proofs.Param.AttributeBlock
import CommandDoc.Proofs.Param.RoundTrip
import CommandDoc.Proofs.Text.Blank
import CommandDoc.Proofs.Text.WordChar
import CommandDoc.Proofs.Name.Flag
import CommandDoc.Proofs.Comment.Declaration
import CommandDoc.Proofs.Param.Coherence
import CommandDoc.Proofs.Model.Parameter
import CommandDoc.Proofs.Build.WellFormed
import CommandDoc.Proofs.Build.Faults
import CommandDoc.Proofs.Build.Lookup
import CommandDoc.Proofs.Model.Validity
import CommandDoc.Proofs.Tree.Recast
import CommandDoc.Proofs.Build.Independence
import CommandDoc.Proofs.Build.Settings
import CommandDoc.Proofs.Comment.Markers
import CommandDoc.Proofs.Text.Groups
import CommandDoc.Proofs.Param.BlockEnds
import CommandDoc.Proofs.Build.Failure
import CommandDoc.Proofs.Comment.Coverage
import CommandDoc.Proofs.Json.Leaf
import CommandDoc.Proofs.Json.RoundTrip
import CommandDoc.Proofs.Data.Records
import CommandDoc.Proofs.Data.Signature
import CommandDoc.Proofs.Data.Model
import CommandDoc.Proofs.Param.AttributeOrder
import CommandDoc.Proofs.Param.DefaultValue
import CommandDoc.Proofs.Param.MarkerWords
import CommandDoc.Proofs.Param.LostMarker
import CommandDoc.Proofs.Comment.ArgumentLine
import CommandDoc.Proofs.Param.Accumulation
import CommandDoc.Proofs.Signature.Display
import CommandDoc.Proofs.Param.BlockExtent
import CommandDoc.Proofs.Name.Allocation
import CommandDoc.Proofs.Param.Priority
import CommandDoc.Proofs.Model.Position
import CommandDoc.Proofs.Extraction
import CommandDoc.Proofs.Build.Collision
import CommandDoc.Proofs.Param.FlagRow
import CommandDoc.Proofs.Text.Spacing
import CommandDoc.Proofs.Param.WellFormed
import CommandDoc.Proofs.View.Usage
import CommandDoc.Proofs.View.Markdown
import CommandDoc.Proofs.Name.Kebab
import CommandDoc.Proofs.Name.CanonicalFlags
import CommandDoc.Proofs.Text.Cutting
import CommandDoc.Proofs.Files.Path
import CommandDoc.Proofs.Files.Tree
import CommandDoc.Proofs.Files.Declarations
import CommandDoc.Proofs.Files.Collection
