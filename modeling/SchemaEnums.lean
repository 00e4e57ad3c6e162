import SchemaEnums.Main
import SchemaEnums.Proofs.Command.Footprint
import SchemaEnums.Proofs.Enums.Contents
import SchemaEnums.Proofs.Enums.Identifiers
import SchemaEnums.Proofs.Layout.ReadBack
import SchemaEnums.Proofs.Schema.Concatenation
import SchemaEnums.Proofs.Schema.Kept
import SchemaEnums.Proofs.Files.Place
import SchemaEnums.Proofs.Output.Moments
import SchemaEnums.Proofs.Command.Again
import SchemaEnums.Proofs.Schema.Rules
import SchemaEnums.Proofs.Schema.Walk
import SchemaEnums.Proofs.Schema.WordTrees
import SchemaEnums.Proofs.Schema.ValueTrees
import SchemaEnums.Proofs.Schema.LineTrees
import SchemaEnums.Proofs.Schema.BlockTrees
import SchemaEnums.Proofs.Schema.Faults
import SchemaEnums.Proofs.Schema.SchemaTrees
import SchemaEnums.Proofs.Schema.FirstFault
import SchemaEnums.Proofs.Schema.Order
import SchemaEnums.Proofs.Schema.Stubs
import SchemaEnums.Proofs.Config.Choice
import SchemaEnums.Proofs.Generate.Strict
import SchemaEnums.Proofs.Enums.Requests
import SchemaEnums.Proofs.Enums.Selection
import SchemaEnums.Proofs.Enums.Accessors
import SchemaEnums.Proofs.Enums.Distinct
import SchemaEnums.Proofs.Enums.Collisions
import SchemaEnums.Proofs.Schema.Escapes
import SchemaEnums.Proofs.Schema.JsonSpelling
import SchemaEnums.Proofs.Schema.LineEndings
import SchemaEnums.Proofs.Schema.Comments
import SchemaEnums.Proofs.Schema.Places
import SchemaEnums.Proofs.Schema.Verdict
import SchemaEnums.Proofs.Enums.Plans
import SchemaEnums.Proofs.Layout.Literal
import SchemaEnums.Proofs.Output.Modes
import SchemaEnums.Proofs.Layout.Endings
import SchemaEnums.Proofs.Naming.Camel
import SchemaEnums.Proofs.Enums.Table
import SchemaEnums.Proofs.Files.Temporary
