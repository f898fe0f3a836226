import SchemaLang.Main
import SchemaLang.Proofs.Compilation
import SchemaLang.Traversal
import SchemaLang.Proofs.Failure
import SchemaLang.Proofs.Verdicts
import SchemaLang.Proofs.FieldNames
import SchemaLang.Proofs.Parsing
import SchemaLang.Proofs.Reformatting
import SchemaLang.Proofs.Rendering
import SchemaLang.Proofs.Layout
import SchemaLang.Proofs.Places
import SchemaLang.Proofs.FloatBits
import SchemaLang.Proofs.Grouping
import SchemaLang.Proofs.Rounding
import SchemaLang.Proofs.DecimalText
import SchemaLang.Proofs.JsonSchema
import SchemaLang.Proofs.OutlineText
import SchemaLang.Proofs.Outlines
import SchemaLang.Proofs.Shows
import SchemaLang.Proofs.JsonText
import SchemaLang.Proofs.Legible
import SchemaLang.Proofs.Redeclaration
import SchemaLang.Proofs.Extension
import SchemaLang.Proofs.Relinking
import SchemaLang.Proofs.CommandEffects
import SchemaLang.Proofs.DottedNames
import SchemaLang.Proofs.NumericBounds
import SchemaLang.Proofs.FieldDeclarations
import SchemaLang.Proofs.ParserRuns
import SchemaLang.Proofs.RangeBounds
import SchemaLang.Proofs.ParentWalk
import SchemaLang.Proofs.ParentErrors
import SchemaLang.Proofs.LinkWriting
import SchemaLang.Proofs.LinkedForm
import SchemaLang.Proofs.CheckOrder
import SchemaLang.Proofs.SeparateValidation
import SchemaLang.Proofs.Preorder
import SchemaLang.Proofs.LoadingOrder
import SchemaLang.Proofs.ErrorLocality
import SchemaLang.Proofs.LiteralFaults
import SchemaLang.Proofs.ArrayTypes
import SchemaLang.Proofs.LinePlaces
import SchemaLang.Proofs.Printing
import SchemaLang.Proofs.AttributeGroups
