import ModuleLowering.Main
import ModuleLowering.Proofs.Evaluation.Expression
import ModuleLowering.Proofs.Evaluation.LiveExpression
import ModuleLowering.Proofs.Evaluation.LoweredStep
import ModuleLowering.Proofs.Evaluation.ModuleRun
import ModuleLowering.Proofs.Evaluation.Publication
import ModuleLowering.Proofs.Evaluation.Respelled
import ModuleLowering.Proofs.Evaluation.Statement
import ModuleLowering.Proofs.Evaluation.VariableModule
import ModuleLowering.Proofs.Lower.AlphaRenaming
import ModuleLowering.Proofs.Lower.Arrange
import ModuleLowering.Proofs.Lower.Capture
import ModuleLowering.Proofs.Lower.DeclaredName
import ModuleLowering.Proofs.Lower.DefinedName
import ModuleLowering.Proofs.Lower.Draft
import ModuleLowering.Proofs.Lower.DraftForm
import ModuleLowering.Proofs.Lower.Emission
import ModuleLowering.Proofs.Lower.ExportEntry
import ModuleLowering.Proofs.Lower.ExportScan
import ModuleLowering.Proofs.Lower.ExportWrite
import ModuleLowering.Proofs.Lower.ExternalName
import ModuleLowering.Proofs.Lower.FirstOccurrence
import ModuleLowering.Proofs.Lower.FreshName
import ModuleLowering.Proofs.Lower.FrontOrder
import ModuleLowering.Proofs.Lower.ImportPlacement
import ModuleLowering.Proofs.Lower.Insertion
import ModuleLowering.Proofs.Lower.Item
import ModuleLowering.Proofs.Lower.Layout
import ModuleLowering.Proofs.Lower.LivePath
import ModuleLowering.Proofs.Lower.LiveTree
import ModuleLowering.Proofs.Lower.LoadOrder
import ModuleLowering.Proofs.Lower.LoweredDeclaration
import ModuleLowering.Proofs.Lower.LoweredItem
import ModuleLowering.Proofs.Lower.Mention
import ModuleLowering.Proofs.Lower.Placement
import ModuleLowering.Proofs.Lower.Provenance
import ModuleLowering.Proofs.Lower.Redirect
import ModuleLowering.Proofs.Lower.RenamedExport
import ModuleLowering.Proofs.Lower.RequireBinding
import ModuleLowering.Proofs.Lower.Run
import ModuleLowering.Proofs.Lower.RuntimeName
import ModuleLowering.Proofs.Lower.Spelling
import ModuleLowering.Proofs.Lower.Surroundings
import ModuleLowering.Proofs.Lower.Table
import ModuleLowering.Proofs.Scope.Analysis
import ModuleLowering.Proofs.Scope.Context
import ModuleLowering.Proofs.Scope.Declaration
import ModuleLowering.Proofs.Scope.Flat
import ModuleLowering.Proofs.Scope.Reach
import ModuleLowering.Proofs.Scope.Rename
import ModuleLowering.Proofs.Scope.RenamedTable
import ModuleLowering.Proofs.Scope.Resolution
import ModuleLowering.Proofs.Scope.RootDeclaration
import ModuleLowering.Proofs.Scope.Table
import ModuleLowering.Proofs.Tree
import ModuleLowering.Proofs.Lower.Failure
import ModuleLowering.Proofs.Lower.ModuleSyntax
import ModuleLowering.Proofs.Trace.Behaviour
import ModuleLowering.Proofs.Trace.Run
import ModuleLowering.Proofs.Trace.Mirror
import ModuleLowering.Proofs.Trace.Written
import ModuleLowering.Proofs.Trace.MirroredWrite
import ModuleLowering.Proofs.Trace.Property
import ModuleLowering.Proofs.Trace.LoweredRun
import ModuleLowering.Proofs.Trace.SettledExport
import ModuleLowering.Proofs.Lower.StarItem
import ModuleLowering.Proofs.Trace.StarExport
import ModuleLowering.Proofs.CommandLine.Request
import ModuleLowering.Proofs.CommandLine.OutputOption
import ModuleLowering.Proofs.CommandLine.AllOrNothing
import ModuleLowering.Proofs.Lower.Exposure
import ModuleLowering.Proofs.Lower.ReservedName
import ModuleLowering.Proofs.Lower.Receiver
import ModuleLowering.Proofs.Evaluation.Double
import ModuleLowering.Proofs.Evaluation.UpdatedValue
import ModuleLowering.Proofs.Lower.CompletionPosition
import ModuleLowering.Proofs.Lower.PropertyKey
import ModuleLowering.Proofs.Lower.ImportBinding
import ModuleLowering.Proofs.Evaluation.UnchangedVariable
import ModuleLowering.Proofs.Lower.TypeDeclaration
import ModuleLowering.Proofs.Lower.Selection
import ModuleLowering.Proofs.Lower.Shorthand
import ModuleLowering.Proofs.Lower.Tag
import ModuleLowering.Proofs.Lower.Element
import ModuleLowering.Proofs.Lower.TagAgreement
import ModuleLowering.Proofs.Lower.HelperDeclaration
import ModuleLowering.Proofs.Lower.NameSupply
import ModuleLowering.Proofs.Options.Grammar
import ModuleLowering.Proofs.Options.Reading
import ModuleLowering.Proofs.Lower.ImportHint
import ModuleLowering.Proofs.Lower.DefaultAlias
import ModuleLowering.Proofs.Lower.TableLog
import ModuleLowering.Proofs.Text.Identifier
import ModuleLowering.Proofs.Text.ModulePath
