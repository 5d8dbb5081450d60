import Schemata.Number.Shortest
import Schemata.Text.Blank
import Schemata.Text.Quoted
import Schemata.Record
import Schemata.Value.Literal
import Schemata.Value.Json
import Schemata.TypeSpec.Reader
import Schemata.Definition.Literal
import Schemata.Definition.Check
import Schemata.Entry
import Schemata.Catalog
import Schemata.Registry
import Schemata.Mode
import Schemata.Schema
import Schemata.Parameter
import Schemata.Compile.Error
import Schemata.Compile.Classify
import Schemata.Compile.Walk
import Schemata.Compiler
import Schemata.Session
import Schemata.Number.Decimal
import Schemata.Yaml.Cursor
import Schemata.Yaml.Scalar
import Schemata.Yaml.Token
import Schemata.Yaml.Graph
import Schemata.Yaml.Content
import Schemata.Document
import Schemata.Main
import Schemata.Proofs.Records
import Schemata.Proofs.WalkRules
import Schemata.Proofs.BodyShapes
import Schemata.Proofs.CompileRules
import Schemata.Proofs.TableGrowth
import Schemata.Proofs.SessionTables
import Schemata.Proofs.SchemaPositions
import Schemata.Proofs.CatalogInvariant
import Schemata.Proofs.CatalogGrowth
import Schemata.Proofs.ClosedProperties
import Schemata.Proofs.KeywordLaws
import Schemata.Proofs.DialectTables
import Schemata.Proofs.SoundSchemas
import Schemata.Proofs.SoundReferences
import Schemata.Proofs.WalkAgreement
import Schemata.Proofs.WalkMemory
import Schemata.Proofs.DefinitionGraph
import Schemata.Proofs.HoistedTypes
import Schemata.Proofs.SourcedTables
import Schemata.Proofs.ReferenceGrammar
import Schemata.Proofs.RenderedReferences
import Schemata.Proofs.EntryPoints
import Schemata.Proofs.HistoryIndependence
import Schemata.Proofs.WalkFailures
import Schemata.Proofs.CompileErrors
import Schemata.Proofs.AdmissibleReferences
import Schemata.Proofs.HoistingSuccess
import Schemata.Proofs.BodyPairs
import Schemata.Proofs.InlinedTypes
import Schemata.Proofs.InlineRecursion
import Schemata.Proofs.HoistingSimulation
import Schemata.Proofs.Unfolding
import Schemata.Proofs.UnfoldedSchemas
import Schemata.Proofs.UnfoldedAnswers
import Schemata.Proofs.SchemaMeaning
import Schemata.Proofs.SchemaAgreement
import Schemata.Proofs.HoistedMeaning
import Schemata.Proofs.InvisibleMemory
import Schemata.Proofs.Locality
import Schemata.Proofs.RebasedSchemas
import Schemata.Proofs.RebasedWalks
import Schemata.Proofs.ModeExchange
import Schemata.Proofs.ShapeBodies
import Schemata.Proofs.MaintainedProperties
import Schemata.Proofs.EmittedReferences
import Schemata.Proofs.JsonPointers
import Schemata.Proofs.CheckedDefinitions
import Schemata.Proofs.WellFormedSchemas
import Schemata.Proofs.WalkScripts
import Schemata.Proofs.WalkMachine
import Schemata.Proofs.BoundedRecursion
import Schemata.Proofs.RecursiveObjects
import Schemata.Proofs.NullableReferences
import Schemata.Proofs.NullableMeaning
import Schemata.Proofs.NullAdmission
import Schemata.Proofs.MarkedFields
import Schemata.Proofs.RequiredProperties
import Schemata.Proofs.DeclaredErrors
import Schemata.Proofs.DependencyOrder
import Schemata.Proofs.OrderedTables
import Schemata.Proofs.PointwiseParameters
import Schemata.Proofs.MemberNames
import Schemata.Proofs.LoadedDocuments
import Schemata.Proofs.RestoredDefinitions
import Schemata.Proofs.ComposedNodes
import Schemata.Proofs.MergedNodes
import Schemata.Proofs.DenotedNodes
import Schemata.Proofs.LoadedFiles
import Schemata.Proofs.JsonTexts
import Schemata.Proofs.PrintedNumbers
import Schemata.Proofs.PrintedValues
import Schemata.Proofs.PlainSchemas
import Schemata.Proofs.CompileVerdicts
