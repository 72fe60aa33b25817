import JavaDecl.Text.Blank
import JavaDecl.Text.Bytes
import JavaDecl.Text.Quoted
import JavaDecl.Text.UnicodeEscape
import JavaDecl.Location
import JavaDecl.ParseError
import JavaDecl.Violation
import JavaDecl.Failure
import JavaDecl.Token.Kind
import JavaDecl.Token.Scan
import JavaDecl.Token.Block
import JavaDecl.Token.Stream
import JavaDecl.Declaration.Basic
import JavaDecl.DocComment
import JavaDecl.Event
import JavaDecl.Grammar.Reading
import JavaDecl.Grammar.Unit
import JavaDecl.NameTable
import JavaDecl.Model.Assembly
import JavaDecl.Model.ResolvedType
import JavaDecl.FileTree
import JavaDecl.Library.Basic
import JavaDecl.ClassPath
import JavaDecl.Settings
import JavaDecl.Lookup.Candidate
import JavaDecl.Lookup.Hierarchy
import JavaDecl.Lookup.Substitution
import JavaDecl.Lookup.Member
import JavaDecl.Lookup.Memo
import JavaDecl.Session
import JavaDecl.Workspace
import JavaDecl.CommandLine.Request
import JavaDecl.CommandLine.Listing
import JavaDecl.CommandLine.Outcome
import JavaDecl.Proofs.Nesting
import JavaDecl.Proofs.NestedAssembly
import JavaDecl.Proofs.FailedBuilds
import JavaDecl.Proofs.Overloads
import JavaDecl.Proofs.GenericOverrides
import JavaDecl.Proofs.MirroredUnits
import JavaDecl.Proofs.ResolutionOrder
import JavaDecl.Proofs.DocumentedEntities
import JavaDecl.Proofs.AnnotatedEntities
import JavaDecl.Proofs.InterlinkedModels
import JavaDecl.Proofs.AddedTogether
import JavaDecl.Proofs.NodesOfTypes
import JavaDecl.Proofs.OwnVariables
import JavaDecl.Proofs.CapturedBlocks
import JavaDecl.Proofs.BlockBodies
import JavaDecl.Proofs.BlockContents
import JavaDecl.Main
import JavaDecl.Proofs.LargerLibraries
import JavaDecl.Proofs.ParallelPhrases
import JavaDecl.Proofs.TiledSources
import JavaDecl.Proofs.ParallelDeclarations
import JavaDecl.Proofs.SourcePlaces
import JavaDecl.Proofs.CarriageReturns
import JavaDecl.Proofs.LexemesInLines
import JavaDecl.Proofs.LineEndings
import JavaDecl.Proofs.CutLexemes
import JavaDecl.Proofs.SetOutTokens
import JavaDecl.Proofs.KnownTokens
import JavaDecl.Proofs.PlainTypes
import JavaDecl.Proofs.KnownTypes
import JavaDecl.Proofs.TypesReadBack
import JavaDecl.Proofs.DecodedEscapes
import JavaDecl.Proofs.IdentifierTexts
import JavaDecl.Proofs.ModulesReadBack
import JavaDecl.Proofs.AnnotationsReadBack
import JavaDecl.Proofs.BlockTags
import JavaDecl.Proofs.FirstTokens
import JavaDecl.Proofs.StandingReadings
import JavaDecl.Proofs.ExpressionExtents
import JavaDecl.Proofs.CutExpressions
import JavaDecl.Proofs.FittingEvents
import JavaDecl.Proofs.FittingDeclarations
import JavaDecl.Proofs.Declarators
import JavaDecl.Proofs.ClassUnits
import JavaDecl.Proofs.TypeTexts
import JavaDecl.Proofs.FieldDeclarations
import JavaDecl.Proofs.InitialValues
import JavaDecl.Proofs.StandingAnnotations
import JavaDecl.Proofs.ClosedAngles
import JavaDecl.Proofs.ComparedArguments
import JavaDecl.Proofs.SharedDeclarations
import JavaDecl.Proofs.EnumConstants
import JavaDecl.Proofs.LibraryRecords
import JavaDecl.Proofs.ErasureChains
import JavaDecl.Proofs.KeptAccounts
import JavaDecl.Proofs.TagLines
import JavaDecl.Proofs.BegunClasses
import JavaDecl.Proofs.AddedUnits
import JavaDecl.Proofs.FirstSupertypes
import JavaDecl.Proofs.ConstantBodies
import JavaDecl.Proofs.ListedClasses
import JavaDecl.Proofs.CrowdedHierarchies
