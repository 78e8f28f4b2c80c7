import Monomorph.Cursor
import Monomorph.Main
import Monomorph.Proofs.Spelling
import Monomorph.Proofs.ReaderLaws
import Monomorph.Proofs.TableLaws
import Monomorph.Proofs.UsageLaws
import Monomorph.Proofs.CodeRuns
import Monomorph.Proofs.UsagesInCode
import Monomorph.Proofs.Lexemes
import Monomorph.Proofs.InertFrame
import Monomorph.Proofs.Identifiers
import Monomorph.Proofs.NameBoundaries
import Monomorph.Proofs.SubstitutionLaws
import Monomorph.Proofs.ReplacementLaws
import Monomorph.Proofs.Flattening
import Monomorph.Proofs.InstanceLaws
import Monomorph.Proofs.ArgumentTextLaws
import Monomorph.Proofs.ReferenceGrammar
import Monomorph.Proofs.ArgumentReaders
import Monomorph.Proofs.ArgumentErrors
import Monomorph.Proofs.ProgramLaws
import Monomorph.Proofs.Levels
import Monomorph.Proofs.WorkList
import Monomorph.Proofs.References
import Monomorph.Proofs.PathLaws
import Monomorph.Proofs.OutputPaths
import Monomorph.Proofs.TokenReaders
import Monomorph.Proofs.MethodSearch
import Monomorph.Proofs.CutLaws
import Monomorph.Proofs.BodilessMethods
import Monomorph.Proofs.RenamedTokens
import Monomorph.Proofs.MethodsCut
import Monomorph.Proofs.Nesting
import Monomorph.Proofs.NestedOutput
import Monomorph.Proofs.ScanLaws
import Monomorph.Proofs.RunReports
import Monomorph.Proofs.Modularity
import Monomorph.Proofs.UsagePlaces
import Monomorph.Proofs.LocalFlattening
import Monomorph.Proofs.Reachability
import Monomorph.Proofs.VariableDeclarations
import Monomorph.Proofs.ForcedInstances
import Monomorph.Proofs.TreeGrowth
import Monomorph.Proofs.TreeWrites
import Monomorph.Proofs.OutputWrites
import Monomorph.Proofs.RepeatedWrites
import Monomorph.Proofs.OutputPlaces
import Monomorph.Proofs.SourceFiles
import Monomorph.Proofs.Recompilation
import Monomorph.Proofs.RefusedRuns
import Monomorph.Proofs.Debouncing
import Monomorph.Proofs.RunwiseSubstitution
import Monomorph.Proofs.UsageTables
import Monomorph.Proofs.BracketDepth
import Monomorph.Proofs.ParameterLists
import Monomorph.Proofs.Modifiers
import Monomorph.Proofs.TemplateSearch
import Monomorph.Proofs.TemplateSlices
import Monomorph.Proofs.InstanceNames
import Monomorph.Proofs.SubstitutedIdentifiers
import Monomorph.Proofs.MethodSignatures
import Monomorph.Proofs.CutCharacters
import Monomorph.Proofs.ParameterGrammar
import Monomorph.Proofs.MethodSplices
import Monomorph.Proofs.MethodSlices
import Monomorph.Proofs.ConcreteNames
import Monomorph.Proofs.OutputDirectories
import Monomorph.Proofs.JsonStrings
import Monomorph.Proofs.Utf8Laws
import Monomorph.Proofs.LongIntegers
import Monomorph.Proofs.ConfigurationErrors
import Monomorph.Proofs.Decoration
import Monomorph.Proofs.Positions
import Monomorph.Proofs.PassedThrough
import Monomorph.Proofs.GroupEnds
import Monomorph.Proofs.CodeSegments
