import SpellPack.Disk.Tree
import SpellPack.Document.Session
import SpellPack.Main
import SpellPack.Proofs.ExactNumbers
import SpellPack.Proofs.IndentedReading
import SpellPack.Proofs.NumeralReading
import SpellPack.Proofs.NumeralText
import SpellPack.Proofs.QuotedText
import SpellPack.Proofs.ValueReading
import SpellPack.Proofs.FieldReading
import SpellPack.Proofs.DocumentReopening
import SpellPack.Proofs.SavedDocument
import SpellPack.Proofs.ReopenedPack
import SpellPack.Proofs.FileTable
import SpellPack.Proofs.SlugText
import SpellPack.Proofs.PackPaths
import SpellPack.Proofs.FileLines
import SpellPack.Proofs.CommandLines
import SpellPack.Proofs.MacroTokens
import SpellPack.Proofs.PackFiles
import SpellPack.Proofs.RayMacros
import SpellPack.Proofs.PackLines
import SpellPack.Proofs.PackReferences
import SpellPack.Proofs.LegacyLayout
import SpellPack.Proofs.DocumentImport
import SpellPack.Proofs.SessionRuns
import SpellPack.Proofs.PackContents
import SpellPack.Proofs.EditedPack
import SpellPack.Proofs.ArgumentReading
import SpellPack.Proofs.CommandRuns
import SpellPack.Proofs.NearestRank
import SpellPack.Proofs.ShortestDecimal
import SpellPack.Proofs.WrittenNumerals
import SpellPack.Proofs.NumberDrift
import SpellPack.Proofs.RereadNumbers
import SpellPack.Proofs.ShortNumbers
import SpellPack.Proofs.ReopenedNumbers
import SpellPack.Proofs.MarkedCommands
import SpellPack.Proofs.DiskRuns
import SpellPack.Proofs.FailedCommands
import SpellPack.Proofs.PathNames
import SpellPack.Proofs.PackPlaces
import SpellPack.Proofs.DiskTrees
import SpellPack.Proofs.PathWalks
import SpellPack.Proofs.MadeDirectories
import SpellPack.Proofs.BlockedWays
import SpellPack.Proofs.TreeReading
import SpellPack.Proofs.WrittenPacks
import SpellPack.Proofs.StoredPacks
import SpellPack.Proofs.TokenSearch
import SpellPack.Proofs.SkippedEntries
import SpellPack.Proofs.UnfinishedPacks
import SpellPack.Proofs.WrittenTexts
import SpellPack.Proofs.PointPreview
import SpellPack.Proofs.CommandNumbers
import SpellPack.Proofs.PrintedSteps
import SpellPack.Proofs.TextEnds
import SpellPack.Proofs.TextForms
import SpellPack.Proofs.SlugBlocks
import SpellPack.Proofs.CommandGrouping
import SpellPack.Proofs.NearestInteger
import SpellPack.Proofs.DoubleReading
import SpellPack.Proofs.ShownNumbers
import SpellPack.Proofs.CanonicalNumbers
import SpellPack.Proofs.SelectedPoint
import SpellPack.Proofs.GridPlaces
import SpellPack.Proofs.ManifestReading
import SpellPack.Proofs.NamedHeaders
import SpellPack.Proofs.LineBreaks
import SpellPack.Proofs.CompactText
import SpellPack.Proofs.ImportedCommands
