import DeploymentRecords.Main
import DeploymentRecords.Proofs.AddressSpelling
import DeploymentRecords.Proofs.AddressTables
import DeploymentRecords.Proofs.CleanAudit
import DeploymentRecords.Proofs.Runs
import DeploymentRecords.Proofs.SourceFile
import DeploymentRecords.Proofs.SourceFields
import DeploymentRecords.Proofs.Tidy
import DeploymentRecords.Proofs.StringLocality
import DeploymentRecords.Proofs.StringTidy
import DeploymentRecords.Proofs.StringQuote
import DeploymentRecords.Proofs.KeyReading
import DeploymentRecords.Proofs.Gaps
import DeploymentRecords.Proofs.SoundExpr
import DeploymentRecords.Proofs.ExprReading
import DeploymentRecords.Proofs.StatementReading
import DeploymentRecords.Proofs.Outline
import DeploymentRecords.Proofs.Schedule
import DeploymentRecords.Proofs.Growth
import DeploymentRecords.Proofs.Rebuilding
import DeploymentRecords.Proofs.PrintedTree
import DeploymentRecords.Proofs.EditedTree
import DeploymentRecords.Proofs.CanonicalValue
import DeploymentRecords.Proofs.Meaning
import DeploymentRecords.Proofs.Overwriting
import DeploymentRecords.Proofs.Boxes
import DeploymentRecords.Proofs.Rereading
import DeploymentRecords.Proofs.Untouched
import DeploymentRecords.Proofs.Atoms
import DeploymentRecords.Proofs.ChangedFiles
import DeploymentRecords.Proofs.Attribution
import DeploymentRecords.Proofs.WrittenFiles
import DeploymentRecords.Proofs.GivenFlags
import DeploymentRecords.Proofs.UpdateCommand
import DeploymentRecords.Proofs.Sections
import DeploymentRecords.Proofs.Histories
import DeploymentRecords.Proofs.PhysicalLines
import DeploymentRecords.Proofs.Sheets
import DeploymentRecords.Proofs.SheetReading
import DeploymentRecords.Proofs.SheetTree
import DeploymentRecords.Proofs.SheetChanges
import DeploymentRecords.Proofs.InsertedLine
import DeploymentRecords.Proofs.PageSections
import DeploymentRecords.Proofs.RecasedPages
import DeploymentRecords.Proofs.RecasedSources
import DeploymentRecords.Proofs.RecasedAudit
import DeploymentRecords.Proofs.Passages
import DeploymentRecords.Proofs.UniformText
import DeploymentRecords.Proofs.Leaves
import DeploymentRecords.Proofs.AlikeTrees
import DeploymentRecords.Proofs.RepeatedEdit
import DeploymentRecords.Proofs.RepeatedUpdate
import DeploymentRecords.Proofs.ConstantBlocks
import DeploymentRecords.Proofs.LocatedSections
import DeploymentRecords.Proofs.Listings
import DeploymentRecords.Proofs.FieldPlaces
import DeploymentRecords.Proofs.WholeAddresses
import DeploymentRecords.Proofs.EntryLines
import DeploymentRecords.Proofs.Accounts
import DeploymentRecords.Proofs.RowOrder
import DeploymentRecords.Proofs.Loading
import DeploymentRecords.Proofs.PrintedAudit
import DeploymentRecords.Proofs.ArgumentLists
import DeploymentRecords.Proofs.SpelledFlags
import DeploymentRecords.Proofs.IndependentChanges
import DeploymentRecords.Proofs.FindingTexts
import DeploymentRecords.Proofs.Patterns
import DeploymentRecords.Proofs.FieldScan
import DeploymentRecords.Proofs.TableInvariants
import DeploymentRecords.Proofs.TidyLines
