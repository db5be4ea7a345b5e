import Opstream.Main
import Opstream.Proofs.ListingAssembly
import Opstream.Workspace
import Opstream.Proofs.CursorRun
import Opstream.Proofs.WalkAppend
import Opstream.Proofs.WalkPrefix
import Opstream.Proofs.ListingDecoding
import Opstream.Proofs.ListingContent
import Opstream.Proofs.StatementGrammar
import Opstream.Proofs.ProgramLines
import Opstream.Proofs.WorkspaceRecord
import Opstream.Proofs.WorkspaceOffsets
import Opstream.Proofs.ProgramFaults
import Opstream.Proofs.InstructionText
import Opstream.Proofs.TableLayout
import Opstream.Proofs.TableListing
import Opstream.Proofs.TableReading
import Opstream.Proofs.TableBytes
import Opstream.Proofs.CommandModes
import Opstream.Proofs.CommandLog
import Opstream.Proofs.CommandWarnings
import Opstream.Proofs.EncodingFormat
import Opstream.Proofs.OperandLiterals
import Opstream.Proofs.SourceLayout
import Opstream.Proofs.InPlaceWalk
import Opstream.Proofs.DirectRead
