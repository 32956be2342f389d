import GraphJournal.Describe
import GraphJournal.Entry.Scan
import GraphJournal.Replay
import GraphJournal.SaveQueue.Scripted
import GraphJournal.Workspace
import GraphJournal.Proofs.JournalHistory
import GraphJournal.Proofs.LawfulStore
import GraphJournal.Proofs.CellHistory
import GraphJournal.Proofs.Recording
import GraphJournal.Proofs.Revision
import GraphJournal.Proofs.Reading
import GraphJournal.Proofs.RoundTrip
import GraphJournal.Proofs.Tree
import GraphJournal.Proofs.Applying
import GraphJournal.Proofs.Saving
import GraphJournal.Proofs.Replica
import GraphJournal.Proofs.Scanning
import GraphJournal.Proofs.Descent
import GraphJournal.Proofs.QueueRun
import GraphJournal.Proofs.QueuedHandles
import GraphJournal.Proofs.Visits
import GraphJournal.Proofs.RootLinks
import GraphJournal.Proofs.RecordGrammar
import GraphJournal.Proofs.Offsets
import GraphJournal.Proofs.BadRecords
import GraphJournal.Proofs.ValueRecords
import GraphJournal.Proofs.Checkpoint
import GraphJournal.Proofs.SplitReplay
import GraphJournal.Proofs.Guards
import GraphJournal.Proofs.ValueForms
import GraphJournal.Proofs.DecodedValues
import GraphJournal.Proofs.Release
import GraphJournal.Proofs.Ascent
import GraphJournal.Proofs.Detachment
import GraphJournal.Proofs.DirectoryRun
import GraphJournal.Proofs.Lockstep
import GraphJournal.Proofs.WorkerPass
import GraphJournal.Proofs.Vaults
import GraphJournal.Proofs.WorkerUpkeep
import GraphJournal.Proofs.WorkerSchedule
import GraphJournal.Proofs.Backpressure
import GraphJournal.Proofs.Consumption
import GraphJournal.Proofs.Strictness
import GraphJournal.Proofs.Hooks
import GraphJournal.Proofs.LastWrite
import GraphJournal.Proofs.Scripts
import GraphJournal.Proofs.Framing
import GraphJournal.Proofs.SegmentGrammar
import GraphJournal.Proofs.VarintLength
import GraphJournal.Proofs.WireValues
import GraphJournal.Proofs.NamedFields
import GraphJournal.Proofs.Worklist
import GraphJournal.Proofs.Doubles
