import NorStore.Checksum
import NorStore.Error
import NorStore.Flash.Geometry
import NorStore.Flash.Device
import NorStore.Flash.Chip
import NorStore.Record.Format
import NorStore.Layout
import NorStore.Record.Access
import NorStore.Log
import NorStore.Generation
import NorStore.Index
import NorStore.Compaction
import NorStore.Store
import NorStore.Store.Shared
import NorStore.Bench
import NorStore.Proofs.Alignment
import NorStore.Proofs.Cells
import NorStore.Proofs.Access
import NorStore.Proofs.RecordCodec
import NorStore.Proofs.Fetch
import NorStore.Proofs.Acceptance
import NorStore.Proofs.Program
import NorStore.Proofs.LogScan
import NorStore.Proofs.Selection
import NorStore.Proofs.Scan
import NorStore.Proofs.Slots
import NorStore.Proofs.LogWalk
import NorStore.Proofs.LogWrite
import NorStore.Proofs.Compact
import NorStore.Proofs.Append
import NorStore.Proofs.Room
import NorStore.Proofs.Operations
import NorStore.Proofs.Reset
import NorStore.Proofs.Reads
import NorStore.Proofs.Session
import NorStore.Proofs.Recovery
import NorStore.Proofs.Refinement
import NorStore.Proofs.ReadAgreement
import NorStore.Proofs.Recorder
import NorStore.Proofs.AccessTrace
import NorStore.Proofs.CompactionTrace
import NorStore.Proofs.CallTrace
import NorStore.Proofs.AccessDiscipline
import NorStore.Proofs.GenerationOrder
import NorStore.Proofs.RoundTrip
import NorStore.Proofs.IssuedWrites
import NorStore.Proofs.CompactionWrites
import NorStore.Proofs.UsedRoom
import NorStore.Proofs.SpaceLaw
import NorStore.Proofs.TornRecord
import NorStore.Proofs.PowerLoss
