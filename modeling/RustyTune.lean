import RustyTune.Datalog.Recorded
import RustyTune.EcuProto.Calibration
import RustyTune.EcuProto.Corruption
import RustyTune.EcuProto.Framing
import RustyTune.EcuProto.Secondary
import RustyTune.EcuProto.Templates
import RustyTune.Server.Calibration
import RustyTune.Server.Chunks
import RustyTune.Server.CleanLine
import RustyTune.Server.Forms
import RustyTune.Server.Interleaving
import RustyTune.Server.Kept
import RustyTune.Server.Offline
import RustyTune.Server.Recalibrate
import RustyTune.Server.Refusals
import RustyTune.Server.Retention
import RustyTune.Server.Shutdown
import RustyTune.Server.Store
import RustyTune.Server.Unsaved
import RustyTune.TsIni.Conditionals
import RustyTune.TsIni.Grammar
import RustyTune.TsIni.Offsets
import RustyTune.TsIni.Render
import RustyTune.TsIni.Shifts
import RustyTune.TsIni.Valueless
import RustyTune.TuneModel.CellEdits
import RustyTune.TuneModel.Msq.Agreement
import RustyTune.TuneModel.Msq.CrashFree
import RustyTune.TuneModel.Msq.Fresh
import RustyTune.TuneModel.Msq.Masked
import RustyTune.TuneModel.Msq.Order
import RustyTune.TuneModel.References
import RustyTune.Web.Applied
