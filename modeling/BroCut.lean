import BroCut.CString
import BroCut.Separator
import BroCut.Params
import BroCut.Indexes
import BroCut.Output
import BroCut.Driver
import BroCut.HeaderBlocks
import BroCut.Framing
import BroCut.Bounds
import BroCut.SeparatorState
import BroCut.Blocks
import BroCut.Projection
import BroCut.TimeTypes
import BroCut.Recut
import BroCut.Status
import BroCut.Calendar
import BroCut.Options
import BroCut.Lines
import BroCut.Program
import BroCut.Safety
import BroCut.Identity
import BroCut.Complement
import BroCut.TimeProjection
