import Icicle.Library.Clocked
import Icicle.Library.Wishbone
import Icicle.Soc.FlashRead
import Icicle.Core.Isa
import Icicle.Isa.Rv32i
import Icicle.Framework.Lossless
import Icicle.Core.Traps
import Icicle.Core.Interlock
import Icicle.Core.SideEffects
import Icicle.Core.Progress
import Icicle.Core.Fence
import Icicle.Core.Refinement
import Icicle.Core.BusHold
import Icicle.Core.BlackBox
import Icicle.Core.MemFault
import Icicle.Soc.FlashFrames
import Icicle.Soc.Ice40Spram
import Icicle.Datapath.Encoding
import Icicle.Datapath.ByteAccess
import Icicle.Isa.Hart
import Icicle.Library.Program
import Icicle.Isa.Program
import Icicle.Soc.Program
import Icicle.Soc.Start
import Icicle.Core.HartRefinement
import Icicle.Core.Liveness
import Icicle.Core.Observation
import Icicle.Core.InsnCheck
import Icicle.Core.Pipeline
import Icicle.Soc.Execution
import Icicle.Soc.Progress
import Icicle.Soc.Uart
import Icicle.Soc.Boot
