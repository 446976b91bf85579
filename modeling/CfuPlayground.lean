import CfuPlayground.Lib.Run
import CfuPlayground.Lib.Client
import CfuPlayground.Lib.Path
import CfuPlayground.Lib.Loop
import CfuPlayground.Lib.Lane
import CfuPlayground.Lib.Bytes
import CfuPlayground.Lib.Mix
import CfuPlayground.Lib.Digits
import CfuPlayground.Lib.Strtol
import CfuPlayground.Lib.Dict
import CfuPlayground.Lib.Stores
import CfuPlayground.Lib.Bresenham
import CfuPlayground.Lib.Congruential
import CfuPlayground.Lib.Pattern
import CfuPlayground.Lib.Assembly
import CfuPlayground.Lib.Copy
import CfuPlayground.Lib.Frame
import CfuPlayground.Lib.Halves
import CfuPlayground.Lib.Stopwatch
import CfuPlayground.Cfu.Port
import CfuPlayground.Cfu.Soc
import CfuPlayground.Cfu.Answer
import CfuPlayground.Cfu.Integrity
import CfuPlayground.Cfu.Host
import CfuPlayground.Cfu.Paths
import CfuPlayground.Tflite.Common
import CfuPlayground.Tflite.Kernels
import CfuPlayground.Tflite.Facts
import CfuPlayground.Tflite.Pointwise
import CfuPlayground.Tflite.Reference
import CfuPlayground.ProjTemplate.Model
import CfuPlayground.ProjTemplate.Phases
import CfuPlayground.ProjTemplate.Accumulate
import CfuPlayground.ProjTemplate.Overlap
import CfuPlayground.ProjTemplate.Kernel
import CfuPlayground.ProjTemplate.Reset
import CfuPlayground.FilterPreload.Model
import CfuPlayground.FilterPreload.Walk
import CfuPlayground.FilterPreload.Terminates
import CfuPlayground.FilterPreload.Phases
import CfuPlayground.FilterPreload.Respond
import CfuPlayground.FilterPreload.Answered
import CfuPlayground.FilterPreload.History
import CfuPlayground.FilterPreload.Overlap
import CfuPlayground.FilterPreload.Taps
import CfuPlayground.FilterPreload.Covers
import CfuPlayground.FilterPreload.Kernel
import CfuPlayground.FilterPreload.Marked
import CfuPlayground.FilterPreload.EndToEnd
import CfuPlayground.FilterPreload.Fetch
import CfuPlayground.FilterPreload.Addresses
import CfuPlayground.FilterPreload.Served
import CfuPlayground.FilterPreload.Contribution
import CfuPlayground.Backpressure
import CfuPlayground.VexRiscv.Decode
import CfuPlayground.VexRiscv.Model
import CfuPlayground.VexRiscv.Flush
import CfuPlayground.VexRiscv.Issue
import CfuPlayground.VexRiscv.Faithful
import CfuPlayground.VexRiscv.Late
import CfuPlayground.VexRiscv.System
import CfuPlayground.VexRiscv.Executes
import CfuPlayground.VexRiscv.Software
import CfuPlayground.VexRiscv.Kernels
import CfuPlayground.VexRiscv.SocCfu
import CfuPlayground.VexRiscv.AmaranthCfu
import CfuPlayground.VexRiscv.Controls
import CfuPlayground.VexRiscv.Divider
import CfuPlayground.VexRiscv.Multiplier
import CfuPlayground.VexRiscv.Alu
import CfuPlayground.VexRiscv.Datapath
import CfuPlayground.VexRiscv.Operands
import CfuPlayground.VexRiscv.Results
import CfuPlayground.VexRiscv.Architecture
import CfuPlayground.VexRiscv.Board
import CfuPlayground.AmaranthCfu.Model
import CfuPlayground.AmaranthCfu.Handshake
import CfuPlayground.AmaranthCfu.Reader
import CfuPlayground.AmaranthCfu.Util
import CfuPlayground.Nxlram.Model
import CfuPlayground.Nxlram.Flat
import CfuPlayground.Nxlram.Reads
import CfuPlayground.Nxlram.Init
import CfuPlayground.Nxlram.Encoding
import CfuPlayground.ClockControl.Model
import CfuPlayground.ClockControl.Composition
import CfuPlayground.ClockControl.Memory
import CfuPlayground.InstructionHandler.Model
import CfuPlayground.InstructionHandler.Division
import CfuPlayground.InstructionHandler.Emulation
import CfuPlayground.InstructionHandler.Trap
import CfuPlayground.InstructionHandler.Transparent
import CfuPlayground.Common.Murmurhash
import CfuPlayground.Common.ReadVal
import CfuPlayground.Common.Random
import CfuPlayground.CpuVariant
import CfuPlayground.Framebuffer.Model
import CfuPlayground.Framebuffer.Rect
import CfuPlayground.Framebuffer.Stroke
import CfuPlayground.Framebuffer.Line
import CfuPlayground.Framebuffer.Text
import CfuPlayground.Crt0.Model
import CfuPlayground.Crt0.StartUp
import CfuPlayground.Crt0.TrapEntry
import CfuPlayground.Perf.Model
import CfuPlayground.Perf.Counters
