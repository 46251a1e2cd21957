import NaviMisc.Lib.Bits
import NaviMisc.Lib.BitStuffing
import NaviMisc.Lib.ByteOrder
import NaviMisc.Lib.Chain
import NaviMisc.Lib.Distance
import NaviMisc.Lib.Outcome
import NaviMisc.Lib.Interning
import NaviMisc.Lib.Lists
import NaviMisc.Lib.Memory
import NaviMisc.Lib.Ring
import NaviMisc.Lib.Rounding
import NaviMisc.Lib.Runs
import NaviMisc.Lib.Scanner
import NaviMisc.Lib.SetTree
import NaviMisc.Lib.Table
import NaviMisc.Lib.Tally
import NaviMisc.Lib.Text
import NaviMisc.Lib.Worklist
import NaviMisc.Sbt86.Machine
import NaviMisc.Sbt86.StackDiscipline
import NaviMisc.Sbt86.CCode
import NaviMisc.Sbt86.Denote
import NaviMisc.Sbt86.Codegen
import NaviMisc.Sbt86.Exec
import NaviMisc.Sbt86.Arith
import NaviMisc.Sbt86.Shift
import NaviMisc.Sbt86.ShiftLoop
import NaviMisc.Sbt86.ShiftFaithful
import NaviMisc.Sbt86.MulDiv
import NaviMisc.Sbt86.PairWrite
import NaviMisc.Sbt86.Instruction
import NaviMisc.Sbt86.Subroutine
import NaviMisc.Sbt86.ControlFlow
import NaviMisc.Sbt86.Rle
import NaviMisc.RobotOdyssey.World
import NaviMisc.RobotOdyssey.Rect
import NaviMisc.RobotOdyssey.Sprite
import NaviMisc.RobotOdyssey.SoundEngine
import NaviMisc.RioKarma.AllocationTree
import NaviMisc.RioKarma.Escape
import NaviMisc.RioKarma.Playlist
import NaviMisc.RioKarma.Coder
import NaviMisc.RioKarma.PropertyFile
import NaviMisc.RioKarma.Aligned
import NaviMisc.RioKarma.AlignedBlock
import NaviMisc.RioKarma.Request
import NaviMisc.RioKarma.Response
import NaviMisc.RioKarma.Protocol
import NaviMisc.RioKarma.ContentTransfer
import NaviMisc.RioKarma.DeviceCache
import NaviMisc.Inputpipe.PacketWrite
import NaviMisc.Inputpipe.PacketRead
import NaviMisc.Inputpipe.ForceFeedback
import NaviMisc.Inputpipe.Server
import NaviMisc.Inputpipe.ServerSession
import NaviMisc.Inputpipe.ServerDevice
import NaviMisc.Inputpipe.ServerLifecycle
import NaviMisc.Inputpipe.Capability
import NaviMisc.Inputpipe.UinputQueue
import NaviMisc.Inputpipe.UinputRequests
import NaviMisc.LaserProp.VectorMachine
import NaviMisc.LaserProp.Interpreter
import NaviMisc.LaserProp.Encoder
import NaviMisc.LaserProp.EncoderSimulation
import NaviMisc.LaserProp.Flags
import NaviMisc.LaserProp.Beam
import NaviMisc.LaserProp.BeamStrokes
import NaviMisc.LaserProp.FrameRing
import NaviMisc.LaserProp.FrameRingSafety
import NaviMisc.LaserProp.FrameBuffer
import NaviMisc.LaserProp.SvgNumbers
import NaviMisc.LaserProp.SvgPaths
import NaviMisc.LaserProp.TransformLists
import NaviMisc.LaserProp.Ilda
import NaviMisc.Motion.GraphData
import NaviMisc.Motion.Graph
import NaviMisc.Motion.Observable
import NaviMisc.Motion.Dijkstra
import NaviMisc.Motion.DijkstraReach
import NaviMisc.Motion.DijkstraSearch
import NaviMisc.Motion.Combinatoric
import NaviMisc.Motion.BayesNet
import NaviMisc.Motion.BayesFilter
import NaviMisc.Motion.MotionGraph
import NaviMisc.Motion.MotionGraphCounts
import NaviMisc.Motion.BayesNetCounts
import NaviMisc.Motion.AmcFile
import NaviMisc.Motion.AmcPasses
import NaviMisc.Motion.AmcStores
import NaviMisc.Motion.GraphSearch
import NaviMisc.Motion.DepthLimited
import NaviMisc.Motion.DepthLimitedSlots
import NaviMisc.Motion.HeuristicPointers
import NaviMisc.Motion.HeuristicRuns
import NaviMisc.Motion.HeuristicCalls
import NaviMisc.Therm.Frame
import NaviMisc.Therm.ReceiverSpec
import NaviMisc.Therm.Transmitter
import NaviMisc.Therm.RadioLink
import NaviMisc.Therm.Packet
import NaviMisc.Therm.PacketBounds
import NaviMisc.Therm.StorePacket
import NaviMisc.Therm.BaseStation
import NaviMisc.Lib.ByteStuffing
import NaviMisc.SpiMemEmulator.BoardMemory
import NaviMisc.SpiMemEmulator.CallSteps
import NaviMisc.SpiMemEmulator.Loopback
import NaviMisc.SpiMemEmulator.MemoryCalls
import NaviMisc.SpiMemEmulator.SpiMemEmu
import NaviMisc.SpiMemEmulator.SpiBytes
import NaviMisc.SpiMemEmulator.SpiEdges
import NaviMisc.SpiMemEmulator.SpiTransactions
import NaviMisc.SpiMemEmulator.Sram
import NaviMisc.SpiMemEmulator.SramArbitration
import NaviMisc.SpiMemEmulator.SramLinearizable
import NaviMisc.Nandmount.Isolation
import NaviMisc.Metalkit.ContextSwitch
import NaviMisc.Wasabi.IrTransmit
import NaviMisc.Wasabi.OutputUpdates
import NaviMisc.Spreadfs.Handles
import NaviMisc.Spreadfs.Listing
import NaviMisc.Spreadfs.Confinement
import NaviMisc.Camserv.Snapshots
import NaviMisc.Fyre.UndoRedo
import NaviMisc.Camserv.ProxyProtocol
import NaviMisc.Camserv.BrowserStreams
import NaviMisc.Camserv.RelayBins
import NaviMisc.Fyre.DocumentFile
import NaviMisc.RasterWand.KeepTime
import NaviMisc.Sbt86.PushAll
import NaviMisc.Sbt86.Signature
import NaviMisc.RasterWand.SensorEdges
import NaviMisc.RasterWand.FrameBuffer
import NaviMisc.Rcpod.BlockTransfer
import NaviMisc.Wasabi.Cube64
import NaviMisc.Nouvelle.Serial
import NaviMisc.Rcpod.SerialRx
import NaviMisc.Rcpod.I2c
import NaviMisc.Rcpod.I2cRequests
import NaviMisc.Rcpod.I2cAgreement
import NaviMisc.Motion.Chunks
import NaviMisc.Therm.PacketOrder
import NaviMisc.RobotOdyssey.SaveData
import NaviMisc.Motion.RejectedEdges
import NaviMisc.Motion.SearchGraphs
import NaviMisc.Motion.ParallelBfs
import NaviMisc.Metalkit.Keyboard
import NaviMisc.Sbt86.Literals
import NaviMisc.RobotOdyssey.VideoConvert
import NaviMisc.RasterWand.PeriodFilter
import NaviMisc.Wasabi.ControllerCrc
import NaviMisc.Metalkit.Pci
import NaviMisc.Tusb.UsbDriver
import NaviMisc.Metalkit.ConsoleVga
import NaviMisc.Metalkit.PuffStream
import NaviMisc.Wasabi.BitFile
import NaviMisc.Wasabi.Upload
import NaviMisc.Wasabi.Uvswitch
import NaviMisc.Fyre.SavedFlag
import NaviMisc.Camserv.TextFilter
import NaviMisc.Camserv.TextPlacement
