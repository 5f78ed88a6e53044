import Aesd.Library.Runs
import Aesd.Library.Simulation
import Aesd.Library.Delimited
import Aesd.Library.Recent
import Aesd.Library.Concat
import Aesd.Library.BlockHeap
import Aesd.Library.Ledger
import Aesd.Library.Loops
import Aesd.Library.LinkedList
import Aesd.Library.Rotation
import Aesd.Library.Holdings
import Aesd.Library.Mutex
import Aesd.Library.Gather
import Aesd.CharDriver.CircularBuffer
import Aesd.CharDriver.RingHistory
import Aesd.CharDriver.Slots
import Aesd.CharDriver.Kernel
import Aesd.CharDriver.Device
import Aesd.CharDriver.Cutting
import Aesd.CharDriver.WriteRefinement
import Aesd.CharDriver.WriteRuns
import Aesd.CharDriver.CopyRange
import Aesd.CharDriver.ScanWindow
import Aesd.CharDriver.WriteStream
import Aesd.CharDriver.Atomicity
import Aesd.CharDriver.Ownership
import Aesd.CharDriver.Reading
import Aesd.CharDriver.SequentialRead
import Aesd.CharDriver.ContentGrowth
import Aesd.CharDriver.Seek
import Aesd.CharDriver.Reporting
import Aesd.CharDriver.Search
import Aesd.CharDriver.Llseek
import Aesd.CharDriver.Addressing
import Aesd.CharDriver.LineDevice
import Aesd.CharDriver.OpenFiles
import Aesd.CharDriver.ModuleCycle
import Aesd.CharDriver.UnlockedReads
import Aesd.Server.Scan
import Aesd.Server.Numerals
import Aesd.Server.ClientHandler
import Aesd.Server.LockDiscipline
import Aesd.Server.DeviceOps
import Aesd.Server.Packets
import Aesd.Server.SeekText
import Aesd.Server.Assembly
import Aesd.Server.Relay
import Aesd.Server.Segmentation
import Aesd.Server.Framing
import Aesd.Server.BufferBounds
import Aesd.Server.System
import Aesd.Server.Integrity
import Aesd.Server.Traffic
import Aesd.Server.Responses
import Aesd.Server.Snapshots
import Aesd.Server.Positions
import Aesd.Server.LineServer
import Aesd.Server.Progress
import Aesd.Server.Draining
import Aesd.Server.ThreadManager
import Aesd.Server.AcceptLoop
import Aesd.Server.EntryLifetime
import Aesd.Server.EntrySafety
import Aesd.Server.Completion
import Aesd.Server.ReapScan
import Aesd.Server.ReapPass
import Aesd.Server.Descriptors
import Aesd.Server.Exclusive
import Aesd.Server.Handover
import Aesd.Server.ManagerSections
import Aesd.Server.AcceptProgress
import Aesd.Server.LinkedServer
import Aesd.Server.ListRefinement
import Aesd.Server.Signals
import Aesd.Server.Program
import Aesd.Server.ProgramRefinement
import Aesd.Server.Timestamp
import Aesd.Server.FileServer
import Aesd.Server.FileClient
import Aesd.Server.FileLock
import Aesd.Server.FileLog
import Aesd.Server.FileReplies
import Aesd.Server.HandlerGuards
import Aesd.Server.SignalSafety
import Aesd.Server.Lifecycle
import Aesd.Server.Releases
import Aesd.Server.HandlerStack
import Aesd.Server.Shutdown
