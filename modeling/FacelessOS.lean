import FacelessOS.Lib.Demands
import FacelessOS.Lib.RadixTree
import FacelessOS.Memory.FrameStatistics
import FacelessOS.Memory.DataPages
import FacelessOS.Memory.Exhaustion
import FacelessOS.Memory.UnmapPage
import FacelessOS.Memory.NullPage
import FacelessOS.Memory.UserPages
import FacelessOS.Memory.BlockChain
import FacelessOS.Memory.HeapMapped
import FacelessOS.Memory.HeapFrames
import FacelessOS.Memory.HeapLimit
import FacelessOS.Memory.HeapLog
import FacelessOS.Memory.Mkpml4
import FacelessOS.Memory.MapPageOrder
import FacelessOS.Memory.SelfMapped
import FacelessOS.Memory.VmmInit
import FacelessOS.Memory.HeapObjects
import FacelessOS.Lib.RecordWalk
import FacelessOS.Cpu.Wakeup
import FacelessOS.Cpu.WakeupTimeline
import FacelessOS.Cpu.CoreTable
import FacelessOS.Pic.TimerIrq
import FacelessOS.Pic.IoApicInit
import FacelessOS.Pic.IoApicRuns
import FacelessOS.Timer.Pit
import FacelessOS.Interrupts.TimerMachine
import FacelessOS.Power.MadtBounds
import FacelessOS.Power.PrintedMadt
import FacelessOS.Memory.PrintedMap
import FacelessOS.Pci.Locate
import FacelessOS.Pci.Reads
import FacelessOS.Libkern.StringBounds
import FacelessOS.Interrupts.Exceptions
import FacelessOS.Power.Rsdt
import FacelessOS.Boot.Bringup
