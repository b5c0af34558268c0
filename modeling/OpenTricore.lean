import OpenTricore.Tcmcd
import OpenTricore.Lib.CString
import OpenTricore.FlashGuard
import OpenTricore.MemoryAccess
import OpenTricore.Rsp
import OpenTricore.Stub
import OpenTricore.Handlers
import OpenTricore.MemoryPackets
import OpenTricore.Isolation
import OpenTricore.FlashImage
import OpenTricore.FlashHw
import OpenTricore.FlashLoad
import OpenTricore.FlashGaps
import OpenTricore.Triggers
import OpenTricore.Session
import OpenTricore.Ppu
import OpenTricore.PpuSetup
import OpenTricore.Lib.Arc
import OpenTricore.Lib.Interleave
import OpenTricore.PpuLink
import OpenTricore.PpuProtocol
import OpenTricore.PpuCore
import OpenTricore.PpuStream
import OpenTricore.PpuPrompt
import OpenTricore.WriteExact
import OpenTricore.FlashCommands
import OpenTricore.ReplyBytes
import OpenTricore.TriggerTable
import OpenTricore.RspFrames
import OpenTricore.Startup
import OpenTricore.FlashBounds
import OpenTricore.Replies
import OpenTricore.ReplyWire
import OpenTricore.Threads
import OpenTricore.Arming
import OpenTricore.RegMap
import OpenTricore.Registers
import OpenTricore.RegisterWrites
import OpenTricore.Malformed
import OpenTricore.Failures
import OpenTricore.Sequencing
import OpenTricore.Waiting
import OpenTricore.Delivery
import OpenTricore.Qxfer
import OpenTricore.DataFlash
import OpenTricore.PageMode
import OpenTricore.PpuFailures
import OpenTricore.PpuLosses
import OpenTricore.Timing
import OpenTricore.Lib.Settings
import OpenTricore.Clock
import OpenTricore.Mailbox
import OpenTricore.Lib.Fifo
import OpenTricore.TimerTick
import OpenTricore.Can
import OpenTricore.CanQueue
import OpenTricore.CanLoopback
import OpenTricore.CanPending
import OpenTricore.TcLoad
import OpenTricore.TcLoadPass
import OpenTricore.Lib.Crowd
import OpenTricore.Gpio
import OpenTricore.Lmu
import OpenTricore.Smp
import OpenTricore.Debugger
import OpenTricore.DebugCommands
import OpenTricore.DebugSession
import OpenTricore.KernelBoard
import OpenTricore.Kernels
import OpenTricore.Fastio
import OpenTricore.Dma
import OpenTricore.Uart
import OpenTricore.LoadRun
import OpenTricore.Selftest
