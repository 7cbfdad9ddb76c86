import RvMos.Lib.Tally
import RvMos.Lib.Run
import RvMos.Lib.Sys
import RvMos.Lib.Riscv
import RvMos.Lib.TailQueue
import RvMos.Lib.Buffer
import RvMos.Lib.While
import RvMos.Kern.Mmu
import RvMos.Kern.Pmap
import RvMos.Kern.PageTables
import RvMos.Kern.PageWalk
import RvMos.Kern.PageHistory
import RvMos.Kern.Queue
import RvMos.Kern.Tailq
import RvMos.Kern.PageRun
import RvMos.Kern.Env
import RvMos.Kern.Ecall
import RvMos.Kern.Traps
import RvMos.Kern.Quiet
import RvMos.Kern.LifeCycle
import RvMos.Kern.Messages
import RvMos.Kern.RoundRobin
import RvMos.Kern.Privilege
import RvMos.Kern.Spaces
import RvMos.Kern.Counters
import RvMos.Kern.Perms
import RvMos.Kern.TrapEntry
import RvMos.Kern.TrySend
import RvMos.Kern.Calls
import RvMos.Kern.Faults
import RvMos.Kern.Protection
import RvMos.Kern.Destroy
import RvMos.Kern.Reach
import RvMos.Kern.DemandPaging
import RvMos.Kern.GiveBack
import RvMos.Kern.Recycle
import RvMos.Kern.Identifiers
import RvMos.Kern.Creation
import RvMos.Kern.EcallFrame
import RvMos.Kern.Shortage
import RvMos.Kern.Window
import RvMos.Kern.Switch
import RvMos.Fs.Cache
import RvMos.Fs.File
import RvMos.Fs.Serve
import RvMos.Fs.Replies
import RvMos.Fs.OpenTable
import RvMos.Fs.Image
import RvMos.Fs.Slots
import RvMos.Fs.Truncate
import RvMos.Fs.DiskMap
import RvMos.Fs.Alloc
import RvMos.Fs.Bitmap
import RvMos.Fs.Tree
import RvMos.Fs.Names
import RvMos.Fs.Walk
import RvMos.Fs.Create
import RvMos.Fs.Grow
import RvMos.Fs.NewFile
import RvMos.Fs.OpenNew
import RvMos.Fs.Flush
import RvMos.Fs.Marked
import RvMos.Fs.OneReply
import RvMos.Common.String
import RvMos.Common.Print
import RvMos.Common.Format
import RvMos.Common.Scan
import RvMos.Common.ElfLoader
import RvMos.User.File
import RvMos.User.Debugf
import RvMos.User.Gettoken
import RvMos.User.Readline
import RvMos.User.Runcmd
import RvMos.User.CowEntry
import RvMos.User.LoadSegment
import RvMos.User.InitStack
import RvMos.User.Descriptors
import RvMos.User.Spawn
import RvMos.User.Ipc
import RvMos.User.Pipe
import RvMos.User.PipeEnds
import RvMos.Fs.Mount
import RvMos.Fs.Reading
import RvMos.Tools.Fsformat
import RvMos.Tools.Links
import RvMos.Tools.HostTree
import RvMos.Tools.Formatted
import RvMos.Tools.ReadBack
import RvMos.Lib.Writes
import RvMos.Kern.VirtioDisk
