import FuseeOS.Lib.Run
import FuseeOS.Lib.Bytes
import FuseeOS.Lib.File
import FuseeOS.Lib.Stream
import FuseeOS.Lib.CInt
import FuseeOS.Lib.BitMap
import FuseeOS.Lib.Pyramid
import FuseeOS.Lib.Tiling
import FuseeOS.Lib.FirstMin
import FuseeOS.Lib.Radix
import FuseeOS.Lib.Numeral
import FuseeOS.Lib.Outcome
import FuseeOS.Lib.Keep
import FuseeOS.Lib.Terminal
import FuseeOS.Lib.PathTree
import FuseeOS.Kernel.Mem
import FuseeOS.Kernel.AllocPage
import FuseeOS.Kernel.Buddy
import FuseeOS.Kernel.PhysAlloc
import FuseeOS.Kernel.PageRun
import FuseeOS.Kernel.Heap
import FuseeOS.Kernel.HeapRep
import FuseeOS.Kernel.HeapRun
import FuseeOS.Kernel.BestFit
import FuseeOS.Kernel.Array
import FuseeOS.Kernel.Sched
import FuseeOS.Lib.X86
import FuseeOS.Kernel.Context
import FuseeOS.Kernel.ContextRun
import FuseeOS.Kernel.SysGate
import FuseeOS.Kernel.SchedRun
import FuseeOS.Kernel.PhysInit
import FuseeOS.Kernel.AllocFails
import FuseeOS.Kernel.Paging
import FuseeOS.Kernel.PageWalk
import FuseeOS.Kernel.PageTables
import FuseeOS.Kernel.PageOps
import FuseeOS.Kernel.PageRange
import FuseeOS.Kernel.Translate
import FuseeOS.Kernel.KernelHalf
import FuseeOS.Kernel.KernelProt
import FuseeOS.Kernel.ImageWritable
import FuseeOS.Kernel.WriteXorExec
import FuseeOS.Kernel.Handover
import FuseeOS.Kernel.PageIter
import FuseeOS.Kernel.KmProtect
import FuseeOS.Kernel.SpaceRun
import FuseeOS.Kernel.Anon
import FuseeOS.Kernel.AnonRights
import FuseeOS.Kernel.Recount
import FuseeOS.Kernel.MemInv
import FuseeOS.Kernel.MemRun
import FuseeOS.Kernel.IoMap
import FuseeOS.Kernel.OutOfPages
import FuseeOS.Kernel.ArrayStack
import FuseeOS.Kernel.HeapPages
import FuseeOS.Kernel.PhysMap
import FuseeOS.Kernel.KernelClosed
import FuseeOS.Kernel.DirectMap
import FuseeOS.Kernel.KernelMem
import FuseeOS.Kernel.InitMem
import FuseeOS.Libc.String
import FuseeOS.Tools.MkInitram
import FuseeOS.Tools.SpecParser
import FuseeOS.Boot.Initram
import FuseeOS.Tools.InitramImage
import FuseeOS.Tools.MkImage
import FuseeOS.Tools.MkVolume
import FuseeOS.Tools.FileStore
import FuseeOS.Tools.VolumeRep
import FuseeOS.Tools.VolumeWrite
import FuseeOS.Boot.Disk
import FuseeOS.Boot.Memory
import FuseeOS.Boot.Limits
import FuseeOS.Boot.Print
import FuseeOS.Tools.VolumeStream
import FuseeOS.Tools.VolumeRun
import FuseeOS.Tools.VolumeCheck
import FuseeOS.Boot.Mfs
import FuseeOS.Tools.Directory
import FuseeOS.Boot.MfsLookup
import FuseeOS.Tools.VolumeTool
import FuseeOS.Tools.VolumeTree
import FuseeOS.Tools.VolumeMisled
import FuseeOS.Tools.VolumeMistake
import FuseeOS.Boot.VolumeBoot
import FuseeOS.Tools.VolumeRegions
import FuseeOS.Boot.Valloc
import FuseeOS.Boot.LoaderMem
import FuseeOS.Boot.VallocRun
import FuseeOS.Boot.ElfLoad
import FuseeOS.Boot.IdentityMap
import FuseeOS.Boot.LowHalf
import FuseeOS.Boot.LoaderFiles
import FuseeOS.Boot.Bmain
import FuseeOS.Boot.Font
import FuseeOS.Boot.Video
import FuseeOS.Boot.TextConsole
import FuseeOS.Boot.GfxConsole
import FuseeOS.Boot.Vbe
import FuseeOS.Kernel.LoadElf
import FuseeOS.Kernel.HeapQueueRun
import FuseeOS.Kernel.Kmain
