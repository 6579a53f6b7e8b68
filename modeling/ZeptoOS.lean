import ZeptoOS.Lib.Run
import ZeptoOS.Lib.Store
import ZeptoOS.Lib.Radix
import ZeptoOS.Lib.Spaces
import ZeptoOS.Lib.PackedBits
import ZeptoOS.Mm.Pmm
import ZeptoOS.Mm.PmmInit
import ZeptoOS.Mm.Ownership
import ZeptoOS.Mm.MemoryMap
import ZeptoOS.Mm.Vmm
import ZeptoOS.X64.Vmm
import ZeptoOS.X64.Boot
import ZeptoOS.X64.HugePages
import ZeptoOS.I386.Vmm
import ZeptoOS.Paging.FiniteMap
import ZeptoOS.Paging.Isolation
import ZeptoOS.Lib.Stack
import ZeptoOS.Core.Irq
import ZeptoOS.Core.Scheduler
import ZeptoOS.Boot.Elf
import ZeptoOS.Core.Exit
import ZeptoOS.Core.Switch
import ZeptoOS.Lib.Bytes
import ZeptoOS.Fs.Tar
import ZeptoOS.Fs.TarArchive
import ZeptoOS.Lib.Walk
import ZeptoOS.Fs.TarWalk
import ZeptoOS.Lib.Path
import ZeptoOS.Fs.Vfs
import ZeptoOS.Fs.Resolve
import ZeptoOS.Fs.MountTable
import ZeptoOS.Lib.Fuel
import ZeptoOS.Syscall.Getdents
import ZeptoOS.Syscall.Handler
import ZeptoOS.Fs.Ext2
import ZeptoOS.Fs.Ext2Inode
import ZeptoOS.Fs.Ext2File
import ZeptoOS.Fs.Ext2Dir
import ZeptoOS.Fs.Ext2Nodes
import ZeptoOS.Fs.Ext2Lookup
import ZeptoOS.Fs.Ext2Blocks
import ZeptoOS.Fs.Ext2Corrupt
import ZeptoOS.Fs.Ext2Mounted
import ZeptoOS.Fs.TarRead
import ZeptoOS.Fs.TarWrite
import ZeptoOS.I386.InitPaging
import ZeptoOS.Boot.Kmain
import ZeptoOS.Boot.Regions
import ZeptoOS.Lib.Cyclic
import ZeptoOS.Lib.Layout
import ZeptoOS.Core.Slots
import ZeptoOS.Core.RoundRobin
import ZeptoOS.Core.Vga
import ZeptoOS.Syscall.Initrd
import ZeptoOS.Syscall.Echo
import ZeptoOS.User.Shell
import ZeptoOS.Fs.Ext2Read
import ZeptoOS.Paging.Targets
import ZeptoOS.Mm.Usable
import ZeptoOS.I386.Clone
import ZeptoOS.Paging.Clone
import ZeptoOS.Boot.ElfImage
import ZeptoOS.Boot.ElfChecks
import ZeptoOS.Fs.TarFind
import ZeptoOS.Fs.PathStores
import ZeptoOS.Syscall.PathBuffers
import ZeptoOS.Lib.Ring
import ZeptoOS.Core.Keyboard
import ZeptoOS.Syscall.LineEdit
import ZeptoOS.Lib.Ata
import ZeptoOS.Core.Pata
import ZeptoOS.Lib.Protection
import ZeptoOS.Core.Tables
import ZeptoOS.X64.Tables
import ZeptoOS.I386.Tables
import ZeptoOS.Core.Entries
import ZeptoOS.I386.Segments
import ZeptoOS.Lib.Pic
import ZeptoOS.Core.Timer
import ZeptoOS.Core.Virtual
import ZeptoOS.Lib.Uart
import ZeptoOS.Core.Serial
import ZeptoOS.User.Init
import ZeptoOS.User.Session
import ZeptoOS.Lib.Tlb
import ZeptoOS.Paging.Tlb
