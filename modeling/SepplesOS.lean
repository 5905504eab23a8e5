import SepplesOS.Disk.Vfs
import SepplesOS.Disk.Ext2Node
import SepplesOS.Disk.Ext2Bounds
import SepplesOS.Disk.Ext2Offsets
import SepplesOS.Disk.MountFailure
import SepplesOS.Disk.Ext2Groups
import SepplesOS.Disk.DiskRead
import SepplesOS.Proc.Context
import SepplesOS.Proc.ElfPages
import SepplesOS.Proc.ElfBounds
import SepplesOS.Proc.LineEdit
import SepplesOS.Proc.RoundRobin
import SepplesOS.Proc.Arguments
import SepplesOS.Lib.TableForest
import SepplesOS.Mm.Translation
import SepplesOS.Mm.PageDir
import SepplesOS.Mm.StaleFrames
import SepplesOS.Mm.FrameSearch
import SepplesOS.Mm.PAddr
import SepplesOS.Mm.UnmappedVAddr
import SepplesOS.Mm.Multiboot
import SepplesOS.Mm.Chunks
import SepplesOS.Mm.RequestsKept
import SepplesOS.Mm.HeapRun
import SepplesOS.Vga.Log
import SepplesOS.Vga.Echo
import SepplesOS.Lib.Fuel
import SepplesOS.Arch.Gdt
import SepplesOS.Text.Printf
import SepplesOS.Text.Numerals
import SepplesOS.Data.Llist
import SepplesOS.Data.AllocRecords
import SepplesOS.Mm.AllocRun
import SepplesOS.Mm.ChunkSizes
import SepplesOS.Mm.HeapStats
import SepplesOS.Mm.AvailableMem
import SepplesOS.Mm.PhysMem
import SepplesOS.Mm.HeapFrames
import SepplesOS.Disk.Ext2Tree
import SepplesOS.Proc.Shell
import SepplesOS.Mm.UserMemory
import SepplesOS.Proc.ElfImage
