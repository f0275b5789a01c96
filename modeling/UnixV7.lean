import UnixV7.Library.Fuel
import UnixV7.Library.Chain
import UnixV7.Kernel.Sleep
import UnixV7.Kernel.Wakeup
import UnixV7.Kernel.LostWakeup
import UnixV7.Library.Interleaving
import UnixV7.Kernel.Filsys
import UnixV7.Kernel.Mount
import UnixV7.Library.Apart
import UnixV7.Kernel.Pages
import UnixV7.Kernel.Holdings
import UnixV7.Kernel.Swapin
import UnixV7.Kernel.Alloc
import UnixV7.Kernel.FreeList
import UnixV7.Library.Ledger
import UnixV7.Library.Bytes
import UnixV7.Library.Radix
import UnixV7.Kernel.Buf
import UnixV7.Kernel.Cache
import UnixV7.Kernel.Rdwri
import UnixV7.Kernel.FileTooBig
import UnixV7.Kernel.FileNode
import UnixV7.Kernel.Bmap
import UnixV7.Kernel.Iomove
import UnixV7.Kernel.FileData
import UnixV7.Kernel.FileContents
import UnixV7.Library.Tiling
import UnixV7.Kernel.Malloc
import UnixV7.Kernel.Maprot
import UnixV7.Kernel.PageMaps
import UnixV7.Kernel.Prim
import UnixV7.Kernel.Clist
import UnixV7.Kernel.CharLists
import UnixV7.Library.Changes
import UnixV7.Kernel.Ureg
import UnixV7.Kernel.Ptbuild
import UnixV7.Kernel.Segments
import UnixV7.Kernel.PageTables
import UnixV7.Kernel.Proc
import UnixV7.Kernel.Identities
import UnixV7.Kernel.Resize
import UnixV7.Kernel.Swap
import UnixV7.Kernel.Expand
import UnixV7.Kernel.Sbreak
import UnixV7.Kernel.Clock
import UnixV7.Library.CommonSub
import UnixV7.Cmd.Diff.Stone
import UnixV7.Cmd.Diff.Classes
import UnixV7.Cmd.Diff.Unravel
import UnixV7.Cmd.Diff.Readhash
import UnixV7.Cmd.Diff.Check
import UnixV7.Cmd.Diff.Output
import UnixV7.Library.Digits
import UnixV7.Cmd.Dc.Blk
import UnixV7.Cmd.Dc.Div
import UnixV7.Cmd.Dc.Scale
import UnixV7.Cmd.Dc.Sqrt
import UnixV7.Cmd.Dc.Buffer
import UnixV7.Cmd.Dc.Ring
import UnixV7.Library.Triple
import UnixV7.Kernel.Iget
import UnixV7.Kernel.Nami
import UnixV7.Kernel.IgetLocks
import UnixV7.Kernel.NamiLocks
import UnixV7.Libc.Malloc
import UnixV7.Library.Cells
import UnixV7.Library.Calendar
import UnixV7.Libc.Ctime
import UnixV7.Library.ThreeWay
import UnixV7.Libc.Qsort
import UnixV7.Libc.Arena
import UnixV7.Libc.Blocks
import UnixV7.Library.Pieces
import UnixV7.Cmd.Grep.Compile
import UnixV7.Cmd.Grep.Advance
import UnixV7.Cmd.Grep.Compiled
import UnixV7.Cmd.Grep.Execute
import UnixV7.Library.Suffixes
import UnixV7.Library.Ring
import UnixV7.Cmd.Fgrep.Cgotofn
import UnixV7.Cmd.Fgrep.Trie
import UnixV7.Cmd.Fgrep.Entered
import UnixV7.Cmd.Fgrep.Cfail
import UnixV7.Cmd.Fgrep.Failure
import UnixV7.Cmd.Fgrep.Rounds
import UnixV7.Cmd.Fgrep.Execute
import UnixV7.Cmd.Fgrep.Machine
import UnixV7.Cmd.Fgrep.Lines
import UnixV7.Library.Task
import UnixV7.Cmd.Ed.Getblock
import UnixV7.Cmd.Ed.Buffers
import UnixV7.Cmd.Ed.Stored
import UnixV7.Cmd.Mkfs.Bflist
import UnixV7.Cmd.Icheck.Makefree
import UnixV7.Cmd.Mkfs.Order
import UnixV7.Cmd.Mkfs.Owned
import UnixV7.Cmd.Icheck.Owned
import UnixV7.Kernel.CalloutTable
import UnixV7.Kernel.Sd
import UnixV7.Kernel.SdQueue
import UnixV7.Kernel.BlockMap
import UnixV7.Library.Walk
import UnixV7.Kernel.Itrunc
import UnixV7.Kernel.Ialloc
import UnixV7.Kernel.Evict
import UnixV7.Kernel.WriteFault
import UnixV7.Library.MergeJoin
import UnixV7.Cmd.Join.Input
import UnixV7.Cmd.Join.Main
import UnixV7.Cmd.Join.Merge
import UnixV7.Kernel.Exece
import UnixV7.Kernel.ArgLists
import UnixV7.Kernel.ArgStack
import UnixV7.Kernel.UserWords
import UnixV7.Kernel.Signal
import UnixV7.Kernel.SignalReturn
import UnixV7.Kernel.Pipe
import UnixV7.Kernel.PipeRuns
import UnixV7.Kernel.Tty
import UnixV7.Kernel.Canon
import UnixV7.Libc.Doprnt
import UnixV7.Libc.Doscan
import UnixV7.Libc.PrintScan
import UnixV7.Library.Limbs
import UnixV7.Library.Nearest
import UnixV7.Libc.Ecvt
import UnixV7.Libc.EcvtRound
import UnixV7.Libc.Atof
import UnixV7.Libc.AtofScale
import UnixV7.Libc.AtofRound
import UnixV7.Libc.Crypt
import UnixV7.Cmd.Ed.Crinit
import UnixV7.Cmd.Tsort.Read
import UnixV7.Cmd.Tsort.Order
import UnixV7.Cmd.Sh.Gmatch
import UnixV7.Cmd.Diff.Main
import UnixV7.Library.Stretch
import UnixV7.Cmd.Ed.Move
import UnixV7.Cmd.Ed.Copy
import UnixV7.Cmd.Grep.Bounds
import UnixV7.Cmd.Grep.Extent
import UnixV7.Cmd.Grep.Attempts
import UnixV7.Cmd.Grep.Inside
import UnixV7.Cmd.Grep.Endless
import UnixV7.Library.Lines
import UnixV7.Library.Wheel
import UnixV7.Library.Writer
import UnixV7.Cmd.Factor
import UnixV7.Cmd.Primes
import UnixV7.Cmd.Dd
import UnixV7.Cmd.Look
import UnixV7.Cmd.Tail
import UnixV7.Cmd.Cron.Init
import UnixV7.Cmd.Cron.Fields
import UnixV7.Cmd.Cron.Compiled
import UnixV7.Cmd.Cron.Cmp
import UnixV7.Cmd.Cron.Crontab
import UnixV7.Library.Bitmap
import UnixV7.Cmd.Dump
import UnixV7.Library.Touching
import UnixV7.Cmd.Diff3.Merge
import UnixV7.Cmd.Diff3.Read
import UnixV7.Cmd.Diff3.Regions
import UnixV7.Cmd.Diff3.Found
import UnixV7.Cmd.Diff3.Script
import UnixV7.Library.Separated
import UnixV7.Libc.DoprntReal
import UnixV7.Cmd.Diff.Report
import UnixV7.Cmd.Diff.Faithful
import UnixV7.Cmd.Diff3.Readin
import UnixV7.Cmd.Diff3.Pipeline
import UnixV7.Libc.Contents
import UnixV7.Libc.Refused
