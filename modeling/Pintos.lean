import Pintos.Library.Outcome
import Pintos.Library.Bytes
import Pintos.Kernel.Bitmap
import Pintos.Kernel.BitmapProofs
import Pintos.Filesys.State
import Pintos.Filesys.Cache
import Pintos.Filesys.FreeMap
import Pintos.Filesys.Inode
import Pintos.Filesys.Layer
import Pintos.Filesys.Directory
import Pintos.Filesys.File
import Pintos.Filesys.Path
import Pintos.Filesys.Boot
import Pintos.Filesys.History
import Pintos.Library.WriteBack
import Pintos.Filesys.CacheProofs
import Pintos.Filesys.Blocks
import Pintos.Filesys.Tree
import Pintos.Filesys.TransferProofs
import Pintos.Filesys.FreeMapProofs
import Pintos.Filesys.PointerProofs
import Pintos.Filesys.GrowthProofs
import Pintos.Filesys.WriteProofs
import Pintos.Filesys.CloseProofs
import Pintos.Filesys.Sound
import Pintos.Filesys.Effects
import Pintos.Filesys.Store
import Pintos.Filesys.FsStore
import Pintos.Filesys.FsLawful
import Pintos.Filesys.Entries
import Pintos.Filesys.DirectoryProofs
import Pintos.Filesys.Format
import Pintos.Library.Runs
import Pintos.Filesys.Runs
import Pintos.Filesys.Metadata
import Pintos.Filesys.Ledger
import Pintos.Filesys.Names
import Pintos.Filesys.Readdir
import Pintos.Filesys.Resolve
import Pintos.Filesys.Descriptors
import Pintos.Filesys.DescriptorProofs
import Pintos.Library.Links
import Pintos.Library.Steps
import Pintos.Library.Donation
import Pintos.Kernel.Lists
import Pintos.Kernel.Arithmetic
import Pintos.Kernel.Stdlib
import Pintos.Threads.State
import Pintos.Threads.Scheduler
import Pintos.Threads.Synch
import Pintos.Threads.Machine
import Pintos.Threads.Queues
import Pintos.Threads.QueueProofs
import Pintos.Threads.Moves
import Pintos.Threads.TimerProofs
import Pintos.Threads.Effects
import Pintos.Threads.EffectProofs
import Pintos.Threads.SemaProofs
import Pintos.Threads.HoldingProofs
import Pintos.Threads.Fairness
import Pintos.Threads.DonationProofs
import Pintos.Threads.SchedulingProofs
import Pintos.Threads.CondProofs
import Pintos.Userprog.Process
import Pintos.Userprog.Transitions
import Pintos.Userprog.FamilyProofs
import Pintos.Userprog.Lives
import Pintos.Userprog.Patience
import Pintos.Userprog.WaitProofs
import Pintos.Userprog.WorkingDirectoryProofs
import Pintos.Filesys.Clock
import Pintos.Filesys.CacheCalls
import Pintos.Filesys.CacheList
import Pintos.Filesys.SecondChance
import Pintos.Userprog.UserMemory
import Pintos.Filesys.MapWrites
import Pintos.Filesys.Extend
import Pintos.Filesys.Ranges
import Pintos.Filesys.WriteLength
import Pintos.Filesys.ReadAhead
import Pintos.Filesys.Latest
import Pintos.Filesys.Restart
import Pintos.Filesys.Owners
import Pintos.Threads.Palloc
import Pintos.Threads.DonationChain
import Pintos.Library.Memory
import Pintos.Library.Strings
import Pintos.Library.Division
import Pintos.Library.Heap
import Pintos.Userprog.Pagedir
import Pintos.Userprog.PagedirProofs
import Pintos.Userprog.WriteCall
import Pintos.Userprog.PagedirRuns
import Pintos.Userprog.Load
import Pintos.Userprog.LoadPages
import Pintos.Userprog.LoadSegments
import Pintos.Userprog.LoadStack
import Pintos.Kernel.BitmapCalls
import Pintos.Library.NaturalMerge
import Pintos.Kernel.ListSort
import Pintos.Library.Ring
import Pintos.Devices.Intq
import Pintos.Devices.IntqProofs
import Pintos.Devices.Partition
import Pintos.Kernel.Stdio
import Pintos.Kernel.Ustar
import Pintos.Kernel.UstarProofs
