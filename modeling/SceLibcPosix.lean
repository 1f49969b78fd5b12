import SceLibcPosix.Errno
import SceLibcPosix.VitaError
import SceLibcPosix.Lib.Spans
import SceLibcPosix.Lib.References
import SceLibcPosix.Lib.Components
import SceLibcPosix.Lib.ScatterGather
import SceLibcPosix.Lib.Programs
import SceLibcPosix.Lib.Interleaving
import SceLibcPosix.Lib.Heap
import SceLibcPosix.Lib.Keyed
import SceLibcPosix.Lib.Logs
import SceLibcPosix.Mman.Region
import SceLibcPosix.Mman.Calls
import SceLibcPosix.Mman.Unmap
import SceLibcPosix.Mman.Backing
import SceLibcPosix.Mman.Outcomes
import SceLibcPosix.Mman.Invariant
import SceLibcPosix.Mman.Preserve
import SceLibcPosix.Mman.Runs
import SceLibcPosix.Mman.Remap
import SceLibcPosix.Mman.RemapContents
import SceLibcPosix.Mman.Commit
import SceLibcPosix.Mman.Reservations
import SceLibcPosix.Mman.RemapAtomic
import SceLibcPosix.Mman.Locks
import SceLibcPosix.Mman.Mapped
import SceLibcPosix.Mman.Discard
import SceLibcPosix.Mman.Protect
import SceLibcPosix.Mman.Teardown
import SceLibcPosix.Mman.Pool
import SceLibcPosix.Mman.Mmap
import SceLibcPosix.Descriptor.Table
import SceLibcPosix.Descriptor.Outcomes
import SceLibcPosix.Descriptor.Runs
import SceLibcPosix.Descriptor.Release
import SceLibcPosix.Descriptor.Create
import SceLibcPosix.Descriptor.Io
import SceLibcPosix.Descriptor.Vectored
import SceLibcPosix.Descriptor.Iovec
import SceLibcPosix.Descriptor.Frame
import SceLibcPosix.Descriptor.HalfBuilt
import SceLibcPosix.Descriptor.Locks
import SceLibcPosix.Descriptor.Calls
import SceLibcPosix.Descriptor.Select
import SceLibcPosix.Descriptor.Steps
import SceLibcPosix.Descriptor.Neutral
import SceLibcPosix.Descriptor.Dup
import SceLibcPosix.Descriptor.Utimes
import SceLibcPosix.Descriptor.Handles
import SceLibcPosix.Descriptor.Waiting
import SceLibcPosix.Descriptor.Polling
import SceLibcPosix.Descriptor.Answers
import SceLibcPosix.Descriptor.Timeouts
import SceLibcPosix.Descriptor.OpenFlags
import SceLibcPosix.Path.Resolve
import SceLibcPosix.Path.Normal
import SceLibcPosix.Path.TooLong
import SceLibcPosix.Path.Lexical
import SceLibcPosix.Path.Chdir
import SceLibcPosix.Path.Truncate
import SceLibcPosix.Path.Touches
import SceLibcPosix.Path.Buffers
import SceLibcPosix.Net.Init
import SceLibcPosix.Net.Aton
import SceLibcPosix.Net.Legacy
import SceLibcPosix.Net.AddrInfo
import SceLibcPosix.Net.Pton
import SceLibcPosix.Net.Ipv6Text
import SceLibcPosix.Net.Ntop
import SceLibcPosix.Env.Calls
import SceLibcPosix.Env.Outcomes
import SceLibcPosix.Env.Map
import SceLibcPosix.Env.Runs
import SceLibcPosix.Env.Owned
import SceLibcPosix.Dirent.Calls
import SceLibcPosix.Dirent.Steps
import SceLibcPosix.Dirent.Position
import SceLibcPosix.Dirent.Scandir
import SceLibcPosix.Dirent.Reports
import SceLibcPosix.Dirent.Names
import SceLibcPosix.Locale.Strfmon
import SceLibcPosix.Locale.Directives
import SceLibcPosix.Locale.Formats
import SceLibcPosix.Misc.Itoa
import SceLibcPosix.Misc.Libgen
import SceLibcPosix.Strings.Scans
import SceLibcPosix.Mman.Isolation
import SceLibcPosix.Mman.Ownership
import SceLibcPosix.Mman.Lifecycle
import SceLibcPosix.Descriptor.OpenFiles
import SceLibcPosix.Prng.Random
import SceLibcPosix.Descriptor.Pipes
import SceLibcPosix.Net.AddrLists
import SceLibcPosix.Strings.Appends
import SceLibcPosix.Strings.Wide
import SceLibcPosix.Dirent.Streams
import SceLibcPosix.Path.Calls
import SceLibcPosix.Crt.Startup
import SceLibcPosix.Crt.Module
import SceLibcPosix.Descriptor.Lending
import SceLibcPosix.Descriptor.Overlap
import SceLibcPosix.Strings.Folded
import SceLibcPosix.Lib.Simulations
import SceLibcPosix.Descriptor.Numbers
