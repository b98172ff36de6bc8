import OperatingSystem.Lib.Run
import OperatingSystem.Lib.Arr
import OperatingSystem.Lib.Dlist
import OperatingSystem.Lib.Recency
import OperatingSystem.Lib.Codec
import OperatingSystem.Lib.Bitmap
import OperatingSystem.Lib.Tree
import OperatingSystem.Lib.Rooted
import OperatingSystem.Lib.Pipe
import OperatingSystem.Lib.Ring
import OperatingSystem.Lib.Words
import OperatingSystem.Lib.Path
import OperatingSystem.Lib.Tally
import OperatingSystem.Lib.Queue
import OperatingSystem.Lib.Mutex
import OperatingSystem.Lib.Paging
import OperatingSystem.Lib.Search
import OperatingSystem.Lib.Numeral
import OperatingSystem.Lib.Stdio
import OperatingSystem.Vm.List
import OperatingSystem.Vm.Sequence
import OperatingSystem.Vm.State
import OperatingSystem.Vm.Replacement
import OperatingSystem.Vm.PageTable
import OperatingSystem.Vm.Step
import OperatingSystem.Vm.Invariant
import OperatingSystem.Vm.Run
import OperatingSystem.Vm.Lru
import OperatingSystem.Vm.Transparency
import OperatingSystem.Vm.Tlb
import OperatingSystem.Vm.WriteBack
import OperatingSystem.Vm.Fifo
import OperatingSystem.Vm.Clock
import OperatingSystem.Vm.Checked
import OperatingSystem.Fs.State
import OperatingSystem.Fs.Util
import OperatingSystem.Fs.Directory
import OperatingSystem.Fs.File
import OperatingSystem.Fs.Mount
import OperatingSystem.Fs.Format
import OperatingSystem.Fs.Write
import OperatingSystem.Fs.Blocks
import OperatingSystem.Fs.Isolation
import OperatingSystem.Fs.Entries
import OperatingSystem.Fs.Invariant
import OperatingSystem.Fs.Preserve
import OperatingSystem.Fs.Alloc
import OperatingSystem.Fs.Make
import OperatingSystem.Fs.Create
import OperatingSystem.Fs.Remove
import OperatingSystem.Fs.Navigate
import OperatingSystem.Fs.Reach
import OperatingSystem.Fs.Counters
import OperatingSystem.Fs.Atomic
import OperatingSystem.Fs.Ownership
import OperatingSystem.Fs.Removal
import OperatingSystem.Fs.Persist
import OperatingSystem.Fs.ReadBack
import OperatingSystem.Fs.Contents
import OperatingSystem.Fs.Padding
import OperatingSystem.Fs.Readable
import OperatingSystem.Fs.Read
import OperatingSystem.Fs.Printable
import OperatingSystem.Fs.Tree
import OperatingSystem.Fs.History
import OperatingSystem.Fs.Orphans
import OperatingSystem.Fs.Shell
import OperatingSystem.Fs.Typed
import OperatingSystem.Fs.Session
import OperatingSystem.Fs.Listing
import OperatingSystem.Fs.Volume
import OperatingSystem.Fs.Conversation
import OperatingSystem.Vm.Main
import OperatingSystem.Vm.Trace
import OperatingSystem.Vm.Generated
import OperatingSystem.Wc.Count
import OperatingSystem.Wc.Words
import OperatingSystem.Wc.Main
import OperatingSystem.Wc.Totals
import OperatingSystem.Wc.Progress
import OperatingSystem.Web.Strings
import OperatingSystem.Web.Process
import OperatingSystem.Web.Confine
import OperatingSystem.Web.Request
import OperatingSystem.Web.Redirect
import OperatingSystem.Web.Buffers
import OperatingSystem.Web.Wire
import OperatingSystem.Web.Client
import OperatingSystem.Web.Fetch
import OperatingSystem.Web.Shared
import OperatingSystem.Pool.State
import OperatingSystem.Pool.Step
import OperatingSystem.Pool.Cases
import OperatingSystem.Pool.Invariant
import OperatingSystem.Pool.Jobs
import OperatingSystem.Pool.Wakeup
import OperatingSystem.Pool.Safety
import OperatingSystem.Pool.Progress
import OperatingSystem.Pool.Calls
import OperatingSystem.Pool.Destroy
import OperatingSystem.Pool.Order
import OperatingSystem.Pool.Startup
import OperatingSystem.Web.Server
import OperatingSystem.Lib.Splice
import OperatingSystem.Lib.TreeEdit
import OperatingSystem.Fs.Edit
import OperatingSystem.Fs.Prune
import OperatingSystem.Fs.Editing
import OperatingSystem.Fs.Recall
import OperatingSystem.Fs.Census
