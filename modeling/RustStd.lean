import RustStd.BinaryHeap.Refine
import RustStd.VecDeque.ExtractIf
import RustStd.VecDeque.Within
import RustStd.VecDeque.Refill
import RustStd.LinkedList.Refine
import RustStd.BTree.Range
import RustStd.BTree.SetOperations
import RustStd.BTree.BulkPush
import RustStd.Net.Display
import RustStd.Alloc.Vec
import RustStd.Process.ParseCommandLine
import RustStd.Iter.Windows
import RustStd.Iter.OneShot
import RustStd.Slice.ChunkIterators
import RustStd.Iter.Adapters
import RustStd.Iter.ZipAccess
import RustStd.Path.Hash
import RustStd.Fmt.Template
import RustStd.Fmt.Unescape
import RustStd.Sync.Condvar
import RustStd.Sync.RwLockRuns
import RustStd.Sync.ArcRuns
import RustStd.Str.Join
import RustStd.Division.Algorithms
import RustStd.SoftFloat.DivSpec
import RustStd.Str.CharSearcher
import RustStd.Str.Contains
import RustStd.Str.Lossy
import RustStd.Num.IntSqrt
import RustStd.Str.DecodeUtf16
import RustStd.Slice.BinarySearch
import RustStd.Time.Duration
import RustStd.Num.IntBits
import RustStd.Hash.Sip
import RustStd.Slice.Repeat
import RustStd.Slice.IsAscii
import RustStd.Fmt.Padding
