import SearchEngine.TcMalloc.Verify.Accounting
import SearchEngine.TcMalloc.Verify.Users
import SearchEngine.TcMalloc.Verify.Sizes
import SearchEngine.TcMalloc.Verify.SpanLists
import SearchEngine.TcMalloc.Verify.Batch
import SearchEngine.TcMalloc.Verify.Refill
import SearchEngine.TcMalloc.Verify.ThreadCache
import SearchEngine.ThreadPool.Verify.WakeUp
import SearchEngine.ThreadPool.Verify.FailedAdd
import SearchEngine.Server.Verify.FailedGrowth
import SearchEngine.Server.Verify.LineCalls
import SearchEngine.Server.Verify.EndToEnd
import SearchEngine.Client.Verify.Limits
import SearchEngine.Server.Verify.HandOver
import SearchEngine.Server.Verify.Concat
import SearchEngine.Server.Verify.Quiet
import SearchEngine.Client.Verify.Reading
import SearchEngine.Client.Verify.Exit
import SearchEngine.TcMalloc.Verify.Progress
