import CPractice.AccountService
import CPractice.Ae.EpollTimeout
import CPractice.Ae.Flags
import CPractice.Ae.Interest
import CPractice.Ae.NeverEarly
import CPractice.Ae.PollTimeout
import CPractice.Ae.Repeats
import CPractice.Ae.Stale
import CPractice.Ae.TimerIds
import CPractice.Aes.RoundTrip
import CPractice.Aes.Safety
import CPractice.Anet.Leaks
import CPractice.Barrier.Wedge
import CPractice.ClientManager
import CPractice.EpollServer
import CPractice.HierarchicalMutex.Order
import CPractice.Sds.Quoting
import CPractice.Sds.Runs
import CPractice.ThreadPool
import CPractice.ThreadSafeQueue
import CPractice.Timer
import CPractice.Zmalloc.Accounting
import CPractice.Sds.Sizes
import CPractice.Sds.Limits
import CPractice.Sds.IncrLen
import CPractice.Lib.Trim
import CPractice.Sds.Trim
import CPractice.Sds.Printf
import CPractice.Anet.ReadWrite
import CPractice.Gzip
import CPractice.Sds.Decimal
import CPractice.Sds.CatFmt
import CPractice.Sds.FormatEnd
import CPractice.Lib.Split
import CPractice.Sds.Split
import CPractice.Sds.Numeral
import CPractice.QuickSort
import CPractice.ParallelAccumulate
import CPractice.Jpeg
import CPractice.Zmalloc.Rss
import CPractice.EtCalls
import CPractice.KMeans.Loop
import CPractice.KMeans.Iteration
import CPractice.KMeans.Stops
import CPractice.KMeans.Seeds
import CPractice.KMeans.Separated
import CPractice.CryptAndHash.RoundTrip
import CPractice.CryptAndHash.Accepts
import CPractice.PrimeTables.Sieve
import CPractice.SampleQueue
import CPractice.Libnice.RoundTrip
import CPractice.Libnice.Threads
import CPractice.Zmalloc.PrivateDirty
import CPractice.SystemInfo
import CPractice.SwapLocks.Finish
import CPractice.LtMode.Drain
import CPractice.Sds.Compare
import CPractice.CallbackTimer
import CPractice.ThreadSafeStack
import CPractice.KMeans.Result
import CPractice.PushPop
import CPractice.JpegRows
