import Bionic.Cfi.ShadowSound
import Bionic.Cxxabi.Guard
import Bionic.Dns.AnswerTtl
import Bionic.Dns.CacheRuns
import Bionic.Dns.ResStatsRuns
import Bionic.Exit.AtexitSafety
import Bionic.Fdsan.FdTable
import Bionic.Iconv.Transcode
import Bionic.Libcutils.HashmapRuns
import Bionic.Libcutils.RecordStream
import Bionic.Liblog.EventListElements
import Bionic.Liblog.EventListParse
import Bionic.Liblog.LogLevel
import Bionic.Liblog.PmsgResults
import Bionic.Linker.FileRange
import Bionic.Linker.GnuHashNeon
import Bionic.Linker.GnuProperty
import Bionic.Linker.Isolation
import Bionic.Linker.Relr
import Bionic.Linker.SegmentBounds
import Bionic.Linker.SymbolLookup
import Bionic.Linker.Utils
import Bionic.Logd.ChattyDrops
import Bionic.Logd.LogTagsPersist
import Bionic.Logd.LogTagsRuns
import Bionic.Logd.PruneListFormat
import Bionic.Logd.ReaderThread
import Bionic.Logd.SimpleResults
import Bionic.Logd.StatisticsRuns
import Bionic.Malloc.DebugMallocResults
import Bionic.Malloc.HeapprofdResults
import Bionic.Properties.ContextsSplit
import Bionic.Properties.Foreach
import Bionic.Properties.SeqlockReader
import Bionic.Pthread.BarrierRuns
import Bionic.Pthread.JoinResults
import Bionic.Pthread.KeysRuns
import Bionic.Pthread.NormalMutexSafety
import Bionic.Pthread.RecursiveMutexResults
import Bionic.Pthread.RwLockResults
import Bionic.Pthread.RwLockRuns
import Bionic.Pthread.SemaphoreSafety
import Bionic.Pwd.RoundTrip
import Bionic.Seccomp.Results
import Bionic.Seccomp.SetUidGid
import Bionic.Stdio.FmemopenRuns
import Bionic.Tls.LayoutPlacement
import Bionic.Wchar.Agreement
