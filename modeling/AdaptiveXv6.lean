import AdaptiveXv6.Accounting
import AdaptiveXv6.Pids
import AdaptiveXv6.HealthBand
import AdaptiveXv6.Aging
import AdaptiveXv6.Starvation
import AdaptiveXv6.Overtaking
import AdaptiveXv6.Races
import AdaptiveXv6.NonInterference
import AdaptiveXv6.SleepWakeup
import AdaptiveXv6.Reuse
import AdaptiveXv6.ExitWait
import AdaptiveXv6.ChildWakeup
import AdaptiveXv6.Kills
import AdaptiveXv6.LogSpace
import AdaptiveXv6.CachePressure
import AdaptiveXv6.Descriptors
import AdaptiveXv6.DiskProtocol
import AdaptiveXv6.LazyRuns
import AdaptiveXv6.InodeFreeing
import AdaptiveXv6.KillTargets
import AdaptiveXv6.Slices
import AdaptiveXv6.AgingOverflow
import AdaptiveXv6.Reports
import AdaptiveXv6.PipeStreams
import AdaptiveXv6.PipeWakeups
import AdaptiveXv6.ConsoleLines
import AdaptiveXv6.RadixFrees
import AdaptiveXv6.RadixViews
import AdaptiveXv6.GrepRuns
import AdaptiveXv6.ChunkedWrites
import AdaptiveXv6.HeapLimits
import AdaptiveXv6.PathResolution
import AdaptiveXv6.UserMemory
import AdaptiveXv6.ShellStrings
import AdaptiveXv6.Spinlocks
import AdaptiveXv6.SleepLocks
import AdaptiveXv6.ReclaimCrashes
