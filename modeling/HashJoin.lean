import HashJoin.Barrier
import HashJoin.Lock
import HashJoin.Agreement
import HashJoin.Materialize
import HashJoin.Npj.Rehash
import HashJoin.Npj.Insertions
import HashJoin.Npj.NpoPhases
import HashJoin.Prj.HistogramOptimized
import HashJoin.Prj.JoinInitRun
import HashJoin.Prj.SerialPartition
import HashJoin.Prj.PartitionOptimized
import HashJoin.Prj.TaskQueue
import HashJoin.Prj.Regions
import HashJoin.Prj.SkewRun
import HashJoin.ParallelShuffle
import HashJoin.RandomGen
import HashJoin.FkFromPk
import HashJoin.Zipf
import HashJoin.Slices
import HashJoin.CpuMapping
import HashJoin.DynamicSort.ListOperations
import HashJoin.DynamicSort.ListProgram
import HashJoin.StdList.Programs
import HashJoin.Wisconsin.Allocations
import HashJoin.Wisconsin.Probe
import HashJoin.Wisconsin.Independent
import HashJoin.Wisconsin.Split
