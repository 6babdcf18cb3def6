import StoneKV.Lib.Prog
import StoneKV.Lib.Disk
import StoneKV.Lib.LeBytes
import StoneKV.Lib.ShiftRegister
import StoneKV.Acknowledged
import StoneKV.Backed
import StoneKV.Corruption
import StoneKV.Failures
import StoneKV.Lives
import StoneKV.Merge
import StoneKV.SegmentGrammar
import StoneKV.Checks
import StoneKV.CrashPoints
import StoneKV.Interrupted
import StoneKV.Validation
import StoneKV.Verified
import StoneKV.RecordParsers
import StoneKV.MemtableSize
import StoneKV.MarkerRuns
import StoneKV.CompactionSize
import StoneKV.Retry
import StoneKV.Exhaustion
import StoneKV.History
import StoneKV.Generations
import StoneKV.Threads
import StoneKV.Stats
import StoneKV.Shell
import StoneKV.Neighbours
import StoneKV.Restart
import StoneKV.Accepted
import StoneKV.Lib.SparseIndex
import StoneKV.Salvage
import StoneKV.Damage
