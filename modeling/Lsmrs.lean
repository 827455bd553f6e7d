import Lsmrs.Wal.Torn
import Lsmrs.Server.WellFormed
import Lsmrs.Bloom
import Lsmrs.Support.Layers
import Lsmrs.Support.OrderedMap
import Lsmrs.Sstable.Table
import Lsmrs.Sstable.Layout
import Lsmrs.Sstable.Lookup
import Lsmrs.Sstable.Opening
import Lsmrs.Sstable.Merge
import Lsmrs.Sstable.Names
import Lsmrs.Sstable.Set
import Lsmrs.Db.Machine
import Lsmrs.Db.Lawful
import Lsmrs.Sstable.Segments
import Lsmrs.Sstable.Reopening
import Lsmrs.Sstable.Compaction
import Lsmrs.Db.Tables
import Lsmrs.Db.Compactor
import Lsmrs.Db.Effect
import Lsmrs.Db.Invariant
import Lsmrs.Db.Writer
import Lsmrs.Db.Runs
import Lsmrs.Db.Recovery
import Lsmrs.Db.Scan
import Lsmrs.Db.FailedWrite
import Lsmrs.Db.MemtableBound
import Lsmrs.Sstable.Calls
import Lsmrs.Sstable.Leftovers
import Lsmrs.Sstable.FailedCompaction
import Lsmrs.Sstable.Uncovering
import Lsmrs.Sstable.FailedCalls
import Lsmrs.Db.TableList
import Lsmrs.Sstable.WrittenTable
import Lsmrs.Sstable.NewestWins
import Lsmrs.Wal.Frames
import Lsmrs.Wal.Malformed
import Lsmrs.Support.Checksum
import Lsmrs.Wal.Corruption
import Lsmrs.Wal.Cut
import Lsmrs.Sstable.PickRun
import Lsmrs.Db.CompactorThread
import Lsmrs.Db.CompactorSafe
import Lsmrs.Sstable.Records
import Lsmrs.Sstable.Blocks
import Lsmrs.Bloom.Inserts
import Lsmrs.Resp.Lines
import Lsmrs.Resp.Frames
import Lsmrs.Resp.Limits
import Lsmrs.Resp.Desync
import Lsmrs.Resp.CutOff
import Lsmrs.Support.Words
import Lsmrs.Sstable.AnyDirectory
import Lsmrs.Sstable.Covered
import Lsmrs.Bloom.Probes
import Lsmrs.Sstable.FailedOpen
import Lsmrs.Sstable.TableLoops
import Lsmrs.Sstable.Damaged
import Lsmrs.Support.Loops
import Lsmrs.Db.AnyLog
import Lsmrs.Server.Del
import Lsmrs.Support.Mixing
import Lsmrs.Hash.Collisions
import Lsmrs.Server.OnMachine
import Lsmrs.Support.Atomicity
import Lsmrs.Resp.Arriving
import Lsmrs.Server.Arms
import Lsmrs.Server.PlainMap
import Lsmrs.Server.Connections
import Lsmrs.Server.Explains
import Lsmrs.Server.Linearizable
import Lsmrs.Server.Lives
import Lsmrs.Server.Progress
import Lsmrs.Server.Pipelining
import Lsmrs.Db.Closing
import Lsmrs.Db.CleanClose
import Lsmrs.Cli.Command
import Lsmrs.Cli.Repl
import Lsmrs.Cli.Sessions
import Lsmrs.Support.Inodes
import Lsmrs.Db.Descriptors
import Lsmrs.Db.OpenFiles
import Lsmrs.Db.Mounted
import Lsmrs.Db.Snapshots
import Lsmrs.Server.Listening
import Lsmrs.Db.Remounts
import Lsmrs.Sstable.Buffers
import Lsmrs.Sstable.Refusals
