import RaftShardedKv.Lib.Linearizability
import RaftShardedKv.Kv.Active
import RaftShardedKv.Kv.Engines
import RaftShardedKv.Kv.Snapshots
import RaftShardedKv.Kv.Verdict
import RaftShardedKv.Kv.Watermark
import RaftShardedKv.Kvsrv.Exclusion
import RaftShardedKv.Kvsrv.Linearizable
import RaftShardedKv.Kvsrv.Outcome
import RaftShardedKv.Kvraft.Progress
import RaftShardedKv.Mr.Equivalence
import RaftShardedKv.Mr.Intermediate
import RaftShardedKv.Raft.ApplyStream
import RaftShardedKv.Raft.Compaction
import RaftShardedKv.Raft.Duplicates
import RaftShardedKv.Raft.Indices
import RaftShardedKv.Raft.Killed
import RaftShardedKv.Raft.Storage
import RaftShardedKv.Shard.Leadership
import RaftShardedKv.Shard.Linearizable
import RaftShardedKv.Shard.Rebalance
import RaftShardedKv.Shard.Refinement
import RaftShardedKv.Shard.Swaps
