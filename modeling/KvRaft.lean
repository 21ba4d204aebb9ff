import KvRaft.Rsm.Deadlock
import KvRaft.Service.ExactlyOnce
import KvRaft.System.Crash
import KvRaft.System.Pending
import KvRaft.Instance.ReadFaults
import KvRaft.Instance.Kill
import KvRaft.Transport.Grpc
import KvRaft.Cluster.Delivery
import KvRaft.Cluster.Matching
import KvRaft.Cluster.CommitRule
import KvRaft.Cluster.Backtracking
import KvRaft.Raft.Compaction
import KvRaft.Cluster.Requests
import KvRaft.Cluster.Progress
import KvRaft.Service.Hints
import KvRaft.Threads.Asleep
import KvRaft.Service.Oracle
import KvRaft.Service.Histories
import KvRaft.Service.JavaClerk
import KvRaft.Demo.Exclusion
import KvRaft.Deploy.Startup
