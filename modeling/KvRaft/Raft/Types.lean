import Mathlib.Data.Fintype.Basic

/-!
# The data types of the Raft package

Translated from `kvraft/raft/raft.go`, with the node's role from
`kvraft/internal/raft/raft.go`.  `n` is the number of peers, `C` the type of
the non-nil commands and `D` the type of the non-empty snapshots; the core
looks into neither.

The conventions:

* a peer id is a `Fin n`, and the id `-1` of `votedFor` and `currentLeader`
  is `none`;
* terms and indices are natural numbers, and the conflict term `-1` is `none`;
* a nil command and a nil or empty snapshot are `none`.
-/

namespace KvRaft

/-- `raft.Entry`. -/
structure Entry (C : Type) where
  index : Nat
  term : Nat
  command : Option C
  deriving DecidableEq, Repr

/-- `NodeState`. -/
inductive NodeState where
  | follower
  | candidate
  | leader
  deriving DecidableEq, Repr

/-- `raft.ApplyMsg`.  The two validity flags are the two constructors. -/
inductive ApplyMsg (C D : Type) where
  | command (command : Option C) (commandIndex : Nat)
  | snapshot (snapshot : Option D) (snapshotTerm snapshotIndex : Nat)
  deriving DecidableEq, Repr

/-- `raft.RequestVoteArgs`. -/
structure RequestVoteArgs (n : Nat) where
  term : Nat
  candidateId : Fin n
  lastLogTerm : Nat
  lastLogIndex : Nat
  deriving DecidableEq, Repr

/-- `raft.RequestVoteReply`. -/
structure RequestVoteReply where
  term : Nat
  voteGranted : Bool
  deriving DecidableEq, Repr

/-- `raft.AppendEntriesArgs`. -/
structure AppendEntriesArgs (n : Nat) (C : Type) where
  term : Nat
  leaderId : Fin n
  prevLogIndex : Nat
  prevLogTerm : Nat
  entries : List (Entry C)
  leaderCommit : Nat
  deriving DecidableEq, Repr

/-- `raft.AppendEntriesReply`.  A reply that never reaches the conflict code
keeps the zero values `0` and `some 0`. -/
structure AppendEntriesReply where
  term : Nat
  success : Bool
  conflictIndex : Nat
  conflictTerm : Option Nat
  deriving DecidableEq, Repr

/-- `raft.InstallSnapshotArgs`. -/
structure InstallSnapshotArgs (n : Nat) (D : Type) where
  term : Nat
  leaderId : Fin n
  lastIncludedIndex : Nat
  lastIncludedTerm : Nat
  data : Option D
  deriving DecidableEq, Repr

/-- `raft.InstallSnapshotReply`. -/
structure InstallSnapshotReply where
  term : Nat
  deriving DecidableEq, Repr

/-- The arguments of a `Transport.Call`, by method. -/
inductive RpcArgs (n : Nat) (C D : Type) where
  | requestVote (args : RequestVoteArgs n)
  | appendEntries (args : AppendEntriesArgs n C)
  | installSnapshot (args : InstallSnapshotArgs n D)
  deriving DecidableEq, Repr

/-- The reply of a `Transport.Call`, by method. -/
inductive RpcReply where
  | requestVote (reply : RequestVoteReply)
  | appendEntries (reply : AppendEntriesReply)
  | installSnapshot (reply : InstallSnapshotReply)
  deriving DecidableEq, Repr

/-- What `encodeState` writes: the five durable fields, in the order of the
encoder. -/
structure RaftState (n : Nat) (C : Type) where
  currentTerm : Nat
  votedFor : Option (Fin n)
  logs : List (Entry C)
  lastIncludedIndex : Nat
  lastIncludedTerm : Nat
  deriving DecidableEq, Repr

/-- `raft.Persister`: the saved state, `none` while nothing was ever saved,
and the saved snapshot.  `readFault` is what `ReadSnapshot` returns instead
of the snapshot while it fails. -/
structure Persister (n : Nat) (C D : Type) where
  raftState : Option (RaftState n C)
  snapshot : Option D
  readFault : Option (Option D)
  deriving DecidableEq, Repr

namespace Persister

variable {n : Nat} {C D : Type}

/-- An empty directory. -/
def empty : Persister n C D := ⟨none, none, none⟩

/-- The bytes that `ReadSnapshot` returns.  The core ignores the error. -/
def readSnapshot (ps : Persister n C D) : Option D := ps.readFault.getD ps.snapshot

/-- `Save`. -/
def save (ps : Persister n C D) (raftState : RaftState n C) (snapshot : Option D) :
    Persister n C D :=
  { ps with raftState := some raftState, snapshot := snapshot }

end Persister

/-! ## The smallest cluster -/

/-- A configuration has at least three nodes: `node0`, `node1` and `node2`. -/
def node0 : Fin 3 := 0

/-- See `node0`. -/
def node1 : Fin 3 := 1

/-- See `node0`. -/
def node2 : Fin 3 := 2

end KvRaft
