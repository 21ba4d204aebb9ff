import KvRaft.Cluster.Acts

/-!
# The threads of an instance

`KvRaft.Cluster` lets an election timeout, a replication or a round of the
applier happen at any time.  In the program each of them is done by a goroutine
that may be asleep:

* `applier` waits on `applyCond` while there is nothing to apply;
* each `replicator` waits on its own `replicatorCond` while its peer has the
  whole log;
* `ticker` waits for one of two timers, which fire once after each `Reset`;
* a heartbeat is a goroutine for each peer that runs `replicateToPeer` once.

The functions of the instance signal the conditions and reset the timers.
`Signals` says what a function does in this respect, from the same place of the
source that its translation in `KvRaft.Raft` comes from.

A thread that is woken has to take the mutex before it looks at its condition
again, so waking it and running it are two steps.  Only one thread ever waits on
a condition, so `Signal` wakes it or nobody.  A timer that is reset loses the
tick that nobody has received yet, as timers do since Go 1.23; the module asks
for Go 1.25.  A tick that `ticker` has received is not lost: it waits for the
mutex, and is handled whatever has happened in the meantime.

`Kill` is not part of this model.
-/

namespace KvRaft

/-- What a function does to the other threads: it signals the conditions, starts
heartbeats and resets timers. -/
structure Signals (n : Nat) where
  applier : Bool
  replicators : Fin n → Bool
  heartbeats : Fin n → Bool
  electionTimer : Bool
  heartBeatTimer : Bool

namespace Signals

variable {n : Nat}

/-- Nothing. -/
def none : Signals n := ⟨false, fun _ => false, fun _ => false, false, false⟩

/-- The one and the other. -/
instance : Append (Signals n) where
  append s s' :=
    { applier := s.applier || s'.applier
      replicators := fun peer => s.replicators peer || s'.replicators peer
      heartbeats := fun peer => s.heartbeats peer || s'.heartbeats peer
      electionTimer := s.electionTimer || s'.electionTimer
      heartBeatTimer := s.heartBeatTimer || s'.heartBeatTimer }

end Signals

/-! ## What the functions signal -/

namespace Raft

variable {n : Nat} {C D : Type}

/-- `signalApplier`. -/
def signalApplier : Signals n := { Signals.none with applier := true }

/-- `signalReplication`. -/
def signalReplication (peer : Fin n) : Signals n :=
  { Signals.none with replicators := fun p => p = peer }

/-- `signalBroadcastReplication`. -/
def signalBroadcastReplication (rf : Raft n C D) (isHeartbeat : Bool) : Signals n :=
  if isHeartbeat then { Signals.none with heartbeats := fun p => p ≠ rf.me }
  else { Signals.none with replicators := fun p => p ≠ rf.me }

/-- `resetElectionTimer`. -/
def resetElectionTimer : Signals n := { Signals.none with electionTimer := true }

/-- `resetHeartbeatTimer`. -/
def resetHeartbeatTimer : Signals n := { Signals.none with heartBeatTimer := true }

/-- `Start`. -/
def startSignals (rf : Raft n C D) : Signals n :=
  if rf.state ≠ .leader then .none else rf.signalBroadcastReplication false

/-- `handleHigherTerm`. -/
def handleHigherTermSignals (rf : Raft n C D) (term : Nat) : Signals n :=
  if term > rf.currentTerm then resetElectionTimer else .none

/-- `becomeLeader`. -/
def becomeLeaderSignals (rf : Raft n C D) : Signals n :=
  rf.signalBroadcastReplication true ++ resetHeartbeatTimer

/-- `requestVoteFromPeer`, from the moment the reply arrived. -/
def requestVoteFromPeerSignals (rf : Raft n C D) (args : RequestVoteArgs n) (votes : Nat)
    (reply : RequestVoteReply) : Signals n :=
  if ¬ rf.isStillValidCandidate args.term then .none
  else
    let signals := rf.handleHigherTermSignals reply.term
    let (rf, isHigher) := rf.handleHigherTerm reply.term
    if isHigher then signals
    else if reply.voteGranted then
      let rf := { rf with grantedVotes := rf.grantedVotes.modify votes (· + 1) }
      if rf.grantedVotes[votes]? = some (n / 2 + 1) then signals ++ rf.becomeLeaderSignals
      else signals
    else signals

/-- `RequestVote`. -/
def requestVoteSignals (rf : Raft n C D) (args : RequestVoteArgs n) : Signals n :=
  match rf.requestVote args with
  | some (_, reply) => if reply.voteGranted then resetElectionTimer else .none
  | none => .none

/-- `advanceCommitIndex`. -/
def advanceCommitIndexSignals (rf : Raft n C D) (leaderCommit : Nat) : Signals n :=
  if rf.commitIndex < leaderCommit then signalApplier else .none

/-- `AppendEntries`.  The timer is reset before the entries are looked at. -/
def appendEntriesSignals (rf : Raft n C D) (args : AppendEntriesArgs n C) : Signals n :=
  if args.term < rf.currentTerm then .none
  else
    let rf := rf.follow args.term args.leaderId
    match rf.handleConsistencyConflict args with
    | some none =>
      match rf.appendNewEntries args.entries with
      | some rf => resetElectionTimer ++ rf.advanceCommitIndexSignals args.leaderCommit
      | none => resetElectionTimer
    | _ => resetElectionTimer

/-- `InstallSnapshot`. -/
def installSnapshotSignals (rf : Raft n C D) (args : InstallSnapshotArgs n D) : Signals n :=
  if args.term < rf.currentTerm then .none
  else if args.lastIncludedIndex ≤ rf.lastIncludedIndex then resetElectionTimer
  else resetElectionTimer ++ signalApplier

/-- `advancePeerIndices`. -/
def advancePeerIndicesSignals (rf : Raft n C D) (peer : Fin n) (args : AppendEntriesArgs n C) :
    Signals n :=
  if args.prevLogIndex + args.entries.length > rf.matchIndex peer then signalReplication peer
  else .none

/-- `updateCommitIndex`.  The loop assigns indices above `commitIndex` only, and
signals when it has assigned one. -/
def updateCommitIndexSignals (rf : Raft n C D) : Signals n :=
  match rf.updateCommitIndex with
  | some rf' => if rf.commitIndex < rf'.commitIndex then signalApplier else .none
  | none => .none

/-- `handleAppendEntriesReply`.  `resolveConflict` signals the replicator in each
of its branches. -/
def handleAppendEntriesReplySignals (rf : Raft n C D) (peer : Fin n)
    (args : AppendEntriesArgs n C) (reply : AppendEntriesReply) : Signals n :=
  let signals := rf.handleHigherTermSignals reply.term
  let (rf, ignore) := rf.shouldIgnoreReply args.term reply.term
  if ignore then signals
  else if reply.success = false then signals ++ signalReplication peer
  else signals ++ (rf.advancePeerIndicesSignals peer args ++
    (rf.advancePeerIndices peer args).updateCommitIndexSignals)

/-- `handleInstallSnapshotReply`. -/
def handleInstallSnapshotReplySignals (rf : Raft n C D) (peer : Fin n)
    (args : InstallSnapshotArgs n D) (reply : InstallSnapshotReply) : Signals n :=
  let signals := rf.handleHigherTermSignals reply.term
  let (rf, isHigher) := rf.handleHigherTerm reply.term
  if isHigher then signals
  else if rf.state = .leader ∧ rf.currentTerm = args.term then signals ++ signalReplication peer
  else signals

/-- `needsReplication`. -/
def needsReplication (rf : Raft n C D) (peer : Fin n) : Option Bool :=
  if rf.state = .leader then do
    let lastLog ← rf.getLastLog
    some (decide (rf.matchIndex peer < lastLog.index))
  else some false

end Raft

namespace Cluster

variable {n : Nat} {C D : Type}

/-- The handler of a request. -/
def requestSignals (rf : Raft n C D) : RpcArgs n C D → Signals n
  | .requestVote args => rf.requestVoteSignals args
  | .appendEntries args => rf.appendEntriesSignals args
  | .installSnapshot args => rf.installSnapshotSignals args

/-- The rest of the caller's goroutine, once a reply arrived. -/
def replySignals (rf : Raft n C D) (rpc : Rpc n C D) : RpcReply → Signals n
  | .requestVote reply =>
    match rpc.args with
    | .requestVote args => rf.requestVoteFromPeerSignals args rpc.votes reply
    | _ => .none
  | .appendEntries reply =>
    match rpc.args with
    | .appendEntries args => rf.handleAppendEntriesReplySignals rpc.dst args reply
    | _ => .none
  | .installSnapshot reply =>
    match rpc.args with
    | .installSnapshot args => rf.handleInstallSnapshotReplySignals rpc.dst args reply
    | _ => .none

/-- What an event signals at node `j`.  An election timeout resets the timer, on
a leader as well. -/
def signals (σ : Cluster n C D) (e : Event n C D) (j : Fin n) : Signals n :=
  match e with
  | .electionTimeout i => if j = i then Raft.resetElectionTimer else .none
  | .start i _ => if j = i then (σ.nodes i).startSignals else .none
  | .deliver r =>
    match σ.rpcs[r]? with
    | some rpc => if j = rpc.dst then requestSignals (σ.nodes rpc.dst) rpc.args else .none
    | none => .none
  | .handleReply r reply =>
    match σ.rpcs[r]? with
    | some rpc => if j = rpc.src then replySignals (σ.nodes rpc.src) rpc reply else .none
    | none => .none
  | _ => .none

end Cluster

/-! ## Threads -/

/-- The applier runs, or waits on `applyCond`. -/
inductive ApplierPhase where
  | running
  | waiting
  deriving DecidableEq, Repr

/-- A replicator is about to look at `needsReplication`, waits on its condition,
has left the inner loop, or waits in the call `r`. -/
inductive ReplicatorPhase where
  | running
  | waiting
  | sending
  | calling (r : Nat)
  deriving DecidableEq, Repr

/-- The two timers. -/
inductive Timer where
  | election
  | heartBeat
  deriving DecidableEq, Repr

/-- A timer runs, has a tick for its receiver, or does neither. -/
inductive TimerPhase where
  | armed
  | fired
  | stopped
  deriving DecidableEq, Repr

/-- The threads of one instance.  `heartbeats` counts the goroutines for each peer
that have not run yet, and `ticker` is the tick that `ticker` has received. -/
structure Threads (n : Nat) where
  applier : ApplierPhase
  replicator : Fin n → ReplicatorPhase
  heartbeats : Fin n → Nat
  timer : Timer → TimerPhase
  ticker : Option Timer

namespace Threads

variable {n : Nat}

/-- The threads that `Make` starts. -/
def make : Threads n where
  applier := .running
  replicator _ := .running
  heartbeats _ := 0
  timer _ := .armed
  ticker := none

/-- The threads after some signals. -/
def wake (th : Threads n) (s : Signals n) : Threads n where
  applier := if s.applier then .running else th.applier
  replicator peer :=
    if s.replicators peer ∧ th.replicator peer = .waiting then .running else th.replicator peer
  heartbeats peer := if s.heartbeats peer then th.heartbeats peer + 1 else th.heartbeats peer
  timer
    | .election => if s.electionTimer then .armed else th.timer .election
    | .heartBeat => if s.heartBeatTimer then .armed else th.timer .heartBeat
  ticker := th.ticker

/-- The call `r` is over.  A replicator that waited in it goes on. -/
def ended (th : Threads n) (r : Nat) : Threads n :=
  { th with replicator := fun peer =>
      if th.replicator peer = .calling r then .running else th.replicator peer }

/-- The replicator of `peer` moves. -/
def setReplicator (th : Threads n) (peer : Fin n) (phase : ReplicatorPhase) : Threads n :=
  { th with replicator := Function.update th.replicator peer phase }

/-- A timer changes. -/
def setTimer (th : Threads n) (timer : Timer) (phase : TimerPhase) : Threads n :=
  { th with timer := Function.update th.timer timer phase }

end Threads

/-! ## Clusters with threads -/

/-- A cluster with the threads of its instances.  `failed` are the calls that
`Transport.Call` has given up. -/
structure Scheduled (n : Nat) (C D : Type) where
  cluster : Cluster n C D
  threads : Fin n → Threads n
  failed : Finset Nat

/-- Everything that can happen. -/
inductive ThreadEvent (n : Nat) (C D : Type) where
  /-- A timer of `i` fires. -/
  | fire (i : Fin n) (timer : Timer)
  /-- `ticker` receives the tick. -/
  | tick (i : Fin n) (timer : Timer)
  /-- `ticker` has the mutex and handles the tick. -/
  | handleTick (i : Fin n)
  /-- The applier looks at its condition: it waits, or copies what it is going to
  send. -/
  | applierLook (i : Fin n)
  /-- The applier sends one message. -/
  | applierSend (i : Fin n)
  /-- The replicator of `peer` looks at its condition. -/
  | replicatorLook (i peer : Fin n)
  /-- It runs `replicateToPeer`. -/
  | replicatorSend (i peer : Fin n)
  /-- A heartbeat runs `replicateToPeer`. -/
  | heartbeatSend (i peer : Fin n)
  /-- `Transport.Call` returns false. -/
  | fail (r : Nat)
  /-- The caller of `r` takes a reply. -/
  | handleReply (r : Nat) (reply : RpcReply)
  /-- A request, a call of `Start` or `Snapshot`, or a crash. -/
  | outside (e : Event n C D)
  deriving DecidableEq, Repr

namespace Scheduled

variable {n : Nat} {C D : Type}

/-- Every instance has just been made. -/
def init : Scheduled n C D := ⟨.init, fun _ => .make, ∅⟩

/-- Replace the threads of `i`. -/
def setThreads (s : Scheduled n C D) (i : Fin n) (th : Threads n) : Scheduled n C D :=
  { s with threads := Function.update s.threads i th }

/-- What does not need a thread of its own.  An instance crashes inside
`becomeCandidate` only when it handles a tick. -/
def Outside (s : Scheduled n C D) : Event n C D → Bool
  | .start .. | .deliver _ | .undecodable _ | .crashInInstallSnapshot _ | .snapshot ..
  | .restart _ => true
  | .crashInBecomeCandidate i => (s.threads i).ticker = some .election
  | .electionTimeout _ | .replicate .. | .handleReply .. | .applierTake _
  | .applierSend _ => false

/-- The event of the cluster, and what it signals. -/
def act (s : Scheduled n C D) (e : Event n C D) : Option (Scheduled n C D) :=
  if s.cluster.Enabled e then do
    let cluster ← s.cluster.exec e
    some { s with
      cluster := cluster
      threads := fun j =>
        if s.cluster.rebooted e = some j then .make
        else (s.threads j).wake (s.cluster.signals e j) }
  else none

/-- What an event does.  `none` is an event that cannot happen in the state. -/
def exec (s : Scheduled n C D) : ThreadEvent n C D → Option (Scheduled n C D)
  | .fire i timer =>
    let th := s.threads i
    if th.timer timer = .armed then some (s.setThreads i (th.setTimer timer .fired)) else none
  | .tick i timer =>
    let th := s.threads i
    if th.ticker = none ∧ th.timer timer = .fired then
      some (s.setThreads i { th.setTimer timer .stopped with ticker := some timer })
    else none
  | .handleTick i =>
    match (s.threads i).ticker with
    | none => none
    | some .election => do
      let s ← s.act (.electionTimeout i)
      some (s.setThreads i { s.threads i with ticker := none })
    | some .heartBeat =>
      let th := { s.threads i with ticker := none }
      let rf := s.cluster.nodes i
      if rf.state = .leader then
        some (s.setThreads i
          (th.wake (rf.signalBroadcastReplication true ++ Raft.resetHeartbeatTimer)))
      else some (s.setThreads i th)
  | .applierLook i =>
    let th := s.threads i
    let rf := s.cluster.nodes i
    if th.applier = .running ∧ rf.applying = [] then
      if rf.lastApplied ≥ rf.commitIndex then some (s.setThreads i { th with applier := .waiting })
      else s.act (.applierTake i)
    else none
  | .applierSend i => s.act (.applierSend i)
  | .replicatorLook i peer =>
    let th := s.threads i
    if peer ≠ i ∧ th.replicator peer = .running then do
      let needs ← (s.cluster.nodes i).needsReplication peer
      some (s.setThreads i (th.setReplicator peer (if needs then .sending else .waiting)))
    else none
  | .replicatorSend i peer =>
    let th := s.threads i
    if th.replicator peer = .sending then
      let phase :=
        if (s.cluster.nodes i).state = .leader then .calling s.cluster.rpcs.length else .running
      (s.setThreads i (th.setReplicator peer phase)).act (.replicate i peer)
    else none
  | .heartbeatSend i peer =>
    let th := s.threads i
    if 0 < th.heartbeats peer then
      let left := Function.update th.heartbeats peer (th.heartbeats peer - 1)
      (s.setThreads i { th with heartbeats := left }).act (.replicate i peer)
    else none
  | .fail r =>
    if r ∈ s.cluster.waiting then
      some { s with
        threads := fun j => (s.threads j).ended r
        failed := insert r s.failed }
    else none
  | .handleReply r reply =>
    if r ∉ s.failed then
      { s with threads := fun j => (s.threads j).ended r }.act (.handleReply r reply)
    else none
  | .outside e => if s.Outside e then s.act e else none

/-- One event. -/
def Step (s s' : Scheduled n C D) : Prop := ∃ e, s.exec e = some s'

end Scheduled

/-- A run of a cluster with threads. -/
abbrev ThreadRun (n : Nat) (C D : Type) := Run (Scheduled.init (n := n) (C := C) (D := D))
  Scheduled.Step

end KvRaft
