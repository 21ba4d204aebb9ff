import KvRaft.Cluster.Model

/-!
# One instance and its surroundings

`KvRaft.Cluster` lets the instances talk to each other.  Here one instance
stands alone, and everything that reaches it is arbitrary: requests and
replies that no cluster would ever send, snapshots of any index, `Kill`, and
calls of `ReadSnapshot` that fail.  What holds of every run of this model is
kept by the instance itself, whatever the others do.

Arbitrary means arbitrary within the types.  Numbers are natural and peers are among
the `n`, so negative numbers and unknown ids cannot come.  Where the applier wants
entries beyond the end of the log, `applierTake` has no step, in the runs here and in
those of `NodeRun`.  Go bounds the slice by the capacity of `rf.logs` and may deliver
entries there that were cut off before, or panic.  In a cluster the log reaches the
commit index, and this does not happen.

Each step runs under `rf.mu`, so the states of a run are the states in which
the mutex is free.  A step calls `ReadSnapshot` at most once, and an election
timeout at most twice.  `none` stands for a call that succeeds, and `some data`
for one that fails and returns `data`.

`stored` and `sent` are history: the accepted snapshots with their indices, and
the requests that left the instance.
-/

namespace KvRaft

/-- Everything that can happen to an instance. -/
inductive Input (n : Nat) (C D : Type) where
  | start (command : Option C)
  /-- The election timer fires.  `second` is the outcome of the second
  `ReadSnapshot`. -/
  | electionTimeout (second : Option (Option D))
  /-- A request arrives. -/
  | request (args : RpcArgs n C D)
  /-- A call that the instance made is answered. -/
  | reply (rpc : Rpc n C D) (reply : RpcReply)
  | snapshot (index : Nat) (data : Option D)
  | replicate (peer : Fin n)
  | applierTake
  | applierSend
  | kill
  deriving DecidableEq, Repr

/-- The outcome of the second `ReadSnapshot` of a step. -/
def Input.second {n : Nat} {C D : Type} : Input n C D → Option (Option D)
  | .electionTimeout second => second
  | _ => none

/-- What leaves an instance: a request, or the reply to a request. -/
inductive Output (n : Nat) (C D : Type) where
  | request (args : RpcArgs n C D)
  | reply (args : RpcArgs n C D) (reply : RpcReply)
  deriving DecidableEq, Repr

namespace Raft

variable {n : Nat} {C D : Type}

/-- The outcome of the next `ReadSnapshot`. -/
def failRead (rf : Raft n C D) (fault : Option (Option D)) : Raft n C D :=
  { rf with persister := { rf.persister with readFault := fault } }

/-- What an input does, and what leaves the instance.  `none` is a panic, or
an input that cannot come. -/
def react (rf : Raft n C D) : Input n C D → Option (Raft n C D × List (Output n C D))
  | .start command => some ((rf.start command).1, [])
  | .electionTimeout second =>
    if rf.state = .leader then some (rf, [])
    else do
      let (rf, args, _) ← (rf.becomeCandidateTerm.failRead second).startElection
      some (rf, [.request (.requestVote args)])
  | .request args => do
    let (rf, reply) ← Cluster.handleRequest rf args
    some (rf, [.reply args reply])
  | .reply rpc reply => do
    let rf ← Cluster.handleReply rf rpc reply
    some (rf, [])
  | .snapshot index data => do
    let rf ← rf.snapshot index data
    some (rf, [])
  | .replicate peer => do
    let args ← rf.replicateToPeer peer
    some (rf, args.toList.map .request)
  | .applierTake =>
    if rf.applying = [] ∧ rf.lastApplied < rf.commitIndex then do
      let rf ← rf.applierTake
      some (rf, [])
    else none
  | .applierSend => if rf.applying = [] then none else some (rf.applierSend, [])
  | .kill => some ({ rf with dead := true }, [])

/-- The snapshot that an input stores, with its index: `Snapshot` and
`InstallSnapshot` refuse what is not ahead of the log's base. -/
def accepted (rf : Raft n C D) : Input n C D → Option (Nat × Option D)
  | .snapshot index data =>
    if index ≤ rf.lastIncludedIndex ∨ rf.commitIndex < index then none else some (index, data)
  | .request (.installSnapshot args) =>
    if args.term < rf.currentTerm ∨ args.lastIncludedIndex ≤ rf.lastIncludedIndex then none
    else some (args.lastIncludedIndex, args.data)
  | _ => none

end Raft

/-- The request that leaves, if it is one. -/
def Output.sent? {n : Nat} {C D : Type} : Output n C D → Option (RpcArgs n C D)
  | .request args => some args
  | .reply _ _ => none

/-- An instance with its history. -/
structure Instance (n : Nat) (C D : Type) where
  raft : Raft n C D
  stored : List (Nat × Option D)
  sent : List (RpcArgs n C D)

namespace Instance

variable {n : Nat} {C D : Type}

/-- `Make` on any persister.  Its snapshot counts as stored. -/
def init (me : Fin n) (persister : Persister n C D) : Instance n C D where
  raft := (Raft.make me persister).failRead none
  stored := [((Raft.make me persister).lastIncludedIndex, persister.snapshot)]
  sent := []

/-- One step: an input, with the outcome of its first `ReadSnapshot`. -/
def exec (σ : Instance n C D) (e : Option (Option D) × Input n C D) :
    Option (Instance n C D) := do
  let rf := σ.raft.failRead e.1
  let (rf', out) ← rf.react e.2
  some
    { raft := rf'.failRead none
      stored := σ.stored ++ (rf.accepted e.2).toList
      sent := σ.sent ++ out.filterMap Output.sent? }

/-- One step, with any arguments. -/
def Step (σ σ' : Instance n C D) : Prop := ∃ e, σ.exec e = some σ'

end Instance

/-- A run of an instance from what is on its persister. -/
abbrev InstanceRun {n : Nat} {C D : Type} (me : Fin n) (persister : Persister n C D) :=
  Run (Instance.init me persister) Instance.Step

end KvRaft
