import KvRaft.Lib.Run
import KvRaft.Raft.Ticker
import Mathlib.Order.Interval.Finset.Nat

/-!
# A cluster of Raft instances

The instances of `KvRaft.Raft`, the calls between them, and every event that
can happen, in any order.

A call is a goroutine that waits in `Transport.Call`.  `rpcs` holds every call
ever made, and a request can be handled at any time after the call and any
number of times: requests are lost, delayed, reordered and duplicated.  Each
handling produces a reply, and a call takes at most one of its replies, while
it is still in `waiting`.

An instance can be restarted from its persister at any time.  Its goroutines
are gone then, so its calls no longer wait.  Two handlers write to the disk
twice: `becomeCandidate` persists the term before the vote, and
`InstallSnapshot` persists a higher term before the snapshot.  A crash between
the two writes is an event of its own.  Every other crash inside a handler
leaves the disk as before the handler or as after it, and is a restart.

`Snapshot` can be called with any index and any data; the node itself
refuses what it does not accept.
-/

namespace KvRaft

/-- One call of `Transport.Call`: who called whom with what.  `votes` is the
cell of the `grantedVotes` variable that a vote request's goroutine holds. -/
structure Rpc (n : Nat) (C D : Type) where
  src : Fin n
  dst : Fin n
  args : RpcArgs n C D
  votes : Nat
  deriving DecidableEq, Repr

/-- The instances and the calls between them. -/
structure Cluster (n : Nat) (C D : Type) where
  nodes : Fin n → Raft n C D
  rpcs : List (Rpc n C D)
  waiting : Finset Nat
  replies : List (Nat × RpcReply)

/-- Everything that can happen. -/
inductive Event (n : Nat) (C D : Type) where
  /-- The election timer of `i` fires. -/
  | electionTimeout (i : Fin n)
  /-- `i` crashes between the two writes of `becomeCandidate` and restarts. -/
  | crashInBecomeCandidate (i : Fin n)
  /-- A client calls `Start` on `i`. -/
  | start (i : Fin n) (command : Option C)
  /-- A heartbeat or a replicator of `i` runs `replicateToPeer`. -/
  | replicate (i peer : Fin n)
  /-- The request of call `r` reaches its destination. -/
  | deliver (r : Nat)
  /-- It reaches the destination, but `RaftService.AppendEntries` cannot decode
  the commands. -/
  | undecodable (r : Nat)
  /-- The destination of call `r` crashes between the two writes of
  `InstallSnapshot` and restarts. -/
  | crashInInstallSnapshot (r : Nat)
  /-- The caller of `r` takes a reply. -/
  | handleReply (r : Nat) (reply : RpcReply)
  /-- The service above calls `Snapshot` on `i`. -/
  | snapshot (i : Fin n) (index : Nat) (data : Option D)
  /-- The applier of `i` copies what it is going to send. -/
  | applierTake (i : Fin n)
  /-- The applier of `i` sends one message. -/
  | applierSend (i : Fin n)
  /-- `i` crashes and restarts. -/
  | restart (i : Fin n)
  deriving DecidableEq, Repr

namespace Cluster

variable {n : Nat} {C D : Type}

/-- Every instance starts on an empty persister. -/
def init : Cluster n C D where
  nodes i := .make i .empty
  rpcs := []
  waiting := ∅
  replies := []

/-- Replace the instance of `i`. -/
def setNode (σ : Cluster n C D) (i : Fin n) (rf : Raft n C D) : Cluster n C D :=
  { σ with nodes := Function.update σ.nodes i rf }

/-- Start the goroutines of some calls. -/
def call (σ : Cluster n C D) (new : List (Rpc n C D)) : Cluster n C D :=
  { σ with
    rpcs := σ.rpcs ++ new
    waiting := σ.waiting ∪ Finset.Ico σ.rpcs.length (σ.rpcs.length + new.length) }

/-- `i` restarts from what is on its persister. -/
def reboot (σ : Cluster n C D) (i : Fin n) (persister : Persister n C D) : Cluster n C D :=
  { σ with
    nodes := Function.update σ.nodes i (.make i persister)
    waiting := σ.waiting.filter fun r => (σ.rpcs[r]?).map Rpc.src ≠ some i }

/-- The vote requests of one election, to every peer but the candidate. -/
def voteRequests (i : Fin n) (args : RequestVoteArgs n) (votes : Nat) : List (Rpc n C D) :=
  ((List.finRange n).filter (· ≠ i)).map fun peer => ⟨i, peer, .requestVote args, votes⟩

/-- The handler of a request. -/
def handleRequest (rf : Raft n C D) : RpcArgs n C D → Option (Raft n C D × RpcReply)
  | .requestVote args => do
    let (rf, reply) ← rf.requestVote args
    some (rf, .requestVote reply)
  | .appendEntries args => do
    let (rf, reply) ← rf.appendEntries args
    some (rf, .appendEntries reply)
  | .installSnapshot args => do
    let (rf, reply) ← rf.installSnapshot args
    some (rf, .installSnapshot reply)

/-- The rest of the caller's goroutine, once a reply arrived. -/
def handleReply (rf : Raft n C D) (rpc : Rpc n C D) : RpcReply → Option (Raft n C D)
  | .requestVote reply =>
    match rpc.args with
    | .requestVote args => rf.requestVoteFromPeer args rpc.votes reply
    | _ => some rf
  | .appendEntries reply =>
    match rpc.args with
    | .appendEntries args => rf.handleAppendEntriesReply rpc.dst args reply
    | _ => some rf
  | .installSnapshot reply =>
    match rpc.args with
    | .installSnapshot args => some (rf.handleInstallSnapshotReply rpc.dst args reply)
    | _ => some rf

/-- When an event can happen. -/
def Enabled (σ : Cluster n C D) : Event n C D → Prop
  | .electionTimeout _ => True
  | .crashInBecomeCandidate i => (σ.nodes i).state ≠ .leader
  | .start _ _ => True
  | .replicate i peer => peer ≠ i
  | .deliver r => r < σ.rpcs.length
  | .undecodable r => ∃ rpc ∈ σ.rpcs[r]?, ∃ args, rpc.args = .appendEntries args
  | .crashInInstallSnapshot r => ∃ rpc ∈ σ.rpcs[r]?, ∃ args,
      rpc.args = .installSnapshot args ∧ (σ.nodes rpc.dst).currentTerm < args.term
  | .handleReply r reply => r ∈ σ.waiting ∧ (r, reply) ∈ σ.replies
  | .snapshot _ _ _ => True
  | .applierTake i => (σ.nodes i).applying = [] ∧
      (σ.nodes i).lastApplied < (σ.nodes i).commitIndex
  | .applierSend i => (σ.nodes i).applying ≠ []
  | .restart _ => True

/-- The node that an event restarts. -/
def rebooted (σ : Cluster n C D) : Event n C D → Option (Fin n)
  | .crashInBecomeCandidate i => some i
  | .crashInInstallSnapshot r => (σ.rpcs[r]?).map Rpc.dst
  | .restart i => some i
  | _ => none

/-- A request's kind can be tested. -/
instance (args : RpcArgs n C D) : Decidable (∃ ae, args = .appendEntries ae) :=
  match args with
  | .appendEntries ae => .isTrue ⟨ae, rfl⟩
  | .requestVote _ => .isFalse fun ⟨_, h⟩ => by cases h
  | .installSnapshot _ => .isFalse fun ⟨_, h⟩ => by cases h

instance (args : RpcArgs n C D) (p : InstallSnapshotArgs n D → Prop) [DecidablePred p] :
    Decidable (∃ is, args = .installSnapshot is ∧ p is) :=
  match args with
  | .installSnapshot is =>
    if h : p is then .isTrue ⟨is, rfl, h⟩
    else .isFalse fun ⟨_, heq, hp⟩ => h (by cases heq; exact hp)
  | .requestVote _ => .isFalse fun ⟨_, h, _⟩ => by cases h
  | .appendEntries _ => .isFalse fun ⟨_, h, _⟩ => by cases h

/-- Whether an event can happen is computed. -/
instance (σ : Cluster n C D) : DecidablePred σ.Enabled
  | .electionTimeout _ => inferInstanceAs (Decidable True)
  | .crashInBecomeCandidate i => inferInstanceAs (Decidable ((σ.nodes i).state ≠ .leader))
  | .start _ _ => inferInstanceAs (Decidable True)
  | .replicate i peer => inferInstanceAs (Decidable (peer ≠ i))
  | .deliver r => inferInstanceAs (Decidable (r < σ.rpcs.length))
  | .undecodable r =>
    inferInstanceAs (Decidable (∃ rpc ∈ σ.rpcs[r]?, ∃ args, rpc.args = .appendEntries args))
  | .crashInInstallSnapshot r => inferInstanceAs (Decidable (∃ rpc ∈ σ.rpcs[r]?, ∃ args,
      rpc.args = .installSnapshot args ∧ (σ.nodes rpc.dst).currentTerm < args.term))
  | .handleReply r reply => inferInstanceAs (Decidable (r ∈ σ.waiting ∧ (r, reply) ∈ σ.replies))
  | .snapshot _ _ _ => inferInstanceAs (Decidable True)
  | .applierTake i => inferInstanceAs (Decidable ((σ.nodes i).applying = [] ∧
      (σ.nodes i).lastApplied < (σ.nodes i).commitIndex))
  | .applierSend i => inferInstanceAs (Decidable ((σ.nodes i).applying ≠ []))
  | .restart _ => inferInstanceAs (Decidable True)

/-- What an event does.  `none` is a panic of the instance that acts. -/
def exec (σ : Cluster n C D) : Event n C D → Option (Cluster n C D)
  | .electionTimeout i =>
    if (σ.nodes i).state = .leader then some σ
    else do
      let (rf, args, votes) ← (σ.nodes i).becomeCandidate
      some ((σ.setNode i rf).call (voteRequests i args votes))
  | .crashInBecomeCandidate i =>
    some (σ.reboot i (σ.nodes i).becomeCandidateTerm.persister)
  | .start i command => some (σ.setNode i ((σ.nodes i).start command).1)
  | .replicate i peer => do
    match ← (σ.nodes i).replicateToPeer peer with
    | none => some σ
    | some args => some (σ.call [⟨i, peer, args, 0⟩])
  | .deliver r =>
    match σ.rpcs[r]? with
    | none => some σ
    | some rpc => do
      let (rf, reply) ← handleRequest (σ.nodes rpc.dst) rpc.args
      some { σ.setNode rpc.dst rf with replies := σ.replies ++ [(r, reply)] }
  | .undecodable r =>
    match σ.rpcs[r]? with
    | none => some σ
    | some rpc =>
      let reply := ⟨(σ.nodes rpc.dst).currentTerm, false, 0, some 0⟩
      some { σ with replies := σ.replies ++ [(r, .appendEntries reply)] }
  | .crashInInstallSnapshot r =>
    match σ.rpcs[r]? with
    | some ⟨_, dst, .installSnapshot args, _⟩ =>
      some (σ.reboot dst ((σ.nodes dst).installSnapshotTerm args.term).persister)
    | _ => some σ
  | .handleReply r reply =>
    match σ.rpcs[r]? with
    | none => some σ
    | some rpc => do
      let rf ← handleReply (σ.nodes rpc.src) rpc reply
      some { σ.setNode rpc.src rf with waiting := σ.waiting.erase r }
  | .snapshot i index data => do
    let rf ← (σ.nodes i).snapshot index data
    some (σ.setNode i rf)
  | .applierTake i => do
    let rf ← (σ.nodes i).applierTake
    some (σ.setNode i rf)
  | .applierSend i => some (σ.setNode i (σ.nodes i).applierSend)
  | .restart i => some (σ.reboot i (σ.nodes i).persister)

/-- One event. -/
def Step (σ σ' : Cluster n C D) : Prop := ∃ e, σ.Enabled e ∧ σ.exec e = some σ'

end Cluster

/-- A run of a cluster. -/
abbrev ClusterRun (n : Nat) (C D : Type) := Run (Cluster.init (n := n) (C := C) (D := D))
  Cluster.Step

/-- The run that a list of events drives. -/
def ClusterRun.ofEvents {n : Nat} {C D : Type} (events : List (Event n C D)) :
    ClusterRun n C D where
  state := (Run.ofEvents .init (fun σ e => if σ.Enabled e then σ.exec e else none) events).state
  start := rfl
  next t := by
    rcases (Run.ofEvents (Cluster.init (n := n) (C := C) (D := D))
      (fun σ e => if σ.Enabled e then σ.exec e else none) events).next t with ⟨e, he⟩ | hsame
    · split_ifs at he with henabled
      exact Or.inl ⟨e, henabled, he⟩
    · exact Or.inr hsame

end KvRaft
