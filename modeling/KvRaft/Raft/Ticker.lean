import KvRaft.Raft.Replication

/-!
# Elections

Translated from `kvraft/internal/raft/ticker.go`.
-/

namespace KvRaft.Raft

variable {n : Nat} {C D : Type}

/-- `genRequestVoteArgs`. -/
def genRequestVoteArgs (rf : Raft n C D) : Option (RequestVoteArgs n) := do
  let lastLog ← rf.getLastLog
  some
    { term := rf.currentTerm
      candidateId := rf.me
      lastLogIndex := lastLog.index
      lastLogTerm := lastLog.term }

/-- `startElection`.  The answer is the request for every other peer, and the
cell of the new `grantedVotes` variable. -/
def startElection (rf : Raft n C D) : Option (Raft n C D × RequestVoteArgs n × Nat) := do
  let rf := { rf with votedFor := some rf.me, currentLeader := none }.persist
  let args ← rf.genRequestVoteArgs
  some ({ rf with grantedVotes := rf.grantedVotes ++ [1] }, args, rf.grantedVotes.length)

/-- The first durable write of `becomeCandidate`: the new term, with the vote
of the old one. -/
def becomeCandidateTerm (rf : Raft n C D) : Raft n C D :=
  { rf with state := .candidate, currentTerm := rf.currentTerm + 1 }.persist

/-- `becomeCandidate`. -/
def becomeCandidate (rf : Raft n C D) : Option (Raft n C D × RequestVoteArgs n × Nat) :=
  rf.becomeCandidateTerm.startElection

/-- `becomeLeader`. -/
def becomeLeader (rf : Raft n C D) : Option (Raft n C D) := do
  let lastLog ← rf.getLastLog
  let lastIndex := lastLog.index
  some { rf with
    state := .leader
    currentLeader := some rf.me
    nextIndex := fun _ => lastIndex + 1
    matchIndex := Function.update (fun _ => rf.lastIncludedIndex) rf.me lastIndex }

/-- `isStillValidCandidate`. -/
def isStillValidCandidate (rf : Raft n C D) (electionTerm : Nat) : Bool :=
  rf.state = .candidate ∧ rf.currentTerm = electionTerm

/-- `requestVoteFromPeer`, from the moment the reply arrived.  `votes` is the
cell of the election's `grantedVotes`. -/
def requestVoteFromPeer (rf : Raft n C D) (args : RequestVoteArgs n) (votes : Nat)
    (reply : RequestVoteReply) : Option (Raft n C D) :=
  if ¬ rf.isStillValidCandidate args.term then some rf
  else
    let (rf, isHigher) := rf.handleHigherTerm reply.term
    if isHigher then some rf
    else if reply.voteGranted then
      let rf := { rf with grantedVotes := rf.grantedVotes.modify votes (· + 1) }
      if rf.grantedVotes[votes]? = some (n / 2 + 1) then rf.becomeLeader else some rf
    else some rf

end KvRaft.Raft
