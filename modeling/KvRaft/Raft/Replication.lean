import KvRaft.Raft.Storage
import Mathlib.Data.Fintype.Card

/-!
# Log replication and voting

Translated from `kvraft/internal/raft/log_replication.go`.  The loops of the
source are recursions on the index that they count down, or on the entries
that they go through.
-/

namespace KvRaft.Raft

variable {n : Nat} {C D : Type}

/-! ## The leader's requests -/

/-- `genAppendEntriesArgs`. -/
def genAppendEntriesArgs (rf : Raft n C D) (prevLogIndex : Nat) :
    Option (AppendEntriesArgs n C) := do
  let pPrev := rf.getPhysicalIndex prevLogIndex
  let entries ← GoSlice.dropFrom rf.logs (pPrev + 1)
  let prev ← GoSlice.index rf.logs pPrev
  some
    { term := rf.currentTerm
      leaderId := rf.me
      prevLogIndex := prevLogIndex
      prevLogTerm := prev.term
      entries := entries
      leaderCommit := rf.commitIndex }

/-- `replicateToPeer`, up to the call: a snapshot when the entry before
`nextIndex` is compacted away, the rest of the log otherwise, and nothing
when the instance is not the leader. -/
def replicateToPeer (rf : Raft n C D) (peer : Fin n) : Option (Option (RpcArgs n C D)) :=
  if rf.state ≠ .leader then some none
  else if rf.nextIndex peer ≤ rf.lastIncludedIndex then
    some (some (.installSnapshot rf.genInstallSnapshotArgs))
  else do
    let args ← rf.genAppendEntriesArgs (rf.nextIndex peer - 1)
    some (some (.appendEntries args))

/-! ## The follower's side -/

/-- The scan of `handleConsistencyConflict` for the first index of the
conflicting term, downwards from `index` and not below the snapshot. -/
def conflictScan (rf : Raft n C D) (conflictTerm : Nat) : Nat → Option Nat
  | 0 => some 0
  | index + 1 =>
    if rf.lastIncludedIndex < index + 1 then do
      let entry ← rf.getLog (index + 1)
      if entry.term = conflictTerm then rf.conflictScan conflictTerm index
      else some (index + 1)
    else some (index + 1)

/-- `handleConsistencyConflict`.  `none` is "no conflict", and a conflict comes
with its index and its term. -/
def handleConsistencyConflict (rf : Raft n C D) (args : AppendEntriesArgs n C) :
    Option (Option (Nat × Option Nat)) :=
  if args.prevLogIndex < rf.lastIncludedIndex then
    some (some (rf.lastIncludedIndex + 1, none))
  else do
    let has ← rf.hasEntryAt args.prevLogIndex args.prevLogTerm
    if has then some none
    else if rf.getLen ≤ args.prevLogIndex then some (some (rf.getLen, none))
    else do
      let entry ← rf.getLog args.prevLogIndex
      let index ← rf.conflictScan entry.term args.prevLogIndex
      some (some (index + 1, some entry.term))

/-- `appendNewEntries`: equal terms are skipped, the first conflict cuts the
log, and what lies beyond the log is appended. -/
def appendNewEntries (rf : Raft n C D) : List (Entry C) → Option (Raft n C D)
  | [] => some rf
  | entry :: rest =>
    if entry.index < rf.getLen then do
      let pIdx := rf.getPhysicalIndex entry.index
      let old ← GoSlice.index rf.logs pIdx
      if old.term ≠ entry.term then
        let kept ← GoSlice.takeTo rf.logs pIdx
        some { rf with logs := kept ++ entry :: rest }
      else rf.appendNewEntries rest
    else some { rf with logs := rf.logs ++ entry :: rest }

/-- `advanceCommitIndex`. -/
def advanceCommitIndex (rf : Raft n C D) (leaderCommit : Nat) : Raft n C D :=
  if rf.commitIndex < leaderCommit then
    let lastIndex := rf.getLen - 1
    { rf with commitIndex := if leaderCommit < lastIndex then leaderCommit else lastIndex }
  else rf

/-- `AppendEntries`. -/
def appendEntries (rf : Raft n C D) (args : AppendEntriesArgs n C) :
    Option (Raft n C D × AppendEntriesReply) :=
  let reply : AppendEntriesReply := ⟨rf.currentTerm, false, 0, some 0⟩
  if args.term < rf.currentTerm then some (rf, reply)
  else
    let rf :=
      if args.term > rf.currentTerm then
        { rf with currentTerm := args.term, votedFor := none }
      else rf
    let rf := { rf with currentLeader := some args.leaderId, state := .follower }
    do
      match ← rf.handleConsistencyConflict args with
      | some (conflictIndex, conflictTerm) =>
        some (rf.persist,
          { reply with conflictIndex := conflictIndex, conflictTerm := conflictTerm })
      | none =>
        let rf ← rf.appendNewEntries args.entries
        let rf := rf.advanceCommitIndex args.leaderCommit
        some (rf.persist, { reply with success := true })

/-- `isLogUpToDate`. -/
def isLogUpToDate (rf : Raft n C D) (candidateTerm candidateIndex : Nat) : Option Bool := do
  let lastLog ← rf.getLastLog
  if candidateTerm ≠ lastLog.term then some (decide (candidateTerm > lastLog.term))
  else some (decide (candidateIndex ≥ lastLog.index))

/-- `RequestVote`. -/
def requestVote (rf : Raft n C D) (args : RequestVoteArgs n) :
    Option (Raft n C D × RequestVoteReply) :=
  let reply : RequestVoteReply := ⟨rf.currentTerm, false⟩
  if args.term < rf.currentTerm then some (rf, reply)
  else
    let rf :=
      if args.term > rf.currentTerm then
        { rf with state := .follower, currentTerm := args.term, votedFor := none }
      else rf
    let canVote := rf.votedFor = none ∨ rf.votedFor = some args.candidateId
    do
      let logUpToDate ← rf.isLogUpToDate args.lastLogTerm args.lastLogIndex
      if canVote ∧ logUpToDate then
        some ({ rf with votedFor := some args.candidateId }.persist,
          { reply with voteGranted := true })
      else some (rf.persist, reply)

/-! ## The leader's reply handlers -/

/-- `shouldIgnoreReply`. -/
def shouldIgnoreReply (rf : Raft n C D) (argsTerm replyTerm : Nat) : Raft n C D × Bool :=
  let (rf, isHigher) := rf.handleHigherTerm replyTerm
  if isHigher then (rf, true)
  else (rf, decide (rf.state ≠ .leader ∨ rf.currentTerm ≠ argsTerm))

/-- `findLastIndexOfTerm`. -/
def findLastIndexOfTerm (rf : Raft n C D) (term : Nat) : Nat → Option Int
  | 0 => some (-1)
  | i + 1 =>
    if rf.lastIncludedIndex < i + 1 then do
      let entry ← rf.getLog (i + 1)
      if entry.term = term then some ((i + 1 : Nat) : Int)
      else rf.findLastIndexOfTerm term i
    else some (-1)

/-- `resolveConflict`. -/
def resolveConflict (rf : Raft n C D) (peer : Fin n) (args : AppendEntriesArgs n C)
    (reply : AppendEntriesReply) : Option (Raft n C D) :=
  if args.prevLogIndex < rf.lastIncludedIndex then some rf
  else
    match reply.conflictTerm with
    | none =>
      some { rf with nextIndex := Function.update rf.nextIndex peer reply.conflictIndex }
    | some conflictTerm => do
      let lastIdx ← rf.findLastIndexOfTerm conflictTerm args.prevLogIndex
      let next := if lastIdx > 0 then lastIdx.toNat + 1 else reply.conflictIndex
      some { rf with nextIndex := Function.update rf.nextIndex peer next }

/-- `advancePeerIndices`. -/
def advancePeerIndices (rf : Raft n C D) (peer : Fin n) (args : AppendEntriesArgs n C) :
    Raft n C D :=
  let newMatch := args.prevLogIndex + args.entries.length
  if newMatch > rf.matchIndex peer then
    { rf with
      matchIndex := Function.update rf.matchIndex peer newMatch
      nextIndex := Function.update rf.nextIndex peer (newMatch + 1) }
  else rf

/-- `countNodesWithLogAt`. -/
def countNodesWithLogAt (rf : Raft n C D) (index : Nat) : Nat :=
  1 + (Finset.univ.filter fun i => i ≠ rf.me ∧ index ≤ rf.matchIndex i).card

/-- The loop of `updateCommitIndex`, downwards from index `i`. -/
def updateCommitScan (rf : Raft n C D) : Nat → Option (Raft n C D)
  | 0 => some rf
  | i + 1 =>
    if rf.commitIndex < i + 1 then do
      let entry ← rf.getLog (i + 1)
      if entry.term = rf.currentTerm ∧ rf.countNodesWithLogAt (i + 1) > n / 2 then
        some { rf with commitIndex := i + 1 }
      else rf.updateCommitScan i
    else some rf

/-- `updateCommitIndex`. -/
def updateCommitIndex (rf : Raft n C D) : Option (Raft n C D) :=
  rf.updateCommitScan (rf.getLen - 1)

/-- `handleAppendEntriesReply`. -/
def handleAppendEntriesReply (rf : Raft n C D) (peer : Fin n) (args : AppendEntriesArgs n C)
    (reply : AppendEntriesReply) : Option (Raft n C D) :=
  let (rf, ignore) := rf.shouldIgnoreReply args.term reply.term
  if ignore then some rf
  else if reply.success = false then rf.resolveConflict peer args reply
  else (rf.advancePeerIndices peer args).updateCommitIndex

/-- `handleInstallSnapshotReply`. -/
def handleInstallSnapshotReply (rf : Raft n C D) (peer : Fin n)
    (args : InstallSnapshotArgs n D) (reply : InstallSnapshotReply) : Raft n C D :=
  let (rf, isHigher) := rf.handleHigherTerm reply.term
  if isHigher then rf
  else if rf.state = .leader ∧ rf.currentTerm = args.term then
    let newMatch := args.lastIncludedIndex
    let newNext := newMatch + 1
    { rf with
      nextIndex :=
        if newNext > rf.nextIndex peer then Function.update rf.nextIndex peer newNext
        else rf.nextIndex
      matchIndex :=
        if newMatch > rf.matchIndex peer then Function.update rf.matchIndex peer newMatch
        else rf.matchIndex }
  else rf

end KvRaft.Raft
