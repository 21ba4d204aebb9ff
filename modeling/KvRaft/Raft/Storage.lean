import KvRaft.Raft.Node

/-!
# Snapshots

Translated from `kvraft/internal/raft/storage.go`.  `Snapshot` and
`InstallSnapshot` call `Save` on the persister directly, so they write even
when the instance was killed.
-/

namespace KvRaft.Raft

variable {n : Nat} {C D : Type}

/-- `getFirstLog`. -/
def getFirstLog (rf : Raft n C D) : Option (Entry C) := GoSlice.index rf.logs 0

/-- `Snapshot`. -/
def snapshot (rf : Raft n C D) (index : Nat) (data : Option D) : Option (Raft n C D) :=
  if index ≤ rf.lastIncludedIndex ∨ rf.commitIndex < index then some rf
  else do
    let logs ← GoSlice.dropFrom rf.logs (rf.getPhysicalIndex index)
    let rf := { rf with logs := logs, lastIncludedIndex := index }
    let first ← rf.getFirstLog
    let rf := { rf with lastIncludedTerm := first.term }
    some { rf with persister := rf.persister.save rf.encodeState data }

/-- `genInstallSnapshotArgs`. -/
def genInstallSnapshotArgs (rf : Raft n C D) : InstallSnapshotArgs n D where
  term := rf.currentTerm
  leaderId := rf.me
  lastIncludedIndex := rf.lastIncludedIndex
  lastIncludedTerm := rf.lastIncludedTerm
  data := rf.persister.readSnapshot

/-- `truncateLogWithSnapshot`: the suffix stays when the entry at the snapshot
index has the snapshot's term, and otherwise the whole log goes. -/
def truncateLogWithSnapshot (rf : Raft n C D) (index term : Nat) : Option (Raft n C D) :=
  if index < rf.getLen then do
    let entry ← rf.getLog index
    if entry.term = term then
      let logs ← GoSlice.dropFrom rf.logs (rf.getPhysicalIndex index)
      some { rf with logs := logs }
    else some { rf with logs := [⟨index, term, none⟩] }
  else some { rf with logs := [⟨index, term, none⟩] }

/-- The first durable write of `InstallSnapshot`: a higher term is recorded
before anything else happens. -/
def installSnapshotTerm (rf : Raft n C D) (term : Nat) : Raft n C D :=
  if term > rf.currentTerm then { rf with currentTerm := term, votedFor := none }.persist
  else rf

/-- `InstallSnapshot`. -/
def installSnapshot (rf : Raft n C D) (args : InstallSnapshotArgs n D) :
    Option (Raft n C D × InstallSnapshotReply) :=
  let reply : InstallSnapshotReply := ⟨rf.currentTerm⟩
  if args.term < rf.currentTerm then some (rf, reply)
  else
    let rf := rf.installSnapshotTerm args.term
    let rf := { rf with currentLeader := some args.leaderId, state := .follower }
    if args.lastIncludedIndex ≤ rf.lastIncludedIndex then some (rf, reply)
    else do
      let rf ← rf.truncateLogWithSnapshot args.lastIncludedIndex args.lastIncludedTerm
      let rf := { rf with
        lastIncludedIndex := args.lastIncludedIndex
        lastIncludedTerm := args.lastIncludedTerm
        commitIndex :=
          if args.lastIncludedIndex > rf.commitIndex then args.lastIncludedIndex
          else rf.commitIndex }
      some ({ rf with persister := rf.persister.save rf.encodeState args.data }, reply)

end KvRaft.Raft
