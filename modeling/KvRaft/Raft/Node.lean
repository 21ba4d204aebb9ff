import KvRaft.Lib.GoSlice
import KvRaft.Raft.Types

/-!
# The Raft instance

Translated from `kvraft/internal/raft/raft.go`, together with `persist`,
`encodeState` and `readPersist` of `kvraft/internal/raft/storage.go`.

A `Raft` value is one instance under its mutex.  Timers, metrics, logging and
condition variables do not appear: a step that a timer or a signal would
trigger may happen at any time.  Three fields are not fields of the source:

* `grantedVotes` holds the `grantedVotes` variable of each election that this
  instance started; an election's goroutines share one cell of it;
* `applying` is what the applier copied under the mutex and has not sent yet;
* `applyCh` is everything the instance has put on its channel, and
  `recovered` the snapshot index that it started from.

A slice access out of range is the result `none`.
-/

namespace KvRaft

/-- `Raft`. -/
structure Raft (n : Nat) (C D : Type) where
  me : Fin n
  dead : Bool
  persister : Persister n C D
  state : NodeState
  currentTerm : Nat
  votedFor : Option (Fin n)
  currentLeader : Option (Fin n)
  logs : List (Entry C)
  commitIndex : Nat
  lastApplied : Nat
  nextIndex : Fin n → Nat
  matchIndex : Fin n → Nat
  lastIncludedIndex : Nat
  lastIncludedTerm : Nat
  grantedVotes : List Nat
  applying : List (ApplyMsg C D)
  applyCh : List (ApplyMsg C D)
  recovered : Nat

namespace Raft

variable {n : Nat} {C D : Type}

/-! ## Log access -/

/-- `getLastLog`. -/
def getLastLog (rf : Raft n C D) : Option (Entry C) :=
  GoSlice.index rf.logs ((rf.logs.length : Int) - 1)

/-- `getLen`. -/
def getLen (rf : Raft n C D) : Nat := rf.lastIncludedIndex + rf.logs.length

/-- `getPhysicalIndex`.  The difference is negative below the snapshot. -/
def getPhysicalIndex (rf : Raft n C D) (index : Nat) : Int :=
  (index : Int) - rf.lastIncludedIndex

/-- `getLog`. -/
def getLog (rf : Raft n C D) (index : Nat) : Option (Entry C) :=
  GoSlice.index rf.logs (rf.getPhysicalIndex index)

/-- `hasEntryAt`. -/
def hasEntryAt (rf : Raft n C D) (index term : Nat) : Option Bool :=
  if index < rf.lastIncludedIndex ∨ rf.getLen ≤ index then some false
  else do
    let entry ← rf.getLog index
    some (entry.term == term)

/-! ## Durable state -/

/-- `encodeState`. -/
def encodeState (rf : Raft n C D) : RaftState n C where
  currentTerm := rf.currentTerm
  votedFor := rf.votedFor
  logs := rf.logs
  lastIncludedIndex := rf.lastIncludedIndex
  lastIncludedTerm := rf.lastIncludedTerm

/-- `persist`: the snapshot is read and written back. -/
def persist (rf : Raft n C D) : Raft n C D :=
  if rf.dead then rf
  else { rf with persister := rf.persister.save rf.encodeState rf.persister.readSnapshot }

/-- `readPersist`. -/
def readPersist (rf : Raft n C D) : Raft n C D :=
  match rf.persister.raftState with
  | none => rf
  | some data =>
    { rf with
      currentTerm := data.currentTerm
      votedFor := data.votedFor
      logs := data.logs
      lastIncludedIndex := data.lastIncludedIndex
      lastIncludedTerm := data.lastIncludedTerm
      commitIndex :=
        if data.lastIncludedIndex > rf.commitIndex then data.lastIncludedIndex
        else rf.commitIndex
      lastApplied :=
        if data.lastIncludedIndex > rf.lastApplied then data.lastIncludedIndex
        else rf.lastApplied
      recovered := data.lastIncludedIndex }

/-- The instance that `Make` allocates, before it reads its disk. -/
def blank (me : Fin n) (persister : Persister n C D) : Raft n C D where
  me := me
  dead := false
  persister := persister
  state := .follower
  currentTerm := 0
  votedFor := none
  currentLeader := none
  logs := [⟨0, 0, none⟩]
  commitIndex := 0
  lastApplied := 0
  nextIndex _ := 0
  matchIndex _ := 0
  lastIncludedIndex := 0
  lastIncludedTerm := 0
  grantedVotes := []
  applying := []
  applyCh := []
  recovered := 0

/-- `Make`. -/
def make (me : Fin n) (persister : Persister n C D) : Raft n C D :=
  (blank me persister).readPersist

/-! ## Client commands, terms and the applier -/

/-- `Start`.  The answer `none` is `(-1, -1, false)`. -/
def start (rf : Raft n C D) (command : Option C) : Raft n C D × Option (Nat × Nat) :=
  if rf.state ≠ .leader then (rf, none)
  else
    let entry : Entry C := ⟨rf.getLen, rf.currentTerm, command⟩
    ({ rf with logs := rf.logs ++ [entry] }.persist, some (rf.getLen, rf.currentTerm))

/-- `handleHigherTerm`. -/
def handleHigherTerm (rf : Raft n C D) (term : Nat) : Raft n C D × Bool :=
  if term > rf.currentTerm then
    ({ rf with currentTerm := term, votedFor := none, state := .follower }.persist, true)
  else (rf, false)

/-- One round of `applier` under the mutex, once `lastApplied < commitIndex`:
the stored snapshot when the log no longer reaches back to `lastApplied`, and
otherwise a copy of the entries up to `commitIndex`. -/
def applierTake (rf : Raft n C D) : Option (Raft n C D) :=
  if rf.lastApplied < rf.lastIncludedIndex then
    let msg := .snapshot rf.persister.readSnapshot rf.lastIncludedTerm rf.lastIncludedIndex
    some { rf with lastApplied := rf.lastIncludedIndex, applying := [msg] }
  else do
    let start := rf.lastApplied + 1
    let limit := rf.commitIndex
    let entries ← GoSlice.slice rf.logs (rf.getPhysicalIndex start)
      (rf.getPhysicalIndex limit + 1)
    some { rf with
      lastApplied := limit
      applying := entries.map fun entry => .command entry.command entry.index }

/-- `applier` sends the next message of its copy. -/
def applierSend (rf : Raft n C D) : Raft n C D :=
  match rf.applying with
  | [] => rf
  | msg :: rest => { rf with applying := rest, applyCh := rf.applyCh ++ [msg] }

end Raft

end KvRaft
