import KvRaft.Raft.Types
import KvRaft.Rsm.StateMachine
import Mathlib.Data.List.AList

/-!
# The replicated state machine of a node

Translated from `kvraft/internal/rsm/rsm.go`: the goroutines of `Submit`, the
reader goroutine, the pending map and the mutex `rsm.mu`.

A step is what one goroutine does between two points where it may have to
wait: for the mutex, for a channel, or for a timer.  `Submit` holds the mutex
only inside single steps.  The reader keeps it from its lock to its unlock,
over the sends on the channels of pending entries, so `locked` is a property
of where the reader is.  A channel is unbuffered: a send and the receive that
completes it are one step.

What Raft answers (`Start`, `State`, `Leader`) is a parameter of the step, so
the model makes no assumption about Raft.  `none` is a step that cannot happen
in the state.
-/

namespace KvRaft

/-- `result`. -/
structure Result (Val : Type) where
  id : Int
  val : Option Val
  deriving DecidableEq, Repr

/-- `pendingEntry`.  A channel is named by the call of `Submit` that made it. -/
structure PendingEntry where
  id : Int
  term : Nat
  ch : Nat
  deriving DecidableEq, Repr

/-- What `Submit` returns: `OK` with a value, or `ErrWrongLeader` with a hint. -/
inductive Answer (n : Nat) (Val : Type) where
  | ok (val : Option Val)
  | wrongLeader (leader : Option (Fin n))
  deriving DecidableEq, Repr

/-- Where a call of `Submit` is. -/
inductive Phase (n : Nat) (Val : Type) where
  /-- It has made its operation and is about to lock the mutex. -/
  | entering
  /-- It is in the `select`. -/
  | waiting (index : Nat)
  /-- The timer fired, and it is about to lock the mutex for `dumpPending`. -/
  | timedOut (index : Nat)
  /-- It has its result, and the deferred function is about to lock the mutex. -/
  | leaving (index : Nat) (answer : Answer n Val)
  /-- It has returned. -/
  | returned (answer : Answer n Val)
  deriving DecidableEq, Repr

/-- A call of `Submit`.  `closed` says that its channel was closed. -/
structure Submit (n : Nat) (Req Val : Type) where
  id : Int
  req : Req
  closed : Bool
  phase : Phase n Val
  deriving DecidableEq, Repr

/-- Where the reader is.  `cmd` says that it came from `handleCommand`. -/
inductive Reader (n : Nat) (Req Val D : Type) where
  /-- It waits for a message. -/
  | idle
  /-- It is about to lock the mutex for a command. -/
  | gotCommand (op : Op n Req) (index : Nat)
  /-- It is about to lock the mutex for a snapshot. -/
  | gotSnapshot (data : Option D) (index : Nat)
  /-- It is about to execute the operation, without the mutex. -/
  | applying (op : Op n Req) (index : Nat)
  /-- It is about to lock the mutex again. -/
  | applied (op : Op n Req) (index : Nat) (val : Val)
  /-- In `notifyPending`, at the send on the entry of `index`. -/
  | notifying (index : Nat) (res : Result Val)
  /-- At the beginning of `notifyOutdated`. -/
  | scanning (index : Nat) (cmd : Bool)
  /-- In the loop of `notifyOutdated`. -/
  | outdated (index term : Nat) (isLeader cmd : Bool)
  /-- In that loop, at the send on the entry of `idx`. -/
  | dropping (idx index term : Nat) (isLeader cmd : Bool)
  /-- At `checkSnapshot`. -/
  | checking (index : Nat)
  /-- The channel was closed, and it is about to lock the mutex for `cleanup`. -/
  | draining
  /-- It has ended. -/
  | stopped
  deriving DecidableEq, Repr

/-- `RSM`, with its goroutines. -/
structure Rsm (n : Nat) (S Req Val D : Type) where
  me : Fin n
  sm : S
  pending : AList fun _ : Nat => PendingEntry
  lastApplied : Nat
  reader : Reader n Req Val D
  submits : Nat → Option (Submit n Req Val)

namespace Rsm

variable {n : Nat} {S Req Val D : Type}

/-- `MakeRSM`, with the snapshot that is on the disk. -/
def make (m : StateMachine S Req Val D) (me : Fin n) (snapshot : Option D) :
    Rsm n S Req Val D where
  me := me
  sm :=
    match snapshot with
    | none => m.new
    | some data => m.restore m.new (some data)
  pending := ∅
  lastApplied := 0
  reader := .idle
  submits _ := none

/-- The reader holds the mutex. -/
def locked (r : Rsm n S Req Val D) : Bool :=
  match r.reader with
  | .notifying .. | .scanning .. | .outdated .. | .dropping .. | .checking .. => true
  | _ => false

/-! ## `Submit` -/

/-- The call goes on in another phase. -/
def setPhase (r : Rsm n S Req Val D) (call : Nat) (s : Submit n Req Val)
    (phase : Phase n Val) : Rsm n S Req Val D :=
  { r with submits := Function.update r.submits call (some { s with phase := phase }) }

/-- `Submit` is called and draws its id. -/
def submit (r : Rsm n S Req Val D) (call : Nat) (id : Int) (req : Req) :
    Option (Rsm n S Req Val D) :=
  match r.submits call with
  | none => some { r with
      submits := Function.update r.submits call (some ⟨id, req, false, .entering⟩) }
  | some _ => none

/-- The first critical section of `Submit`, with the answer of `Start`: the
call returns, or it registers and goes to the `select`. -/
def register (r : Rsm n S Req Val D) (call : Nat) (started : Option (Nat × Nat))
    (leader : Option (Fin n)) : Option (Rsm n S Req Val D) := do
  let s ← r.submits call
  match s.phase, r.locked with
  | .entering, false =>
    match started with
    | none => some (r.setPhase call s (.returned (.wrongLeader leader)))
    | some (index, term) => some { r.setPhase call s (.waiting index) with
        pending := r.pending.insert index ⟨s.id, term, call⟩ }
  | _, _ => none

/-- The timer of the `select` fires. -/
def timeout (r : Rsm n S Req Val D) (call : Nat) : Option (Rsm n S Req Val D) := do
  let s ← r.submits call
  match s.phase with
  | .waiting index => some (r.setPhase call s (.timedOut index))
  | _ => none

/-- The critical section of the timeout branch, and the hint it returns. -/
def dumpPending (r : Rsm n S Req Val D) (call : Nat) (leader : Option (Fin n)) :
    Option (Rsm n S Req Val D) := do
  let s ← r.submits call
  match s.phase, r.locked with
  | .timedOut index, false => some (r.setPhase call s (.leaving index (.wrongLeader leader)))
  | _, _ => none

/-- The `select` sees that the channel was closed. -/
def receiveClosed (r : Rsm n S Req Val D) (call : Nat) (leader : Option (Fin n)) :
    Option (Rsm n S Req Val D) := do
  let s ← r.submits call
  match s.phase, s.closed with
  | .waiting index, true => some (r.setPhase call s (.leaving index (.wrongLeader leader)))
  | _, _ => none

/-- The deferred function, which deletes whatever is pending at the index. -/
def leave (r : Rsm n S Req Val D) (call : Nat) : Option (Rsm n S Req Val D) := do
  let s ← r.submits call
  match s.phase, r.locked with
  | .leaving index answer, false =>
    some { r.setPhase call s (.returned answer) with pending := r.pending.erase index }
  | _, _ => none

/-! ## The reader -/

/-- `reader` receives a message.  A command that is not an operation is
dropped by `handleCommand`. -/
def receive (r : Rsm n S Req Val D) (msg : ApplyMsg (Op n Req) D) :
    Option (Rsm n S Req Val D) :=
  match r.reader with
  | .idle =>
    match msg with
    | .command none _ => some r
    | .command (some op) index => some { r with reader := .gotCommand op index }
    | .snapshot data _ index => some { r with reader := .gotSnapshot data index }
  | _ => none

/-- The first critical section of `handleCommand`. -/
def lockCommand (r : Rsm n S Req Val D) : Option (Rsm n S Req Val D) :=
  match r.reader with
  | .gotCommand op index =>
    if index ≤ r.lastApplied then some { r with reader := .idle }
    else some { r with lastApplied := index, reader := .applying op index }
  | _ => none

/-- `DoOp`. -/
def doOp (m : StateMachine S Req Val D) (r : Rsm n S Req Val D) :
    Option (Rsm n S Req Val D) :=
  match r.reader with
  | .applying op index =>
    some { r with
      sm := (m.doOp r.sm op.req).1
      reader := .applied op index (m.doOp r.sm op.req).2 }
  | _ => none

/-- The second critical section of `handleCommand` begins, and `notifyPending`
looks for the entry, with the answer of `State`. -/
def notifyPending (r : Rsm n S Req Val D) (isLeader : Bool) : Option (Rsm n S Req Val D) :=
  match r.reader with
  | .applied op index val =>
    match r.pending.lookup index with
    | none => some { r with reader := .scanning index true }
    | some entry =>
      let res := if isLeader ∧ entry.id = op.id then ⟨op.id, some val⟩ else ⟨-1, none⟩
      some { r with reader := .notifying index res }
  | _ => none

/-- `handleSnapshot`, up to `notifyOutdated`. -/
def handleSnapshot (m : StateMachine S Req Val D) (r : Rsm n S Req Val D) :
    Option (Rsm n S Req Val D) :=
  match r.reader with
  | .gotSnapshot data index =>
    some { r with
      sm := m.restore r.sm data
      lastApplied := index
      reader := .scanning index false }
  | _ => none

/-- `notifyOutdated` asks `State`. -/
def notifyOutdated (r : Rsm n S Req Val D) (term : Nat) (isLeader : Bool) :
    Option (Rsm n S Req Val D) :=
  match r.reader with
  | .scanning index cmd => some { r with reader := .outdated index term isLeader cmd }
  | _ => none

/-- The condition of the loop of `notifyOutdated`. -/
def isOutdated (index term : Nat) (isLeader : Bool) (idx : Nat) (entry : PendingEntry) : Bool :=
  idx ≤ index || !isLeader || entry.term != term

/-- The loop comes to an outdated entry. -/
def nextOutdated (r : Rsm n S Req Val D) (idx : Nat) : Option (Rsm n S Req Val D) :=
  match r.reader with
  | .outdated index term isLeader cmd => do
    let entry ← r.pending.lookup idx
    if isOutdated index term isLeader idx entry then
      some { r with reader := .dropping idx index term isLeader cmd }
    else none
  | _ => none

/-- The loop ends.  `handleSnapshot` unlocks then, and `handleCommand` goes on
to `checkSnapshot`. -/
def endOutdated (r : Rsm n S Req Val D) : Option (Rsm n S Req Val D) :=
  match r.reader with
  | .outdated index term isLeader cmd =>
    if r.pending.entries.any fun e => isOutdated index term isLeader e.1 e.2 then none
    else if cmd then some { r with reader := .checking index }
    else some { r with reader := .idle }
  | _ => none

/-- What the reader is sending: the index of the entry and the result. -/
def sending (r : Rsm n S Req Val D) : Option (Nat × Result Val) :=
  match r.reader with
  | .notifying index res => some (index, res)
  | .dropping idx .. => some (idx, ⟨-1, none⟩)
  | _ => none

/-- Where the reader goes on after a send. -/
def afterSend (r : Rsm n S Req Val D) : Reader n Req Val D :=
  match r.reader with
  | .notifying index _ => .scanning index true
  | .dropping _ index term isLeader cmd => .outdated index term isLeader cmd
  | reader => reader

/-- A send of the reader meets the `select` of the call that owns the channel,
and the reader deletes the entry. -/
def send (r : Rsm n S Req Val D) (leader : Option (Fin n)) : Option (Rsm n S Req Val D) := do
  let (idx, res) ← r.sending
  let entry ← r.pending.lookup idx
  let s ← r.submits entry.ch
  match s.phase with
  | .waiting index =>
    let answer := if res.id = s.id then .ok res.val else .wrongLeader leader
    some { r.setPhase entry.ch s (.leaving index answer) with
      pending := r.pending.erase idx
      reader := r.afterSend }
  | _ => none

/-- `checkSnapshot` is over, and `handleCommand` unlocks. -/
def checkSnapshot (r : Rsm n S Req Val D) : Option (Rsm n S Req Val D) :=
  match r.reader with
  | .checking _ => some { r with reader := .idle }
  | _ => none

/-- The applier closes the channel. -/
def close (r : Rsm n S Req Val D) : Option (Rsm n S Req Val D) :=
  match r.reader with
  | .idle => some { r with reader := .draining }
  | _ => none

/-- `cleanup`. -/
def cleanup (r : Rsm n S Req Val D) : Option (Rsm n S Req Val D) :=
  match r.reader with
  | .draining => some { r with
      submits := fun call => (r.submits call).map fun s =>
        if r.pending.entries.any fun e => e.2.ch == call then { s with closed := true } else s
      pending := ∅
      reader := .stopped }
  | _ => none

end Rsm

/-- The steps of a replicated state machine, with the answers of Raft. -/
inductive RsmEvent (n : Nat) (Req D : Type) where
  | submit (call : Nat) (id : Int) (req : Req)
  | register (call : Nat) (started : Option (Nat × Nat)) (leader : Option (Fin n))
  | timeout (call : Nat)
  | dumpPending (call : Nat) (leader : Option (Fin n))
  | receiveClosed (call : Nat) (leader : Option (Fin n))
  | leave (call : Nat)
  | receive (msg : ApplyMsg (Op n Req) D)
  | lockCommand
  | doOp
  | notifyPending (isLeader : Bool)
  | handleSnapshot
  | notifyOutdated (term : Nat) (isLeader : Bool)
  | nextOutdated (idx : Nat)
  | endOutdated
  | send (leader : Option (Fin n))
  | checkSnapshot
  | close
  | cleanup
  deriving DecidableEq, Repr

namespace Rsm

variable {n : Nat} {S Req Val D : Type}

/-- What a step does. -/
def exec (m : StateMachine S Req Val D) (r : Rsm n S Req Val D) :
    RsmEvent n Req D → Option (Rsm n S Req Val D)
  | .submit call id req => r.submit call id req
  | .register call started leader => r.register call started leader
  | .timeout call => r.timeout call
  | .dumpPending call leader => r.dumpPending call leader
  | .receiveClosed call leader => r.receiveClosed call leader
  | .leave call => r.leave call
  | .receive msg => r.receive msg
  | .lockCommand => r.lockCommand
  | .doOp => doOp m r
  | .notifyPending isLeader => r.notifyPending isLeader
  | .handleSnapshot => handleSnapshot m r
  | .notifyOutdated term isLeader => r.notifyOutdated term isLeader
  | .nextOutdated idx => r.nextOutdated idx
  | .endOutdated => r.endOutdated
  | .send leader => r.send leader
  | .checkSnapshot => r.checkSnapshot
  | .close => r.close
  | .cleanup => r.cleanup

/-- One step. -/
def Step (m : StateMachine S Req Val D) (r r' : Rsm n S Req Val D) : Prop :=
  ∃ e, r.exec m e = some r'

end Rsm

end KvRaft
