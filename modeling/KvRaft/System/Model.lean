import KvRaft.Cluster.Model
import KvRaft.Rsm.Model

/-!
# The cluster with its replicated state machines

Every node runs a Raft instance and, above it, a replicated state machine.
The two meet in four places:

* `Submit` calls `Start`, and registers under the answer;
* the reader receives what the applier sends: the channel is unbuffered, so
  this is one event;
* `checkSnapshot` may call `Snapshot` with the state of the machine.  Whether it
  does depends on the size of the log, which is not modelled, so both happen;
* a restart makes both anew, from what is on the disk.

Everything else happens in one of them alone.  What `State` and `Leader` answer
is read from the instance at the moment of the event.

`calls` is the history of `Submit` calls in the order in which they were made.
A call keeps its place when its node restarts; it just never returns then.
-/

namespace KvRaft

/-- A call of `Submit`: where, its id and request, what `Start` answered, and
what the call returned. -/
structure Call (n : Nat) (Req Val : Type) where
  node : Fin n
  id : Int
  req : Req
  started : Option (Nat × Nat)
  answer : Option (Answer n Val)
  deriving DecidableEq, Repr

/-- The operation that the call gives to `Start`. -/
def Call.op {n : Nat} {Req Val : Type} (c : Call n Req Val) : Op n Req := ⟨c.node, c.id, c.req⟩

/-- The nodes, and the history of calls. -/
structure System (n : Nat) (S Req Val D : Type) where
  cluster : Cluster n (Op n Req) D
  rsm : Fin n → Rsm n S Req Val D
  calls : List (Call n Req Val)

/-- Everything that can happen.  A call is named by its place in the history. -/
inductive SystemEvent (n : Nat) (Req D : Type) where
  /-- Something in Raft that the state machine above takes no part in, or a
  restart. -/
  | raft (e : Event n (Op n Req) D)
  /-- A client's request makes node `i` call `Submit`. -/
  | submit (i : Fin n) (id : Int) (req : Req)
  | register (call : Nat)
  | timeout (call : Nat)
  | dumpPending (call : Nat)
  | leave (call : Nat)
  /-- The applier of `i` sends, and the reader receives. -/
  | receive (i : Fin n)
  | lockCommand (i : Fin n)
  | doOp (i : Fin n)
  | notifyPending (i : Fin n)
  | handleSnapshot (i : Fin n)
  | notifyOutdated (i : Fin n)
  | nextOutdated (i : Fin n) (idx : Nat)
  | endOutdated (i : Fin n)
  | send (i : Fin n)
  /-- `checkSnapshot`, which calls `Snapshot` or not. -/
  | checkSnapshot (i : Fin n) (take : Bool)
  deriving DecidableEq, Repr

section

variable {n : Nat} {S Req Val D : Type}

/-- Events of Raft in which the state machine above takes no part. -/
def Event.internal {C : Type} : Event n C D → Bool
  | .start .. | .snapshot .. | .applierSend .. => false
  | _ => true

/-- What a call has returned. -/
def Rsm.answer (r : Rsm n S Req Val D) (call : Nat) : Option (Answer n Val) :=
  match (r.submits call).map Submit.phase with
  | some (.returned answer) => some answer
  | _ => none

end

namespace System

variable {n : Nat} {S Req Val D : Type} (m : StateMachine S Req Val D)

/-- `MakeRSM` on top of an instance. -/
def makeRsm (cluster : Cluster n (Op n Req) D) (i : Fin n) : Rsm n S Req Val D :=
  .make m i (cluster.nodes i).persister.readSnapshot

/-- Every node starts on an empty disk. -/
def init : System n S Req Val D where
  cluster := .init
  rsm := makeRsm m .init
  calls := []

/-- The step of Raft that belongs to an event. -/
def raftEvent (s : System n S Req Val D) : SystemEvent n Req D → Option (Event n (Op n Req) D)
  | .raft e => some e
  | .register call => (s.calls[call]?).map fun c => .start c.node (some c.op)
  | .receive i => some (.applierSend i)
  | .checkSnapshot i true =>
    match (s.rsm i).reader with
    | .checking index => some (.snapshot i index (some (m.snapshot (s.rsm i).sm)))
    | _ => none
  | _ => none

/-- The step of a state machine, with the answers of its Raft instance. -/
def rsmEvent (s : System n S Req Val D) :
    SystemEvent n Req D → Option (Fin n × RsmEvent n Req D)
  | .raft _ => none
  | .submit i id req => some (i, .submit s.calls.length id req)
  | .register call => (s.calls[call]?).map fun c =>
    let rf := s.cluster.nodes c.node
    (c.node, .register call (rf.start (some c.op)).2 rf.currentLeader)
  | .timeout call => (s.calls[call]?).map fun c => (c.node, .timeout call)
  | .dumpPending call => (s.calls[call]?).map fun c =>
    (c.node, .dumpPending call (s.cluster.nodes c.node).currentLeader)
  | .leave call => (s.calls[call]?).map fun c => (c.node, .leave call)
  | .receive i => (s.cluster.nodes i).applying.head?.map fun msg => (i, .receive msg)
  | .lockCommand i => some (i, .lockCommand)
  | .doOp i => some (i, .doOp)
  | .notifyPending i => some (i, .notifyPending ((s.cluster.nodes i).state = .leader))
  | .handleSnapshot i => some (i, .handleSnapshot)
  | .notifyOutdated i =>
    let rf := s.cluster.nodes i
    some (i, .notifyOutdated rf.currentTerm (rf.state = .leader))
  | .nextOutdated i idx => some (i, .nextOutdated idx)
  | .endOutdated i => some (i, .endOutdated)
  | .send i => some (i, .send (s.cluster.nodes i).currentLeader)
  | .checkSnapshot i _ => some (i, .checkSnapshot)

/-- The history after an event that took the state machine of the call's node
to `r`. -/
def record (s : System n S Req Val D) (r : Rsm n S Req Val D) :
    SystemEvent n Req D → List (Call n Req Val)
  | .submit i id req => s.calls ++ [⟨i, id, req, none, none⟩]
  | .register call => s.calls.modify call fun c => { c with
      started := ((s.cluster.nodes c.node).start (some c.op)).2
      answer := r.answer call }
  | .leave call => s.calls.modify call fun c => { c with answer := r.answer call }
  | _ => s.calls

/-- The state machines after a restart. -/
def restarted (s : System n S Req Val D) (cluster : Cluster n (Op n Req) D) :
    Option (Fin n) → Fin n → Rsm n S Req Val D
  | some i => Function.update s.rsm i (makeRsm m cluster i)
  | none => s.rsm

/-- The Raft side of an event. -/
def execRaft (σ : Cluster n (Op n Req) D) :
    Option (Event n (Op n Req) D) → Option (Cluster n (Op n Req) D)
  | some e => if σ.Enabled e then σ.exec e else none
  | none => some σ

/-- The other side: the state machines and the history. -/
def execRsm (s : System n S Req Val D) (cluster : Cluster n (Op n Req) D) :
    SystemEvent n Req D → Option ((Fin n → Rsm n S Req Val D) × List (Call n Req Val))
  | .raft e =>
    if e.internal then some (s.restarted m cluster (s.cluster.rebooted e), s.calls) else none
  | e => do
    let (i, step) ← s.rsmEvent e
    let r ← (s.rsm i).exec m step
    some (Function.update s.rsm i r, s.record r e)

/-- What an event does.  `none` is an event that cannot happen in the state. -/
def exec (s : System n S Req Val D) (e : SystemEvent n Req D) :
    Option (System n S Req Val D) := do
  let cluster ← execRaft s.cluster (s.raftEvent m e)
  let (rsm, calls) ← s.execRsm m cluster e
  some ⟨cluster, rsm, calls⟩

/-- One event. -/
def Step (s s' : System n S Req Val D) : Prop := ∃ e, s.exec m e = some s'

end System

/-- A run of the system. -/
abbrev SystemRun (n : Nat) {S Req Val D : Type} (m : StateMachine S Req Val D) :=
  Run (System.init (n := n) m) (System.Step m)

end KvRaft
