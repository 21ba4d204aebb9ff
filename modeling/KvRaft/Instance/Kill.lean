import KvRaft.Instance.Writes
import KvRaft.Rsm.Model
import KvRaft.Service.Store

/-!
# What a killed instance still writes

`Kill` sets a flag.  It waits for nobody: handlers that run finish, replies
still arrive, the applier sends the batch it has copied, and the reader of the
state machine above executes it.  `persist` asks for the flag, but `Snapshot`
and `InstallSnapshot` save without asking, and a `persist` that has asked already
saves too.

A `Node` is an instance with the state machine above it.  `held` is what the
persister held when `Kill` was called; a successor that opens the same
persister may write to it afterwards, and what it wrote is then what counts.
`Fenced` says that the persister still holds it.

The disk of a killed instance is not fenced: the reader may call `Snapshot`
(`lateRun_not_fenced`).  It is in every run in which `Kill` comes while no
handler is saving, and no snapshot is accepted afterwards
(`node_fenced_of_settled`).
-/

namespace KvRaft

variable {n : Nat} {S Req Val D : Type}

/-- What a persister holds: the Raft state and the snapshot. -/
def Persister.content {C : Type} (ps : Persister n C D) : Option (RaftState n C) × Option D :=
  (ps.raftState, ps.snapshot)

namespace Raft

variable {C : Type}

/-- `Kill` comes while a handler is inside `persist` or `Save`, behind the test
of the flag.  The answer has the persister at that moment.  Two handlers save
twice, and `late` is the second time; an election tests the flag again in
between. -/
def killDuring (rf : Raft n C D) (late : Bool) :
    Input n C D → Option (Raft n C D × Persister n C D)
  | .electionTimeout second =>
    if rf.state = .leader then some ({ rf with dead := true }, rf.persister)
    else
      let rf₁ := rf.becomeCandidateTerm.failRead second
      if late then do
        let (rf', _, _) ← rf₁.startElection
        some ({ rf' with dead := true }, rf₁.persister)
      else do
        let (rf', _, _) ← { rf₁ with dead := true }.startElection
        some (rf', rf.persister)
  | .request (.installSnapshot args) => do
    let (rf', _) ← rf.installSnapshot args
    some ({ rf' with dead := true },
      if late then (rf.installSnapshotTerm args.term).persister else rf.persister)
  | input => do
    let (rf', _) ← rf.react input
    some ({ rf' with dead := true }, rf.persister)

end Raft

/-- An instance with the state machine above it. -/
structure Node (n : Nat) (S Req Val D : Type) where
  raft : Raft n (Op n Req) D
  rsm : Rsm n S Req Val D
  held : Option (Option (RaftState n (Op n Req)) × Option D)

/-- Everything that can happen on a node. -/
inductive NodeEvent (n : Nat) (Req D : Type) where
  /-- Something happens to the instance.  What the applier sends goes to the
  reader, and is another event. -/
  | raft (fault : Option (Option D)) (input : Input n (Op n Req) D)
  /-- `Kill` is called while the handler of `input` saves. -/
  | killDuring (late : Bool) (input : Input n (Op n Req) D)
  /-- A successor of the killed instance saves. -/
  | successor (raftState : Option (RaftState n (Op n Req))) (snapshot : Option D)
  /-- The applier sends, and the reader receives. -/
  | receive
  /-- `checkSnapshot` calls `Snapshot`. -/
  | checkSnapshot
  /-- Any other step of the state machine. -/
  | rsm (e : RsmEvent n Req D)
  deriving DecidableEq, Repr

/-- The applier's send. -/
def Input.sends {C : Type} : Input n C D → Bool
  | .applierSend => true
  | _ => false

/-- The reader's receive. -/
def RsmEvent.receives : RsmEvent n Req D → Bool
  | .receive _ => true
  | _ => false

namespace Node

variable (m : StateMachine S Req Val D)

/-- `MakeRSM` on any persister. -/
def init (me : Fin n) (persister : Persister n (Op n Req) D) : Node n S Req Val D where
  raft := (Raft.make me persister).failRead none
  rsm := .make m me persister.snapshot
  held := none

/-- The instance after an input.  The first `Kill` records what is held. -/
def setRaft (σ : Node n S Req Val D) (rf : Raft n (Op n Req) D)
    (persister : Persister n (Op n Req) D) : Node n S Req Val D :=
  { σ with
    raft := rf.failRead none
    held := if σ.raft.dead = false ∧ rf.dead = true then some persister.content else σ.held }

/-- The call of `Snapshot` by the reader. -/
def snapshotCall (σ : Node n S Req Val D) : Option (Input n (Op n Req) D) :=
  match σ.rsm.reader with
  | .checking index => some (.snapshot index (some (m.snapshot σ.rsm.sm)))
  | _ => none

/-- What an event does.  `none` is a panic, or an event that cannot happen. -/
def exec (σ : Node n S Req Val D) : NodeEvent n Req D → Option (Node n S Req Val D)
  | .raft fault input =>
    if input.sends then none
    else do
      let (rf, _) ← (σ.raft.failRead fault).react input
      some (σ.setRaft rf rf.persister)
  | .killDuring late input =>
    if σ.raft.dead then none
    else do
      let (rf, persister) ← σ.raft.killDuring late input
      some (σ.setRaft rf persister)
  | .successor raftState snapshot =>
    if σ.raft.dead then
      some { σ with
        raft := { σ.raft with persister := ⟨raftState, snapshot, none⟩ }
        held := some (raftState, snapshot) }
    else none
  | .receive =>
    match σ.raft.applying with
    | [] => none
    | msg :: _ => do
      let r ← σ.rsm.receive msg
      some { σ.setRaft σ.raft.applierSend σ.raft.applierSend.persister with rsm := r }
  | .checkSnapshot => do
    let input ← σ.snapshotCall m
    let (rf, _) ← (σ.raft.failRead none).react input
    let r ← σ.rsm.checkSnapshot
    some { σ.setRaft rf rf.persister with rsm := r }
  | .rsm e =>
    if e.receives then none
    else do
      let r ← σ.rsm.exec m e
      some { σ with rsm := r }

/-- One event. -/
def Step (σ σ' : Node n S Req Val D) : Prop := ∃ e, σ.exec m e = some σ'

/-- Once `Kill` was called, the persister holds what it held then. -/
def Fenced (σ : Node n S Req Val D) : Prop :=
  ∀ held, σ.held = some held → σ.raft.persister.content = held

/-- `Kill` comes while no handler is saving, and a killed instance accepts no
snapshot. -/
def Settled (σ : Node n S Req Val D) : NodeEvent n Req D → Prop
  | .killDuring _ _ => False
  | .raft _ input => σ.raft.dead = true → σ.raft.accepted input = none
  | .checkSnapshot => σ.raft.dead = true →
      ∀ input ∈ σ.snapshotCall m, σ.raft.accepted input = none
  | _ => True

instance [DecidableEq D] [DecidableEq Req] (σ : Node n S Req Val D) :
    DecidablePred (σ.Settled m)
  | .killDuring _ _ => inferInstanceAs (Decidable False)
  | .raft _ input => inferInstanceAs (Decidable (σ.raft.dead = true →
      σ.raft.accepted input = none))
  | .checkSnapshot => inferInstanceAs (Decidable (σ.raft.dead = true →
      ∀ input ∈ σ.snapshotCall m, σ.raft.accepted input = none))
  | .successor _ _ | .receive | .rsm _ => inferInstanceAs (Decidable True)

end Node

/-- A run of a node. -/
abbrev NodeRun (m : StateMachine S Req Val D) (me : Fin n)
    (persister : Persister n (Op n Req) D) := Run (Node.init m me persister) (Node.Step m)

/-- All events of the run are settled. -/
def SettledRun {m : StateMachine S Req Val D} {me : Fin n}
    {persister : Persister n (Op n Req) D} (run : NodeRun m me persister) : Prop :=
  ∀ t, (∃ e, (run.state t).Settled m e ∧ (run.state t).exec m e = some (run.state (t + 1))) ∨
    run.state (t + 1) = run.state t

/-! ## A snapshot after `Kill` -/

/-- A follower commits a command, and its applier copies it.  After `Kill` the
reader receives the command, executes it and takes a snapshot. -/
def lateEvents : List (NodeEvent 3 Request Store) :=
  [.raft none (.request (.appendEntries
      ⟨1, node1, 0, 0, [⟨1, 1, some ⟨node1, 7, .put "x" "a" 0⟩⟩], 1⟩)),
    .raft none .applierTake,
    .raft none .kill,
    .receive,
    .rsm .lockCommand,
    .rsm .doOp,
    .rsm (.notifyPending false),
    .rsm (.notifyOutdated 1 false),
    .rsm .endOutdated,
    .checkSnapshot]

/-- The run of `lateEvents`. -/
def lateRun : NodeRun Store.machine node0 .empty :=
  Run.ofEvents _ (Node.exec Store.machine) lateEvents

/-- The killed instance has written a snapshot. -/
theorem lateRun_not_fenced : ¬ ∀ t, (lateRun.state t).Fenced := by
  intro h
  have hheld : (lateRun.state 10).held = some (lateRun.state 3).raft.persister.content := by
    rfl
  have hcontent := congrArg (fun c => c.1.map RaftState.lastIncludedIndex) (h 10 _ hheld)
  revert hcontent
  decide

/-! ## Settled runs -/

namespace Raft

variable {C : Type} {rf rf' : Raft n C D}

theorem Writes.content_of_dead (h : Writes rf none rf') (hdead : rf.dead = true) :
    rf'.persister.content = rf.persister.content := by
  cases h with
  | keep _ hp => rw [hp]
  | persist _ _ hp => rw [hp, if_pos hdead]

/-- A killed instance that stores no snapshot leaves its disk alone. -/
theorem Reacts.of_dead {second : Option (Option D)} (h : Reacts rf second none rf')
    (hdead : rf.dead = true) :
    rf'.dead = true ∧ rf'.persister.content = rf.persister.content := by
  cases h with
  | writes h => exact ⟨h.frame.dead.trans hdead, h.content_of_dead hdead⟩
  | election rf₁ h₁ h₂ =>
    have hdead₁ : (rf₁.failRead second).dead = true := h₁.frame.dead.trans hdead
    exact ⟨h₂.frame.dead.trans hdead₁,
      (h₂.content_of_dead hdead₁).trans (h₁.content_of_dead hdead)⟩
  | take h =>
    rw [applierTake_eq h]
    exact ⟨hdead, rfl⟩
  | send =>
    rw [applierSend_eq]
    exact ⟨hdead, rfl⟩
  | kill => exact ⟨rfl, rfl⟩

end Raft

namespace Node

variable {m : StateMachine S Req Val D} {σ σ' : Node n S Req Val D}

/-- `Fenced` as an induction needs it: nothing is held before `Kill`. -/
structure Sealed (σ : Node n S Req Val D) : Prop where
  fenced : σ.Fenced
  alive : σ.raft.dead = false → σ.held = none

/-- A step of the instance keeps the seal, if it leaves the disk of a killed
instance alone. -/
theorem Sealed.setRaft (h : σ.Sealed) {rf : Raft n (Op n Req) D}
    (hdead : σ.raft.dead = true →
      rf.dead = true ∧ rf.persister.content = σ.raft.persister.content) :
    (σ.setRaft rf rf.persister).Sealed := by
  cases hkilled : σ.raft.dead with
  | true =>
    obtain ⟨hrf, hcontent⟩ := hdead hkilled
    refine ⟨fun held hheld => ?_, fun halive => ?_⟩
    · simp only [Node.setRaft, hkilled, Bool.true_eq_false, false_and, if_false] at hheld
      exact hcontent.trans (h.fenced held hheld)
    · rw [show (σ.setRaft rf rf.persister).raft.dead = rf.dead from rfl, hrf] at halive
      cases halive
  | false =>
    refine ⟨fun held hheld => ?_, fun halive => ?_⟩
    · simp only [Node.setRaft, hkilled, true_and, h.alive hkilled] at hheld
      split_ifs at hheld
      exact Option.some.inj hheld
    · rw [show (σ.setRaft rf rf.persister).raft.dead = rf.dead from rfl] at halive
      simp only [Node.setRaft, hkilled, halive, Bool.false_eq_true, and_false, if_false]
      exact h.alive hkilled

theorem Sealed.react (h : σ.Sealed) {fault : Option (Option D)} {input : Input n (Op n Req) D}
    {rf : Raft n (Op n Req) D} {out : List (Output n (Op n Req) D)}
    (hreact : (σ.raft.failRead fault).react input = some (rf, out))
    (hsettled : σ.raft.dead = true → σ.raft.accepted input = none) :
    (σ.setRaft rf rf.persister).Sealed := by
  refine h.setRaft fun hdead => ?_
  have hreacts := Raft.react_reacts hreact
  rw [show (σ.raft.failRead fault).accepted input = none from hsettled hdead] at hreacts
  exact hreacts.of_dead hdead

theorem Sealed.step (h : σ.Sealed) {e : NodeEvent n Req D} (hsettled : σ.Settled m e)
    (hexec : σ.exec m e = some σ') : σ'.Sealed := by
  cases e with
  | raft fault input =>
    simp only [exec] at hexec
    split_ifs at hexec
    obtain ⟨⟨rf, out⟩, hreact, hexec⟩ := Option.bind_eq_some_iff.mp hexec
    cases hexec
    exact h.react hreact hsettled
  | killDuring late input => exact hsettled.elim
  | successor raftState snapshot =>
    simp only [exec] at hexec
    split_ifs at hexec with hdead
    cases hexec
    refine ⟨fun held hheld => Option.some.inj hheld, fun halive => ?_⟩
    rw [show σ.raft.dead = false from halive] at hdead
    cases hdead
  | receive =>
    simp only [exec] at hexec
    split at hexec
    · cases hexec
    · obtain ⟨r, _, hexec⟩ := Option.bind_eq_some_iff.mp hexec
      cases hexec
      have hsend : (σ.setRaft σ.raft.applierSend σ.raft.applierSend.persister).Sealed :=
        h.setRaft fun hdead => by
          rw [applierSend_eq]
          exact ⟨hdead, rfl⟩
      exact ⟨hsend.fenced, hsend.alive⟩
  | checkSnapshot =>
    obtain ⟨input, hinput, hexec⟩ := Option.bind_eq_some_iff.mp hexec
    obtain ⟨⟨rf, out⟩, hreact, hexec⟩ := Option.bind_eq_some_iff.mp hexec
    obtain ⟨r, _, hexec⟩ := Option.bind_eq_some_iff.mp hexec
    cases hexec
    have hsealed := h.react hreact fun hdead => hsettled hdead input hinput
    exact ⟨hsealed.fenced, hsealed.alive⟩
  | rsm e =>
    simp only [exec] at hexec
    split_ifs at hexec
    obtain ⟨r, _, hexec⟩ := Option.bind_eq_some_iff.mp hexec
    cases hexec
    exact ⟨h.fenced, h.alive⟩

end Node

/-- When `Kill` comes between two handlers and no snapshot is accepted later, a
killed instance leaves the persister to its successor. -/
theorem node_fenced_of_settled {m : StateMachine S Req Val D} {me : Fin n}
    {persister : Persister n (Op n Req) D} (run : NodeRun m me persister) (h : SettledRun run)
    (t : Nat) : (run.state t).Fenced := by
  suffices hsealed : (run.state t).Sealed from hsealed.fenced
  induction t with
  | zero =>
    rw [run.start]
    exact ⟨fun held hheld => (Option.some_ne_none held hheld.symm).elim, fun _ => rfl⟩
  | succ t ih =>
    rcases h t with ⟨e, hsettled, hexec⟩ | hsame
    · exact ih.step hsettled hexec
    · rw [hsame]
      exact ih

/-- After `Kill` a vote request arrives, the reader executes the command, and no
snapshot is taken. -/
def settledEvents : List (NodeEvent 3 Request Store) :=
  [.raft none (.request (.appendEntries
      ⟨1, node1, 0, 0, [⟨1, 1, some ⟨node1, 7, .put "x" "a" 0⟩⟩], 1⟩)),
    .raft none .applierTake,
    .raft none .kill,
    .raft none (.request (.requestVote ⟨2, node2, 1, 1⟩)),
    .receive,
    .rsm .lockCommand,
    .rsm .doOp]

/-- The run of `settledEvents`. -/
def settledRun : NodeRun Store.machine node0 .empty :=
  Run.ofEvents _ (Node.exec Store.machine) settledEvents

theorem settledRun_settled : SettledRun settledRun := by
  intro t
  rcases Run.ofEvents_next (Node.init Store.machine node0 .empty) (Node.exec Store.machine)
    settledEvents t with ⟨e, he, hexec⟩ | hsame
  · refine Or.inl ⟨e, ?_, hexec⟩
    have hall : ∀ t < 7, ∀ e ∈ settledEvents[t]?,
        (settledRun.state t).Settled Store.machine e := by decide
    exact hall t (List.getElem?_eq_some_iff.mp he).1 e he
  · exact Or.inr hsame

/-- The vote of the killed instance never reaches the disk. -/
theorem fenced_settledRun : SettledRun settledRun ∧ (settledRun.state 7).Fenced :=
  ⟨settledRun_settled, node_fenced_of_settled settledRun settledRun_settled 7⟩

end KvRaft
