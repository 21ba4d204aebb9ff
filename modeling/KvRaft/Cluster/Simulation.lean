import KvRaft.Consensus.Safety
import KvRaft.Raft.Spec
import KvRaft.Cluster.Model

/-!
# The simulation relation

A cluster is related to a state of the protocol of `KvRaft.Consensus`.  The
protocol has whole logs and a history, and the relation says how they show in
the cluster:

* `NodeCore` and `NodeSim`: an instance has the term, the vote and the role of
  its member, stores the end of its log, and has a chosen prefix up to
  `commitIndex`.  `NodeSim` adds that its disk holds what its memory holds.
* `RpcOk` and `ReplyOk`: a request describes a candidacy or a part of a
  leader's log, and a positive reply stands for a vote or an acknowledgement
  in the history.  A snapshot is acknowledged like the slots it stands for.
* `VotesOk`: a candidate's counter counts distinct voters of its election.

`Φ p d` is a parameter: what it means that `d` is a snapshot of the chosen
prefix `p`.  The core does not look into snapshots, so the relation holds for
every `Φ` that the caller of `Snapshot` respects.
-/

namespace KvRaft

open Consensus

variable {n : Nat} {C D : Type}

/-- The protocol state that a cluster refines. -/
abbrev Abs (n : Nat) (C : Type) := State (Fin n) (Option C)

/-- The protocol's name of a node state. -/
def NodeState.role : NodeState → Role
  | .follower => .follower
  | .candidate => .candidate
  | .leader => .leader

/-! ## The disk -/

/-- What `readPersist` recovers; an empty persister stands for the initial
state. -/
def Persister.recover (ps : Persister n C D) : RaftState n C :=
  ps.raftState.getD ⟨0, none, [⟨0, 0, none⟩], 0, 0⟩

/-- The disk holds the five durable fields of the memory. -/
def Raft.Durable (rf : Raft n C D) : Prop := rf.persister.recover = rf.encodeState

/-- The instance that `Make` returns. -/
theorem Raft.make_eq (me : Fin n) (ps : Persister n C D) : Raft.make me ps =
    { Raft.blank me ps with
      currentTerm := ps.recover.currentTerm
      votedFor := ps.recover.votedFor
      logs := ps.recover.logs
      lastIncludedIndex := ps.recover.lastIncludedIndex
      lastIncludedTerm := ps.recover.lastIncludedTerm
      commitIndex := ps.recover.lastIncludedIndex
      lastApplied := ps.recover.lastIncludedIndex
      recovered := ps.recover.lastIncludedIndex } := by
  have hif : ∀ k : Nat, (if k > 0 then k else 0) = k := by
    intro k
    split_ifs <;> omega
  unfold Raft.make Raft.readPersist Persister.recover
  cases h : ps.raftState with
  | none => simp [Raft.blank, h]
  | some data => simp [Raft.blank, h, hif]

/-! ## What the applier sends -/

/-- The messages `msgs` lead from position `p` to position `q`: a command is
the next index, a snapshot is ahead. -/
def Follows (p : Nat) : List (ApplyMsg C D) → Nat → Prop
  | [], q => p = q
  | .command _ k :: rest, q => k = p + 1 ∧ Follows k rest q
  | .snapshot _ _ k :: rest, q => p < k ∧ Follows k rest q

theorem follows_append {p q : Nat} {xs ys : List (ApplyMsg C D)} :
    Follows p (xs ++ ys) q ↔ ∃ r, Follows p xs r ∧ Follows r ys q := by
  induction xs generalizing p with
  | nil => simp [Follows]
  | cons x xs ih =>
    cases x with
    | command c k => simp [Follows, ih, and_assoc]
    | snapshot d t k => simp [Follows, ih, and_assoc]

theorem follows_le {p q : Nat} {xs : List (ApplyMsg C D)} (h : Follows p xs q) : p ≤ q := by
  induction xs generalizing p with
  | nil => exact Nat.le_of_eq h
  | cons x xs ih =>
    cases x with
    | command c k =>
      have := ih h.2
      have := h.1
      omega
    | snapshot d t k =>
      have := ih h.2
      have := h.1
      omega

/-- A batch of consecutive slots leads from its first position to its last. -/
theorem follows_numbered (p : Nat) (l : Log (Option C)) :
    Follows (D := D) p ((numbered (p + 1) l).map fun e => .command e.command e.index)
      (p + l.length) := by
  induction l generalizing p with
  | nil => simp [Follows]
  | cons e l ih =>
    simp only [numbered, List.map_cons, Follows, true_and]
    have := ih (p + 1)
    rwa [show p + 1 + l.length = p + (e :: l).length by simp; omega] at this

section Relation

variable (Φ : Log (Option C) → Option D → Prop)

/-- A message for the service is a chosen command, or a snapshot of a chosen
prefix. -/
def MsgOk (a : Abs n C) (t : Nat) : ApplyMsg C D → Prop
  | .command c k => ∃ p e, a.Chosen (p ++ [e]) t ∧ p.length + 1 = k ∧ e.cmd = c
  | .snapshot d s k => ∃ p, a.Chosen p t ∧ p.length = k ∧ termAt p k = s ∧ Φ p d

/-! ## Instances -/

/-- The memory of the instance `rf` of member `i`. -/
structure NodeCore (a : Abs n C) (i : Fin n) (rf : Raft n C D) : Prop where
  me : rf.me = i
  alive : rf.dead = false
  noFault : rf.persister.readFault = none
  term : a.term i = rf.currentTerm
  vote : a.vote i = rf.votedFor
  role : a.role i = rf.state.role
  repr : Represents rf (a.log i)
  snapLe : rf.lastIncludedIndex ≤ rf.commitIndex
  commitLe : rf.commitIndex ≤ (a.log i).length
  chosen : a.Chosen ((a.log i).take rf.commitIndex) rf.currentTerm
  appliedLe : rf.lastApplied ≤ rf.commitIndex
  snapData : Φ ((a.log i).take rf.lastIncludedIndex) rf.persister.snapshot
  peers : rf.state = .leader → ∀ p, rf.nextIndex p ≤ (a.log i).length + 1 ∧
    rf.matchIndex p ≤ (a.log i).length ∧ (p ≠ i → rf.matchIndex p ≤ rf.commitIndex ∨
      ∃ m, rf.matchIndex p ≤ m ∧ a.acks rf.currentTerm p m)
  msgs : ∀ msg ∈ rf.applyCh ++ rf.applying, MsgOk Φ a rf.currentTerm msg
  follows : Follows rf.recovered (rf.applyCh ++ rf.applying) rf.lastApplied

/-- An instance between two handlers: its memory is on its disk. -/
structure NodeSim (a : Abs n C) (i : Fin n) (rf : Raft n C D) : Prop extends
    NodeCore Φ a i rf where
  durable : rf.Durable

/-! ## Messages -/

/-- What a request says about the history. -/
def RpcOk (a : Abs n C) (rpc : Rpc n C D) : Prop :=
  match rpc.args with
  | .requestVote args => args.candidateId = rpc.src ∧
      ∃ l, a.cand args.term rpc.src = some l ∧ args.lastLogIndex = l.length ∧
        args.lastLogTerm = lastTerm l
  | .appendEntries args => a.leader args.term = some rpc.src ∧
      args.prevLogIndex + args.entries.length ≤ (a.tlog args.term).length ∧
      args.entries = numbered (args.prevLogIndex + 1)
        (((a.tlog args.term).drop args.prevLogIndex).take args.entries.length) ∧
      args.prevLogTerm = termAt (a.tlog args.term) args.prevLogIndex ∧
      args.leaderCommit ≤ args.prevLogIndex + args.entries.length ∧
      a.Chosen ((a.tlog args.term).take args.leaderCommit) args.term
  | .installSnapshot args => a.leader args.term = some rpc.src ∧
      args.lastIncludedIndex ≤ (a.tlog args.term).length ∧
      args.lastIncludedTerm = termAt (a.tlog args.term) args.lastIncludedIndex ∧
      a.Chosen ((a.tlog args.term).take args.lastIncludedIndex) args.term ∧
      Φ ((a.tlog args.term).take args.lastIncludedIndex) args.data

/-- What a reply says about the history. -/
def ReplyOk (a : Abs n C) (rpc : Rpc n C D) : RpcReply → Prop
  | .requestVote reply => ∀ args, rpc.args = .requestVote args →
      reply.voteGranted = true → a.grants args.term rpc.dst rpc.src
  | .appendEntries reply => ∀ args, rpc.args = .appendEntries args →
      (reply.success = true →
        a.acks args.term rpc.dst (args.prevLogIndex + args.entries.length)) ∧
      (reply.success = false → args.term < reply.term ∨
        reply.conflictIndex ≤ (a.tlog args.term).length + 1)
  | .installSnapshot reply => ∀ args, rpc.args = .installSnapshot args →
      args.term < reply.term ∨ a.acks args.term rpc.dst args.lastIncludedIndex

/-- A waiting vote request belongs to an election of its caller, and the
latest one when the caller is still in its term. -/
def WaitOk (rf : Raft n C D) (rpc : Rpc n C D) : Prop :=
  ∀ args, rpc.args = .requestVote args → args.term ≤ rf.currentTerm ∧
    (args.term = rf.currentTerm → rpc.votes + 1 = rf.grantedVotes.length)

/-- Call `r` is a vote request of `i` to `v` in term `t` that still waits. -/
def Cluster.Asks (σ : Cluster n C D) (i : Fin n) (t r : Nat) (v : Fin n) : Prop :=
  r ∈ σ.waiting ∧ ∃ rpc args, σ.rpcs[r]? = some rpc ∧ rpc.src = i ∧ rpc.dst = v ∧
    rpc.args = .requestVote args ∧ args.term = t

/-- The counter of the latest election of `i` counts distinct voters, none of
whom can be counted again. -/
def VotesOk (σ : Cluster n C D) (a : Abs n C) (i : Fin n) : Prop :=
  ∃ S : Finset (Fin n), (σ.nodes i).grantedVotes.getLast? = some S.card ∧
    (∀ v ∈ S, a.grants (σ.nodes i).currentTerm v i) ∧
    (∀ r v, σ.Asks i (σ.nodes i).currentTerm r v → v ∉ S) ∧
    ∀ r r' v, σ.Asks i (σ.nodes i).currentTerm r v →
      σ.Asks i (σ.nodes i).currentTerm r' v → r = r'

/-! ## The relation -/

/-- The cluster `σ` shows the protocol state `a`. -/
structure Sim (σ : Cluster n C D) (a : Abs n C) : Prop where
  node : ∀ i, NodeSim Φ a i (σ.nodes i)
  rpc : ∀ {r : Nat} {rpc}, σ.rpcs[r]? = some rpc → RpcOk Φ a rpc
  reply : ∀ {r : Nat} {rep}, (r, rep) ∈ σ.replies →
    ∃ rpc, σ.rpcs[r]? = some rpc ∧ ReplyOk a rpc rep
  waiting : ∀ {r : Nat}, r ∈ σ.waiting → ∃ rpc, σ.rpcs[r]? = some rpc ∧
    WaitOk (σ.nodes rpc.src) rpc
  votes : ∀ i, (σ.nodes i).state = .candidate → VotesOk σ a i

end Relation

/-! ## History only grows -/

section Mono

variable {Φ : Log (Option C) → Option D → Prop} {a a' : Abs n C}

theorem take_of_isPrefix {p l : Log (Option C)} (h : p <+: l) {k : Nat} (hk : k ≤ p.length) :
    l.take k = p.take k := by
  obtain ⟨t, rfl⟩ := h
  rw [List.take_append_of_le_length hk]

theorem MsgOk.mono (hI : a.Inv) (hx : State.Extends a a') {t t' : Nat} (ht : t ≤ t')
    {msg : ApplyMsg C D} (h : MsgOk Φ a t msg) : MsgOk Φ a' t' msg := by
  cases msg with
  | command c k =>
    obtain ⟨p, e, hp, hk, hc⟩ := h
    exact ⟨p, e, hp.mono hI hx ht, hk, hc⟩
  | snapshot d s k =>
    obtain ⟨p, hp, hk, hs, hd⟩ := h
    exact ⟨p, hp.mono hI hx ht, hk, hs, hd⟩

theorem rpcOk_requestVote {rpc : Rpc n C D} {args : RequestVoteArgs n}
    (h : rpc.args = .requestVote args) : RpcOk Φ a rpc ↔ args.candidateId = rpc.src ∧
      ∃ l, a.cand args.term rpc.src = some l ∧ args.lastLogIndex = l.length ∧
        args.lastLogTerm = lastTerm l := by
  rw [RpcOk, h]

theorem rpcOk_appendEntries {rpc : Rpc n C D} {args : AppendEntriesArgs n C}
    (h : rpc.args = .appendEntries args) : RpcOk Φ a rpc ↔
      a.leader args.term = some rpc.src ∧
      args.prevLogIndex + args.entries.length ≤ (a.tlog args.term).length ∧
      args.entries = numbered (args.prevLogIndex + 1)
        (((a.tlog args.term).drop args.prevLogIndex).take args.entries.length) ∧
      args.prevLogTerm = termAt (a.tlog args.term) args.prevLogIndex ∧
      args.leaderCommit ≤ args.prevLogIndex + args.entries.length ∧
      a.Chosen ((a.tlog args.term).take args.leaderCommit) args.term := by
  rw [RpcOk, h]

theorem rpcOk_installSnapshot {rpc : Rpc n C D} {args : InstallSnapshotArgs n D}
    (h : rpc.args = .installSnapshot args) : RpcOk Φ a rpc ↔
      a.leader args.term = some rpc.src ∧
      args.lastIncludedIndex ≤ (a.tlog args.term).length ∧
      args.lastIncludedTerm = termAt (a.tlog args.term) args.lastIncludedIndex ∧
      a.Chosen ((a.tlog args.term).take args.lastIncludedIndex) args.term ∧
      Φ ((a.tlog args.term).take args.lastIncludedIndex) args.data := by
  rw [RpcOk, h]

theorem replyOk_requestVote {rpc : Rpc n C D} {args : RequestVoteArgs n}
    (h : rpc.args = .requestVote args) {reply : RequestVoteReply} :
    ReplyOk a rpc (.requestVote reply) ↔
      (reply.voteGranted = true → a.grants args.term rpc.dst rpc.src) := by
  simp [ReplyOk, h]

theorem replyOk_appendEntries {rpc : Rpc n C D} {args : AppendEntriesArgs n C}
    (h : rpc.args = .appendEntries args) {reply : AppendEntriesReply} :
    ReplyOk a rpc (.appendEntries reply) ↔
      (reply.success = true →
        a.acks args.term rpc.dst (args.prevLogIndex + args.entries.length)) ∧
      (reply.success = false → args.term < reply.term ∨
        reply.conflictIndex ≤ (a.tlog args.term).length + 1) := by
  simp [ReplyOk, h]

theorem replyOk_installSnapshot {rpc : Rpc n C D} {args : InstallSnapshotArgs n D}
    (h : rpc.args = .installSnapshot args) {reply : InstallSnapshotReply} :
    ReplyOk a rpc (.installSnapshot reply) ↔
      (args.term < reply.term ∨ a.acks args.term rpc.dst args.lastIncludedIndex) := by
  simp [ReplyOk, h]

theorem RpcOk.mono (hI : a.Inv) (hx : State.Extends a a') {rpc : Rpc n C D}
    (h : RpcOk Φ a rpc) : RpcOk Φ a' rpc := by
  cases hargs : rpc.args with
  | requestVote args =>
    rw [rpcOk_requestVote hargs] at h ⊢
    obtain ⟨hc, l, hl, hidx, hterm⟩ := h
    exact ⟨hc, l, hx.cand hl, hidx, hterm⟩
  | appendEntries args =>
    rw [rpcOk_appendEntries hargs] at h ⊢
    obtain ⟨hlead, hlen, hent, hprev, hle, hch⟩ := h
    have hpre : a.tlog args.term <+: a'.tlog args.term :=
      hx.tlog (by rw [hlead]; exact Option.some_ne_none _)
    have hlen' := hpre.length_le
    refine ⟨hx.leader hlead, by omega, ?_, ?_, hle, ?_⟩
    · rw [hent, length_numbered]
      congr 1
      obtain ⟨t, ht⟩ := hpre
      rw [← ht, List.drop_append_of_le_length (by omega),
        List.take_append_of_le_length (by simp only [List.length_take, List.length_drop]; omega)]
      simp only [List.length_take, List.length_drop]
      congr 1
      omega
    · rw [hprev, termAt_of_isPrefix hpre (by omega)]
    · rw [take_of_isPrefix hpre (by omega)]
      exact hch.mono hI hx (Nat.le_refl _)
  | installSnapshot args =>
    rw [rpcOk_installSnapshot hargs] at h ⊢
    obtain ⟨hlead, hlen, hterm, hch, hd⟩ := h
    have hpre : a.tlog args.term <+: a'.tlog args.term :=
      hx.tlog (by rw [hlead]; exact Option.some_ne_none _)
    have hlen' := hpre.length_le
    refine ⟨hx.leader hlead, by omega, ?_, ?_, ?_⟩
    · rw [hterm, termAt_of_isPrefix hpre (by omega)]
    · rw [take_of_isPrefix hpre hlen]
      exact hch.mono hI hx (Nat.le_refl _)
    · rw [take_of_isPrefix hpre hlen]
      exact hd

theorem ReplyOk.mono (hx : State.Extends a a') {rpc : Rpc n C D} {rep : RpcReply}
    (hrpc : RpcOk Φ a rpc) (h : ReplyOk a rpc rep) : ReplyOk a' rpc rep := by
  cases rep with
  | requestVote reply => exact fun args ha hg => hx.grants (h args ha hg)
  | appendEntries reply =>
    intro args ha
    obtain ⟨hs, hf⟩ := h args ha
    rw [rpcOk_appendEntries ha] at hrpc
    have hpre := (hx.tlog (t := args.term)
      (by rw [hrpc.1]; exact Option.some_ne_none _)).length_le
    exact ⟨fun hsucc => hx.acks (hs hsucc), fun hfail => (hf hfail).imp_right (by omega)⟩
  | installSnapshot reply => exact fun args ha => (h args ha).imp_right hx.acks

/-- The member `j` is the same in both states. -/
structure SameAt (a a' : Abs n C) (j : Fin n) : Prop where
  term : a'.term j = a.term j
  vote : a'.vote j = a.vote j
  role : a'.role j = a.role j
  log : a'.log j = a.log j

theorem SameAt.trans {a'' : Abs n C} {j : Fin n} (h : SameAt a a' j) (h' : SameAt a' a'' j) :
    SameAt a a'' j :=
  ⟨h'.term.trans h.term, h'.vote.trans h.vote, h'.role.trans h.role, h'.log.trans h.log⟩

/-- An instance whose member did not act keeps the relation. -/
theorem NodeCore.mono (hI : a.Inv) (hx : State.Extends a a') {i : Fin n} {rf : Raft n C D}
    (hs : SameAt a a' i) (h : NodeCore Φ a i rf) : NodeCore Φ a' i rf where
  me := h.me
  alive := h.alive
  noFault := h.noFault
  term := hs.term.trans h.term
  vote := hs.vote.trans h.vote
  role := hs.role.trans h.role
  repr := hs.log ▸ h.repr
  snapLe := h.snapLe
  commitLe := hs.log ▸ h.commitLe
  chosen := by
    rw [hs.log]
    exact h.chosen.mono hI hx (Nat.le_refl _)
  appliedLe := h.appliedLe
  snapData := hs.log ▸ h.snapData
  peers := by
    intro hl p
    rw [hs.log]
    obtain ⟨hn, hm, hp⟩ := h.peers hl p
    exact ⟨hn, hm, fun hpi => (hp hpi).imp_right fun ⟨m, hle, hack⟩ => ⟨m, hle, hx.acks hack⟩⟩
  msgs := fun msg hmsg => (h.msgs msg hmsg).mono hI hx (Nat.le_refl _)
  follows := h.follows

theorem NodeSim.mono (hI : a.Inv) (hx : State.Extends a a') {i : Fin n} {rf : Raft n C D}
    (hs : SameAt a a' i) (h : NodeSim Φ a i rf) : NodeSim Φ a' i rf :=
  ⟨h.toNodeCore.mono hI hx hs, h.durable⟩

/-! ## Weaker meanings of snapshots -/

variable {Ψ : Log (Option C) → Option D → Prop}

theorem MsgOk.imp (himp : ∀ p d, Φ p d → Ψ p d) {t : Nat} {msg : ApplyMsg C D}
    (h : MsgOk Φ a t msg) : MsgOk Ψ a t msg := by
  cases msg with
  | command c k => exact h
  | snapshot d s k =>
    obtain ⟨p, hp, hk, hs, hd⟩ := h
    exact ⟨p, hp, hk, hs, himp p d hd⟩

theorem RpcOk.imp (himp : ∀ p d, Φ p d → Ψ p d) {rpc : Rpc n C D} (h : RpcOk Φ a rpc) :
    RpcOk Ψ a rpc := by
  cases hargs : rpc.args with
  | requestVote args =>
    rw [rpcOk_requestVote hargs] at h ⊢
    exact h
  | appendEntries args =>
    rw [rpcOk_appendEntries hargs] at h ⊢
    exact h
  | installSnapshot args =>
    rw [rpcOk_installSnapshot hargs] at h ⊢
    exact ⟨h.1, h.2.1, h.2.2.1, h.2.2.2.1, himp _ _ h.2.2.2.2⟩

/-- The relation holds for every weaker meaning of snapshots. -/
theorem Sim.imp (himp : ∀ p d, Φ p d → Ψ p d) {σ : Cluster n C D} (h : Sim Φ σ a) :
    Sim Ψ σ a where
  node i :=
    { h.node i with
      snapData := himp _ _ (h.node i).snapData
      msgs := fun msg hmsg => ((h.node i).msgs msg hmsg).imp himp }
  rpc hr := (h.rpc hr).imp himp
  reply := h.reply
  waiting := h.waiting
  votes := h.votes

end Mono

end KvRaft
