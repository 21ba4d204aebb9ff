import KvRaft.Cluster.Acts
import KvRaft.Cluster.Simulation

/-!
# What the service above has seen

`Raft.feed` is the index that an instance recovered at its start and every
message that its applier has sent since.  Only the applier and a restart change
it: `Cluster.exec_feed` says so for every event, from one lemma for each
function of the instance.

`Raft.position` is the index up to which the service has been fed.
-/

namespace KvRaft

variable {n : Nat} {C D : Type} {rf rf' : Raft n C D}

namespace Raft

/-- What the service above was given: the index that the instance recovered,
and every message since. -/
def feed (rf : Raft n C D) : Nat × List (ApplyMsg C D) := (rf.recovered, rf.applyCh)

@[simp] theorem feed_persist (rf : Raft n C D) : rf.persist.feed = rf.feed := by
  rw [persist]
  split_ifs <;> rfl

@[simp] theorem feed_start (rf : Raft n C D) (command : Option C) :
    (rf.start command).1.feed = rf.feed := by
  rw [start]
  split_ifs
  · rfl
  · exact feed_persist _

@[simp] theorem feed_handleHigherTerm (rf : Raft n C D) (term : Nat) :
    (rf.handleHigherTerm term).1.feed = rf.feed := by
  rw [handleHigherTerm]
  split_ifs
  · exact feed_persist _
  · rfl

theorem feed_becomeCandidate {args : RequestVoteArgs n} {votes : Nat}
    (h : rf.becomeCandidate = some (rf', args, votes)) : rf'.feed = rf.feed := by
  rw [(startElection_inv h).1]
  exact (feed_persist _).trans (feed_persist _)

theorem feed_requestVoteFromPeer {args : RequestVoteArgs n} {votes : Nat}
    {reply : RequestVoteReply} (h : rf.requestVoteFromPeer args votes reply = some rf') :
    rf'.feed = rf.feed := by
  rcases requestVoteFromPeer_inv h with heq | ⟨granted, heq | ⟨_, hwon⟩⟩
  · rw [heq, feed_handleHigherTerm]
  · rw [heq]
    rfl
  · obtain ⟨last, _, rfl⟩ := becomeLeader_inv hwon
    rfl

theorem feed_snapshot {index : Nat} {data : Option D} (h : rf.snapshot index data = some rf') :
    rf'.feed = rf.feed := by
  obtain ⟨_, rfl⟩ | ⟨_, logs, term, _, rfl⟩ := snapshot_inv h
  · rfl
  · rfl

theorem feed_applierTake (h : rf.applierTake = some rf') : rf'.feed = rf.feed := by
  rw [applierTake_eq h]
  rfl

theorem feed_heed (rf : Raft n C D) (term : Nat) (leader : Fin n) :
    (rf.heed term leader).feed = rf.feed := by
  unfold heed installSnapshotTerm
  split_ifs
  · exact feed_persist _
  · rfl

theorem feed_installSnapshot {args : InstallSnapshotArgs n D} {reply : InstallSnapshotReply}
    (h : rf.installSnapshot args = some (rf', reply)) : rf'.feed = rf.feed := by
  obtain ⟨_, ⟨_, rfl⟩ | ⟨_, ⟨_, rfl⟩ | ⟨_, rf₁, htrunc, rfl⟩⟩⟩ := installSnapshot_inv h
  · rfl
  · exact feed_heed ..
  · rw [truncateLogWithSnapshot_eq htrunc]
    exact feed_heed rf args.term args.leaderId

theorem feed_appendEntries {args : AppendEntriesArgs n C} {reply : AppendEntriesReply}
    (h : rf.appendEntries args = some (rf', reply)) : rf'.feed = rf.feed := by
  obtain ⟨_, rfl, _⟩ | ⟨_, ⟨_, _, _, rfl, _⟩ | ⟨rf₁, _, happ, rfl, _⟩⟩ := appendEntries_inv h
  · rfl
  · exact feed_persist _
  · rw [feed_persist, advanceCommitIndex_eq, appendNewEntries_eq happ]
    rfl

theorem feed_requestVote {args : RequestVoteArgs n} {reply : RequestVoteReply}
    (h : rf.requestVote args = some (rf', reply)) : rf'.feed = rf.feed := by
  obtain ⟨_, rfl, _⟩ | ⟨_, _, _, rfl, _⟩ := requestVote_inv h
  · rfl
  · exact feed_persist _

theorem feed_handleAppendEntriesReply {peer : Fin n} {args : AppendEntriesArgs n C}
    {reply : AppendEntriesReply}
    (h : rf.handleAppendEntriesReply peer args reply = some rf') : rf'.feed = rf.feed := by
  rcases handleAppendEntriesReply_eq h with heq | heq
  · rw [heq, feed_handleHigherTerm]
  · rw [heq]
    rfl

theorem feed_handleInstallSnapshotReply (rf : Raft n C D) (peer : Fin n)
    (args : InstallSnapshotArgs n D) (reply : InstallSnapshotReply) :
    (rf.handleInstallSnapshotReply peer args reply).feed = rf.feed := by
  rcases handleInstallSnapshotReply_inv rf peer args reply with heq | ⟨_, heq⟩
  · rw [heq, feed_handleHigherTerm]
  · rw [heq]
    rfl

end Raft

namespace Cluster

variable {σ σ' : Cluster n C D}

theorem feed_handleRequest {args : RpcArgs n C D} {reply : RpcReply}
    (h : handleRequest rf args = some (rf', reply)) : rf'.feed = rf.feed := by
  obtain ⟨_, _, _, _, h⟩ | ⟨_, _, _, _, h⟩ | ⟨_, _, _, _, h⟩ := handleRequest_inv h
  · exact Raft.feed_requestVote h
  · exact Raft.feed_appendEntries h
  · exact Raft.feed_installSnapshot h

theorem feed_handleReply {rpc : Rpc n C D} {reply : RpcReply}
    (h : handleReply rf rpc reply = some rf') : rf'.feed = rf.feed := by
  obtain rfl | ⟨_, _, _, _, h⟩ | ⟨_, _, _, _, h⟩ | ⟨_, _, _, _, rfl⟩ := handleReply_inv h
  · rfl
  · exact Raft.feed_requestVoteFromPeer h
  · exact Raft.feed_handleAppendEntriesReply h
  · exact Raft.feed_handleInstallSnapshotReply ..

/-- Only the applier and a restart change what the service has seen. -/
theorem exec_feed {e : Event n C D} (h : σ.exec e = some σ') {j : Fin n}
    (hboot : σ.rebooted e ≠ some j) (hsend : e ≠ .applierSend j) :
    (σ'.nodes j).feed = (σ.nodes j).feed := by
  have hacts := exec_acts h j
  generalize σ'.nodes j = rf' at hacts ⊢
  cases hacts with
  | idle => rfl
  | elect h => exact Raft.feed_becomeCandidate h
  | start => exact Raft.feed_start _ _
  | request _ h => exact feed_handleRequest h
  | reply _ h => exact feed_handleReply h
  | snapshot h => exact Raft.feed_snapshot h
  | take h => exact Raft.feed_applierTake h
  | send => exact absurd rfl hsend
  | boot h => exact absurd h hboot

/-- A restarted instance is the one that `Make` returns. -/
theorem exec_rebooted {e : Event n C D} (he : σ.Enabled e) (h : σ.exec e = some σ') {j : Fin n}
    (hboot : σ.rebooted e = some j) : ∃ ps, σ'.nodes j = .make j ps := by
  cases e with
  | crashInBecomeCandidate i =>
    cases hboot
    cases h
    exact ⟨_, Function.update_self ..⟩
  | crashInInstallSnapshot r =>
    obtain ⟨⟨src, dst, rargs, votes⟩, hrpc, args, rfl, _⟩ := he
    rw [rebooted, Option.mem_def.mp hrpc] at hboot
    cases hboot
    rw [exec, Option.mem_def.mp hrpc] at h
    cases h
    exact ⟨_, Function.update_self ..⟩
  | restart i =>
    cases hboot
    cases h
    exact ⟨_, Function.update_self ..⟩
  | _ => cases hboot

end Cluster

/-! ## The position -/

/-- The index that a message brings the service to. -/
def ApplyMsg.index : ApplyMsg C D → Nat
  | .command _ k => k
  | .snapshot _ _ k => k

/-- The index of the last message, or the recovered one when there was none. -/
def Raft.position (rf : Raft n C D) : Nat :=
  (rf.feed.2.getLast?.map ApplyMsg.index).getD rf.feed.1

theorem Raft.position_of_feed (h : rf'.feed = rf.feed) : rf'.position = rf.position := by
  rw [position, position, h]

theorem Raft.position_of_applyCh {msgs : List (ApplyMsg C D)} {msg : ApplyMsg C D}
    (h : rf.applyCh = msgs ++ [msg]) : rf.position = msg.index := by
  simp only [position, feed, h, List.getLast?_concat, Option.map_some, Option.getD_some]

/-- A new instance has fed nothing beyond what it recovered. -/
theorem Raft.position_make (me : Fin n) (ps : Persister n C D) :
    (Raft.make me ps).position = (Raft.make me ps).lastIncludedIndex := by
  rw [Raft.make_eq]
  rfl

theorem follows_getLast {p q : Nat} {xs : List (ApplyMsg C D)} (h : Follows p xs q) :
    (xs.getLast?.map ApplyMsg.index).getD p = q := by
  induction xs generalizing p with
  | nil => exact h
  | cons x xs ih =>
    have hrest : Follows x.index xs q := by
      cases x with
      | command c k => exact h.2
      | snapshot d t k => exact h.2
    rw [← ih hrest, List.getLast?_cons]
    cases xs.getLast? <;> rfl

/-- The position splits the messages into those sent and those to be sent. -/
theorem NodeCore.follows_position {Φ : Consensus.Log (Option C) → Option D → Prop}
    {a : Abs n C} {i : Fin n} (h : NodeCore Φ a i rf) :
    Follows rf.recovered rf.applyCh rf.position ∧
      Follows rf.position rf.applying rf.lastApplied := by
  obtain ⟨p, hsent, hrest⟩ := follows_append.mp h.follows
  have hpos : rf.position = p := follows_getLast hsent
  exact hpos ▸ ⟨hsent, hrest⟩

end KvRaft
