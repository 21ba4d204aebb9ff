import KvRaft.Cluster.Simulation
import KvRaft.Instance.Writes
import KvRaft.Raft.Merge

/-!
# Durable before visible

Whenever the mutex is free, the persister of an instance that was not killed
holds the term, the vote, the log and the base of the log that the memory
holds.  So a message that leaves the instance promises nothing that a crash
could take back, and `Make` on the same persister finds all five fields again.

This is a property of the instance alone: it holds for arbitrary requests and
replies, and also while `ReadSnapshot` fails.
-/

namespace KvRaft

variable {n : Nat} {C D : Type}

/-- The entry at an index of a saved log. -/
def RaftState.entryAt (d : RaftState n C) (index : Nat) : Option (Entry C) :=
  GoSlice.index d.logs ((index : Int) - d.lastIncludedIndex)

/-- The saved log holds an entry of this term at this index. -/
def RaftState.Holds (d : RaftState n C) (index term : Nat) : Prop :=
  ∃ e, d.entryAt index = some e ∧ e.term = term

/-- What a message promises about its sender, in terms of the state that a
restart of the sender would find.

* A vote request is sent by a member that has voted for itself in its term, and
  describes the end of its log.
* A granted vote is the vote of the term, and no other vote can follow it.
* A request with entries, or with a snapshot, shows a part of the log.
* A successful reply to `AppendEntries` stands for the previous entry and all
  entries of the request, and a reply to `InstallSnapshot` for the snapshot. -/
def Output.Promised (d : RaftState n C) : Output n C D → Prop
  | .request (.requestVote args) => d.currentTerm = args.term ∧
      d.votedFor = some args.candidateId ∧
      ∃ e, d.logs.getLast? = some e ∧ e.index = args.lastLogIndex ∧ e.term = args.lastLogTerm
  | .request (.appendEntries args) => d.currentTerm = args.term ∧
      d.Holds args.prevLogIndex args.prevLogTerm ∧
      ∀ k, args.entries[k]? = d.entryAt (args.prevLogIndex + 1 + k)
  | .request (.installSnapshot args) => d.currentTerm = args.term ∧
      d.lastIncludedIndex = args.lastIncludedIndex ∧ d.lastIncludedTerm = args.lastIncludedTerm
  | .reply (.requestVote args) (.requestVote r) => r.voteGranted = true →
      d.currentTerm = args.term ∧ d.votedFor = some args.candidateId
  | .reply (.appendEntries args) (.appendEntries r) => r.success = true →
      d.currentTerm = args.term ∧ (Consecutive args.prevLogIndex args.entries →
        d.Holds args.prevLogIndex args.prevLogTerm ∧
        ∀ k e, args.entries[k]? = some e → d.Holds (args.prevLogIndex + 1 + k) e.term)
  | .reply (.installSnapshot args) (.installSnapshot r) => r.term ≤ args.term →
      d.currentTerm = args.term ∧ args.lastIncludedIndex ≤ d.lastIncludedIndex
  | .reply _ _ => True

/-- Every state of a run, and every message that leaves it. -/
structure DurableBeforeVisible {me : Fin n} {persister : Persister n C D}
    (run : InstanceRun me persister) : Prop where
  /-- The disk holds the five fields of the memory. -/
  durable : ∀ t, (run.state t).raft.dead = false →
    (run.state t).raft.persister.recover = (run.state t).raft.encodeState
  /-- A message leaves when what it promises is on the disk. -/
  promised : ∀ t fault input rf out,
    ((run.state t).raft.failRead fault).react input = some (rf, out) → rf.dead = false →
      ∀ o ∈ out, o.Promised rf.persister.recover
  /-- A crash and `Make` on the same disk lose none of the fields. -/
  recovered : ∀ t, (run.state t).raft.dead = false →
    (Raft.make me (run.state t).raft.persister).encodeState = (run.state t).raft.encodeState

/-! ## The disk follows the memory -/

namespace Raft

variable {rf rf' : Raft n C D}

/-- Unless the instance was killed, its memory is on its disk. -/
def Synced (rf : Raft n C D) : Prop := rf.dead = false → rf.Durable

theorem Writes.synced {stored : Option (Nat × Option D)} (h : Writes rf stored rf')
    (hs : rf.Synced) : rf'.Synced := by
  intro hdead
  rw [h.frame.dead] at hdead
  cases h with
  | keep _ hp hstate =>
    rw [Durable, hp, hstate]
    exact hs hdead
  | persist _ _ hp =>
    rw [Durable, hp, hdead]
    rfl
  | save _ _ _ _ _ hp =>
    rw [Durable, hp]
    rfl

theorem Reacts.synced {second : Option (Option D)} {stored : Option (Nat × Option D)}
    (h : Reacts rf second stored rf') (hs : rf.Synced) : rf'.Synced := by
  cases h with
  | writes h => exact h.synced hs
  | election rf₁ h₁ h₂ =>
    have hs₁ : (rf₁.failRead second).Synced := h₁.synced hs
    exact h₂.synced hs₁
  | take h =>
    rw [applierTake_eq h]
    exact hs
  | send =>
    rw [applierSend_eq]
    exact hs
  | kill => exact nofun

theorem make_synced (me : Fin n) (persister : Persister n C D) :
    (make me persister).Synced := by
  intro _
  rw [make_eq]
  rfl

/-! ## What leaves -/

theorem getLog_encodeState (rf : Raft n C D) (index : Nat) :
    rf.encodeState.entryAt index = rf.getLog index := rfl

theorem startElection_promised {args : RequestVoteArgs n} {votes : Nat}
    (h : rf.startElection = some (rf', args, votes)) :
    (Output.request (C := C) (D := D) (.requestVote args)).Promised rf'.encodeState := by
  obtain ⟨heq, hargs⟩ := startElection_inv h
  have hstate : rf'.encodeState = { rf.encodeState with votedFor := some rf.me } := by
    rw [heq]
    exact encodeState_persist _
  have hme : rf'.me = rf.me := (startElection_writes h).frame.me
  obtain ⟨last, hlast, hargs⟩ := Option.bind_eq_some_iff.mp hargs
  cases hargs
  refine ⟨rfl, ?_, last, (getLastLog_eq rf').symm.trans hlast, rfl, rfl⟩
  rw [hstate, hme]

/-- What `replicateToPeer` sends is a part of the log. -/
theorem replicateToPeer_promised {peer : Fin n} {args : RpcArgs n C D}
    (h : rf.replicateToPeer peer = some (some args)) :
    (Output.request args).Promised rf.encodeState := by
  obtain ⟨_, ⟨_, rfl⟩ | ⟨_, args', hargs, rfl⟩⟩ := replicateToPeer_inv h
  · exact ⟨rfl, rfl, rfl⟩
  · obtain ⟨entries, hentries, h⟩ := Option.bind_eq_some_iff.mp hargs
    obtain ⟨prev, hprev, h⟩ := Option.bind_eq_some_iff.mp h
    cases h
    refine ⟨rfl, ⟨prev, hprev, rfl⟩, fun k => ?_⟩
    rw [GoSlice.getElem?_of_dropFrom hentries, getLog_encodeState, getLog, getPhysicalIndex,
      getPhysicalIndex]
    congr 1
    push_cast
    omega

theorem requestVote_promised {args : RequestVoteArgs n} {reply : RequestVoteReply}
    (h : rf.requestVote args = some (rf', reply)) :
    (Output.reply (C := C) (D := D) (.requestVote args) (.requestVote reply)).Promised
      rf'.encodeState := by
  intro hgranted
  obtain ⟨_, _, hno⟩ | ⟨_, state, vote, rfl, _, hvote⟩ := requestVote_inv h
  · rw [hgranted] at hno
    cases hno
  · rw [encodeState_persist]
    exact ⟨rfl, hvote hgranted⟩

theorem appendEntries_promised {args : AppendEntriesArgs n C} {reply : AppendEntriesReply}
    (h : rf.appendEntries args = some (rf', reply)) :
    (Output.reply (D := D) (.appendEntries args) (.appendEntries reply)).Promised
      rf'.encodeState := by
  intro hsuccess
  obtain ⟨_, _, rfl⟩ | ⟨_, ⟨_, _, _, _, rfl⟩ | ⟨rf₁, hcheck, happend, rfl, rfl⟩⟩ :=
    appendEntries_inv h
  · cases hsuccess
  · cases hsuccess
  obtain ⟨hsnap, hlen, e, he, hterm⟩ := handleConsistencyConflict_none hcheck
  have heq := appendNewEntries_eq happend
  rw [encodeState_persist, advanceCommitIndex_eq]
  refine ⟨by rw [heq]; rfl, fun hcons => ?_⟩
  obtain ⟨hbelow, habove⟩ := appendNewEntries_getLog hcons hsnap hlen happend
  refine ⟨⟨e, (hbelow _ hsnap (Nat.le_refl _)).trans he, hterm⟩, fun k e' he' => ?_⟩
  obtain ⟨e'', he'', hterm'', _⟩ := habove k e' he'
  exact ⟨e'', he'', hterm''⟩

theorem installSnapshot_promised {args : InstallSnapshotArgs n D} {reply : InstallSnapshotReply}
    (h : rf.installSnapshot args = some (rf', reply)) :
    (Output.reply (C := C) (.installSnapshot args) (.installSnapshot reply)).Promised
      rf'.encodeState := by
  intro hterm
  obtain ⟨rfl, ⟨hold, _⟩ | ⟨hnew, ⟨hle, rfl⟩ | ⟨_, rf₁, htrunc, rfl⟩⟩⟩ := installSnapshot_inv h
  · exact absurd hold (Nat.not_lt_of_le hterm)
  · exact ⟨heed_currentTerm rf hnew args.leaderId,
      hle.trans (Nat.le_of_eq (heed_lastIncludedIndex rf args.term args.leaderId).symm)⟩
  · refine ⟨?_, Nat.le_refl _⟩
    rw [truncateLogWithSnapshot_eq htrunc]
    exact heed_currentTerm rf hnew args.leaderId

/-- Whatever leaves, the memory keeps its promise. -/
theorem Emits.promised {o : Output n C D} (h : Emits rf rf' o) : o.Promised rf'.encodeState := by
  cases h with
  | election rf₁ args votes h => exact startElection_promised h
  | replicate peer args h => exact replicateToPeer_promised h
  | reply args reply h =>
    cases args with
    | requestVote args =>
      obtain ⟨⟨_, r⟩, hr, h⟩ := Option.bind_eq_some_iff.mp h
      cases h
      exact requestVote_promised hr
    | appendEntries args =>
      obtain ⟨⟨_, r⟩, hr, h⟩ := Option.bind_eq_some_iff.mp h
      cases h
      exact appendEntries_promised hr
    | installSnapshot args =>
      obtain ⟨⟨_, r⟩, hr, h⟩ := Option.bind_eq_some_iff.mp h
      cases h
      exact installSnapshot_promised hr

end Raft

/-- An instance keeps its durable fields on its disk, and promises nothing else. -/
theorem instance_durableBeforeVisible {me : Fin n} {persister : Persister n C D}
    (run : InstanceRun me persister) : DurableBeforeVisible run := by
  have hsynced : ∀ t, (run.state t).raft.Synced := by
    refine run.invariant (P := fun σ => σ.raft.Synced) (Raft.make_synced me persister) ?_
    rintro σ σ' hs ⟨⟨fault, input⟩, h⟩
    obtain ⟨⟨rf', out⟩, hreact, h⟩ := Option.bind_eq_some_iff.mp h
    cases h
    have hs' : (σ.raft.failRead fault).Synced := hs
    exact (Raft.react_reacts hreact).synced hs'
  refine ⟨fun t => hsynced t, fun t fault input rf out h hdead o ho => ?_, fun t hdead => ?_⟩
  · have hs : ((run.state t).raft.failRead fault).Synced := hsynced t
    rw [show rf.persister.recover = rf.encodeState from (Raft.react_reacts h).synced hs hdead]
    exact (Raft.react_emits h ho).promised
  · rw [← show _ = (run.state t).raft.encodeState from hsynced t hdead, Raft.make_eq]
    rfl

end KvRaft
