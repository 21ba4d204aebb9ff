import KvRaft.Cluster.Acts
import KvRaft.Cluster.Safety

/-!
# The leader commits what it can

`updateCommitIndex` runs only when a peer has accepted entries, but a leader's
`matchIndex` changes in three places and its log in two.  Nothing is missed: in
every state of every run the commit index of a leader is the greatest index
that the commit rule allows, or the one it had before.

The reasons are different for each place.  A new leader counts on nobody above
its snapshot, `Start` appends above everybody's `matchIndex`, and the snapshot
that a peer has taken over was committed when the leader sent it
(`SentCommitted`).  A node alone would commit what it appends, but it never leads
(`ClusterRun.two_le_of_leader`).
-/

namespace KvRaft

open Consensus

variable {n : Nat} {C D : Type} {rf rf' : Raft n C D}

namespace Raft

/-- The test of `updateCommitIndex` at index `k`. -/
def CommitRule (rf : Raft n C D) (k : Nat) : Prop :=
  (∃ e, rf.getLog k = some e ∧ e.term = rf.currentTerm) ∧ rf.countNodesWithLogAt k > n / 2

/-- No index above the commit index can be committed. -/
def Prompt (rf : Raft n C D) : Prop :=
  ∀ k, rf.commitIndex < k → k < rf.getLen → ¬ rf.CommitRule k

/-- What a step leaves behind when its result is a leader. -/
structure LeaderStep (rf rf' : Raft n C D) : Prop where
  term : rf'.currentTerm = rf.currentTerm
  role : rf.state = .leader ∨ rf.state = .candidate
  prompt : rf'.Prompt
  raised : rf'.commitIndex = rf.commitIndex ∨ rf.commitIndex < rf'.commitIndex ∧
    rf'.commitIndex < rf'.getLen ∧ rf'.CommitRule rf'.commitIndex

theorem LeaderStep.commitIndex_le (h : LeaderStep rf rf') : rf.commitIndex ≤ rf'.commitIndex := by
  rcases h.raised with heq | ⟨hlt, _⟩
  · exact Nat.le_of_eq heq.symm
  · exact Nat.le_of_lt hlt

theorem LeaderStep.persist (h : LeaderStep rf rf') : LeaderStep rf rf'.persist := by
  rw [persist_keeps]
  exact ⟨h.term, h.role, h.prompt, h.raised⟩

/-! ## Counting -/

/-- A leader that counts on nobody counts itself. -/
theorem countNodesWithLogAt_eq_one {k : Nat} (h : ∀ i, i ≠ rf.me → rf.matchIndex i < k) :
    rf.countNodesWithLogAt k = 1 := by
  rw [countNodesWithLogAt, Finset.filter_eq_empty_iff.mpr, Finset.card_empty]
  rintro i _ ⟨hi, hle⟩
  exact absurd (h i hi) (Nat.not_lt_of_le hle)

theorem not_commitRule_of_alone (hn : 2 ≤ n) {k : Nat}
    (h : ∀ i, i ≠ rf.me → rf.matchIndex i < k) : ¬ rf.CommitRule k := by
  rintro ⟨_, hcount⟩
  rw [countNodesWithLogAt_eq_one h] at hcount
  omega

/-- A step that changes neither the commit index nor what lies above it, and
that counts on no more peers there, leaves nothing to commit. -/
theorem Prompt.of_le (h : rf.Prompt) (hcommit : rf'.commitIndex = rf.commitIndex)
    (hterm : rf'.currentTerm = rf.currentTerm) (hlen : rf'.getLen = rf.getLen)
    (hlog : ∀ k, rf.commitIndex < k → rf'.getLog k = rf.getLog k) (hme : rf'.me = rf.me)
    (hmatch : ∀ k i, rf.commitIndex < k → k ≤ rf'.matchIndex i → k ≤ rf.matchIndex i) :
    rf'.Prompt := by
  intro k hk hlt ⟨⟨e, he, heterm⟩, hcount⟩
  rw [hcommit] at hk
  refine h k hk (hlen ▸ hlt) ⟨⟨e, hlog k hk ▸ he, hterm ▸ heterm⟩, Nat.lt_of_lt_of_le hcount ?_⟩
  refine Nat.add_le_add_left (Finset.card_le_card ?_) 1
  intro i hi
  rw [Finset.mem_filter, hme] at hi
  rw [Finset.mem_filter]
  exact ⟨hi.1, hi.2.1, hmatch k i hk hi.2.2⟩

/-- The loop of `updateCommitIndex` finds the greatest index that satisfies the
rule. -/
theorem updateCommitScan_inv {i : Nat} (h : rf.updateCommitScan i = some rf') :
    (rf' = rf ∧ ∀ k, rf.commitIndex < k → k ≤ i → ¬ rf.CommitRule k) ∨
      ∃ m, rf.commitIndex < m ∧ m ≤ i ∧ rf.CommitRule m ∧
        (∀ k, m < k → k ≤ i → ¬ rf.CommitRule k) ∧ rf' = { rf with commitIndex := m } := by
  induction i with
  | zero =>
    cases h
    exact Or.inl ⟨rfl, fun k _ _ => by omega⟩
  | succ i ih =>
    unfold updateCommitScan at h
    by_cases hlt : rf.commitIndex < i + 1
    · rw [if_pos hlt] at h
      obtain ⟨e, he, h⟩ := Option.bind_eq_some_iff.mp h
      by_cases hrule : e.term = rf.currentTerm ∧ rf.countNodesWithLogAt (i + 1) > n / 2
      · rw [if_pos hrule] at h
        cases h
        exact Or.inr ⟨i + 1, hlt, Nat.le_refl _, ⟨⟨e, he, hrule.1⟩, hrule.2⟩,
          fun k _ _ => by omega, rfl⟩
      · rw [if_neg hrule] at h
        have hnot : ¬ rf.CommitRule (i + 1) := by
          rintro ⟨⟨e', he', hterm⟩, hcount⟩
          cases he.symm.trans he'
          exact hrule ⟨hterm, hcount⟩
        -- What fails at `i + 1` and below `i` fails up to `i + 1`.
        have hext : ∀ {m}, (∀ k, m < k → k ≤ i → ¬ rf.CommitRule k) →
            ∀ k, m < k → k ≤ i + 1 → ¬ rf.CommitRule k := by
          intro m hm k hmk hk
          rcases Nat.lt_or_ge i k with hik | hik
          · rw [show k = i + 1 by omega]
            exact hnot
          · exact hm k hmk hik
        rcases ih h with ⟨heq, hnone⟩ | ⟨m, hm, hle, hrule, hnone, heq⟩
        · exact Or.inl ⟨heq, hext hnone⟩
        · exact Or.inr ⟨m, hm, Nat.le_succ_of_le hle, hrule, hext hnone, heq⟩
    · rw [if_neg hlt] at h
      cases h
      exact Or.inl ⟨rfl, fun k _ _ => by omega⟩

/-! ## The functions that leave a leader -/

/-- Nothing that the commit rule looks at has changed. -/
theorem leaderStep_of_same (hprompt : rf.state = .leader → rf.Prompt) (hl : rf'.state = .leader)
    (h : rf' = { rf with
      persister := rf'.persister
      votedFor := rf'.votedFor
      lastApplied := rf'.lastApplied
      nextIndex := rf'.nextIndex
      grantedVotes := rf'.grantedVotes
      applying := rf'.applying
      applyCh := rf'.applyCh }) : LeaderStep rf rf' := by
  have hl' : rf.state = .leader := by
    rw [h] at hl
    exact hl
  refine ⟨by rw [h], Or.inl hl', ?_, Or.inl (by rw [h])⟩
  rw [h]
  exact hprompt hl'

theorem leaderStep_start (hn : 2 ≤ n) (hok : LogOk rf) (hprompt : rf.state = .leader → rf.Prompt)
    (command : Option C) (hl : (rf.start command).1.state = .leader) :
    LeaderStep rf (rf.start command).1 := by
  rcases start_inv rf command with ⟨hl', heq⟩ | ⟨hl', heq⟩
  · rw [heq] at hl
    exact absurd hl hl'
  · rw [heq]
    refine LeaderStep.persist ⟨rfl, Or.inl hl', fun k hk hlt => ?_, Or.inl rfl⟩
    rcases Nat.lt_or_ge k rf.getLen with hlen | hlen
    · -- An entry that was there before.
      have hsnap := Nat.le_of_lt (Nat.lt_of_le_of_lt hok.snapshot hk)
      rintro ⟨⟨e, he, hterm⟩, hcount⟩
      refine hprompt hl' k hk hlen ⟨⟨e, ?_, hterm⟩, hcount⟩
      rw [getLog_eq_getElem? _ (by exact hsnap), List.getElem?_append_left] at he
      · rw [getLog_eq_getElem? rf hsnap]
        exact he
      · unfold getLen at hlen
        simp only
        omega
    · -- The new entry is above every `matchIndex`.
      refine not_commitRule_of_alone hn fun i _ => ?_
      have hmatch := (hok.peers hl' i).2
      have hpos : 0 < rf.getLen := by
        have := List.length_pos_iff.mpr hok.nonempty
        unfold getLen
        omega
      show rf.matchIndex i < k
      omega

theorem leaderStep_becomeLeader (hn : 2 ≤ n) (hok : LogOk rf) (hcand : rf.state = .candidate)
    {granted : List Nat}
    (h : { rf with grantedVotes := granted }.becomeLeader = some rf') : LeaderStep rf rf' := by
  obtain ⟨last, _, rfl⟩ := becomeLeader_inv h
  refine ⟨rfl, Or.inr hcand, fun k hk _ => not_commitRule_of_alone hn fun i hi => ?_, Or.inl rfl⟩
  show Function.update (fun _ => rf.lastIncludedIndex) rf.me last.index i < k
  rw [Function.update_of_ne hi]
  exact Nat.lt_of_le_of_lt hok.snapshot hk

theorem leaderStep_snapshot (hok : LogOk rf) (hprompt : rf.state = .leader → rf.Prompt)
    {index : Nat} {data : Option D} (h : rf.snapshot index data = some rf')
    (hl : rf'.state = .leader) : LeaderStep rf rf' := by
  obtain ⟨_, rfl⟩ | ⟨haccept, logs, term, hlogs, rfl⟩ := snapshot_inv h
  · exact leaderStep_of_same hprompt hl rfl
  · obtain ⟨hlow, hhigh⟩ := not_or.mp haccept
    have hcommit := hok.commit
    have hlen : index - rf.lastIncludedIndex ≤ rf.logs.length := by
      rw [getLen] at hcommit
      omega
    rw [GoSlice.dropFrom_eq_some _ (k := index - rf.lastIncludedIndex)
      (by rw [getPhysicalIndex]; omega) hlen] at hlogs
    cases hlogs
    refine ⟨rfl, Or.inl hl, ?_, Or.inl rfl⟩
    refine (hprompt hl).of_le rfl rfl ?_ (fun k hk => ?_) rfl fun k i _ hle => hle
    · simp only [getLen, List.length_drop]
      omega
    · rw [getLog_eq_getElem? rf (by omega), getLog_eq_getElem? _ (by simp only; omega),
        List.getElem?_drop]
      congr 1
      simp only
      omega

theorem leaderStep_handleHigherTerm (hprompt : rf.state = .leader → rf.Prompt) {term : Nat}
    (hl : (rf.handleHigherTerm term).1.state = .leader) :
    LeaderStep rf (rf.handleHigherTerm term).1 := by
  rcases handleHigherTerm_inv rf term with ⟨_, heq⟩ | ⟨_, heq⟩
  · rw [heq] at hl ⊢
    exact leaderStep_of_same hprompt hl rfl
  · rw [heq, persist_keeps] at hl
    cases hl

theorem leaderStep_requestVoteFromPeer (hn : 2 ≤ n) (hok : LogOk rf)
    (hprompt : rf.state = .leader → rf.Prompt) {args : RequestVoteArgs n} {votes : Nat}
    {reply : RequestVoteReply} (h : rf.requestVoteFromPeer args votes reply = some rf')
    (hl : rf'.state = .leader) : LeaderStep rf rf' := by
  rcases requestVoteFromPeer_inv h with heq | ⟨granted, heq | ⟨hcand, hwon⟩⟩
  · rw [heq] at hl ⊢
    exact leaderStep_handleHigherTerm hprompt hl
  · refine leaderStep_of_same hprompt hl ?_
    rw [heq]
  · exact leaderStep_becomeLeader hn hok hcand hwon

/-- The counted peer may complete a majority, and then the scan finds the
greatest index that has one. -/
theorem leaderStep_updateCommitIndex (hl : rf.state = .leader) {peer : Fin n}
    {args : AppendEntriesArgs n C}
    (h : (rf.advancePeerIndices peer args).updateCommitIndex = some rf') : LeaderStep rf rf' := by
  have hadv := advancePeerIndices_eq rf peer args
  have hlen : ∀ k, k < (rf.advancePeerIndices peer args).getLen →
      k ≤ (rf.advancePeerIndices peer args).getLen - 1 := fun k hk => by omega
  rcases updateCommitScan_inv h with ⟨rfl, hnone⟩ | ⟨m, hm, hle, hrule, hnone, rfl⟩
  · refine ⟨by rw [hadv], Or.inl hl, fun k hk hlt => hnone k hk (hlen k hlt), Or.inl ?_⟩
    rw [hadv]
  · rw [hadv] at hm
    refine ⟨by rw [hadv], Or.inl hl, fun k hk hlt => hnone k hk (hlen k hlt),
      Or.inr ⟨hm, ?_, hrule⟩⟩
    show m < (rf.advancePeerIndices peer args).getLen
    omega

theorem leaderStep_handleAppendEntriesReply (hprompt : rf.state = .leader → rf.Prompt)
    {peer : Fin n} {args : AppendEntriesArgs n C} {reply : AppendEntriesReply}
    (h : rf.handleAppendEntriesReply peer args reply = some rf') (hl : rf'.state = .leader) :
    LeaderStep rf rf' := by
  rcases handleAppendEntriesReply_inv h with heq | ⟨⟨hlead, _⟩, ⟨_, hback⟩ | ⟨_, hcount⟩⟩
  · rw [heq] at hl ⊢
    exact leaderStep_handleHigherTerm hprompt hl
  · refine leaderStep_of_same hprompt hl ?_
    rw [resolveConflict_eq hback]
  · exact leaderStep_updateCommitIndex hlead hcount

/-- A peer that has taken over a committed snapshot counts for nothing above
the commit index. -/
theorem leaderStep_handleInstallSnapshotReply (hprompt : rf.state = .leader → rf.Prompt)
    {peer : Fin n} {args : InstallSnapshotArgs n D} {reply : InstallSnapshotReply}
    (hsent : rf.state = .leader → rf.currentTerm = args.term →
      args.lastIncludedIndex ≤ rf.commitIndex)
    (hl : (rf.handleInstallSnapshotReply peer args reply).state = .leader) :
    LeaderStep rf (rf.handleInstallSnapshotReply peer args reply) := by
  rcases handleInstallSnapshotReply_inv rf peer args reply with heq | ⟨⟨hlead, hterm⟩, heq⟩
  · rw [heq] at hl ⊢
    exact leaderStep_handleHigherTerm hprompt hl
  · rw [heq]
    refine ⟨rfl, Or.inl hlead, ?_, Or.inl rfl⟩
    refine (hprompt hlead).of_le rfl rfl rfl (fun _ _ => rfl) rfl fun k i hk hle => ?_
    simp only at hle
    split_ifs at hle
    · by_cases hi : i = peer
      · subst hi
        rw [Function.update_self] at hle
        have := hsent hlead hterm
        omega
      · rwa [Function.update_of_ne hi] at hle
    · exact hle

theorem leaderStep_requestVote (hprompt : rf.state = .leader → rf.Prompt) {args : RequestVoteArgs n}
    {reply : RequestVoteReply} (h : rf.requestVote args = some (rf', reply))
    (hl : rf'.state = .leader) : LeaderStep rf rf' := by
  obtain ⟨_, rfl, _⟩ | ⟨_, state, vote, rfl, hstate, _⟩ := requestVote_inv h
  · exact leaderStep_of_same hprompt hl rfl
  · rw [persist_keeps] at hl
    rcases hstate with rfl | ⟨rfl, hterm⟩
    · cases hl
    · refine leaderStep_of_same hprompt (by rw [persist_keeps]; exact hl) ?_
      rw [persist_keeps, hterm]

theorem appendEntries_state {args : AppendEntriesArgs n C} {reply : AppendEntriesReply}
    (h : rf.appendEntries args = some (rf', reply)) : rf' = rf ∨ rf'.state = .follower := by
  obtain ⟨_, rfl, _⟩ | ⟨_, ⟨_, _, _, rfl, _⟩ | ⟨rf₁, _, happ, rfl, _⟩⟩ := appendEntries_inv h
  · exact Or.inl rfl
  · rw [persist_keeps]
    exact Or.inr rfl
  · rw [persist_keeps, advanceCommitIndex_eq, appendNewEntries_eq happ]
    exact Or.inr rfl

theorem installSnapshot_state {args : InstallSnapshotArgs n D} {reply : InstallSnapshotReply}
    (h : rf.installSnapshot args = some (rf', reply)) : rf' = rf ∨ rf'.state = .follower := by
  obtain ⟨_, ⟨_, rfl⟩ | ⟨_, ⟨_, rfl⟩ | ⟨_, rf₁, htrunc, rfl⟩⟩⟩ := installSnapshot_inv h
  · exact Or.inl rfl
  · exact Or.inr rfl
  · rw [truncateLogWithSnapshot_eq htrunc]
    exact Or.inr rfl

theorem becomeCandidate_state {args : RequestVoteArgs n} {votes : Nat}
    (h : rf.becomeCandidate = some (rf', args, votes)) : rf'.state = .candidate := by
  rw [(startElection_inv h).1, persist_keeps, becomeCandidateTerm, persist_keeps]

end Raft

/-! ## The cluster -/

namespace Cluster

variable {σ σ' : Cluster n C D}

/-- While a leader leads, the snapshots that it has sent are below its commit
index. -/
def SentCommitted (σ : Cluster n C D) : Prop :=
  ∀ (r : Nat) rpc args, σ.rpcs[r]? = some rpc → rpc.args = .installSnapshot args →
    (σ.nodes rpc.src).state = .leader → (σ.nodes rpc.src).currentTerm = args.term →
      args.lastIncludedIndex ≤ (σ.nodes rpc.src).commitIndex

/-- A node that leads after an event left nothing to commit. -/
theorem Acts.leaderStep (hn : 2 ≤ n) {e : Event n C D} {j : Fin n} (hok : LogOk (σ.nodes j))
    (hsent : σ.SentCommitted) (hprompt : (σ.nodes j).state = .leader → (σ.nodes j).Prompt)
    (h : σ.Acts e j rf') (hl : rf'.state = .leader) : (σ.nodes j).LeaderStep rf' := by
  cases h with
  | idle => exact Raft.leaderStep_of_same hprompt hl rfl
  | elect h =>
    rw [Raft.becomeCandidate_state h] at hl
    cases hl
  | start command => exact Raft.leaderStep_start hn hok hprompt _ hl
  | request _ h =>
    obtain ⟨_, _, _, _, h⟩ | ⟨_, _, _, _, h⟩ | ⟨_, _, _, _, h⟩ := handleRequest_inv h
    · exact Raft.leaderStep_requestVote hprompt h hl
    · rcases Raft.appendEntries_state h with rfl | hfollow
      · exact Raft.leaderStep_of_same hprompt hl rfl
      · rw [hfollow] at hl
        cases hl
    · rcases Raft.installSnapshot_state h with rfl | hfollow
      · exact Raft.leaderStep_of_same hprompt hl rfl
      · rw [hfollow] at hl
        cases hl
  | reply hrpc h =>
    obtain rfl | ⟨_, _, _, _, h⟩ | ⟨_, _, _, _, h⟩ | ⟨_, _, hargs, _, rfl⟩ := handleReply_inv h
    · exact Raft.leaderStep_of_same hprompt hl rfl
    · exact Raft.leaderStep_requestVoteFromPeer hn hok hprompt h hl
    · exact Raft.leaderStep_handleAppendEntriesReply hprompt h hl
    · exact Raft.leaderStep_handleInstallSnapshotReply hprompt (hsent _ _ _ hrpc hargs) hl
  | snapshot h => exact Raft.leaderStep_snapshot hok hprompt h hl
  | take h =>
    refine Raft.leaderStep_of_same hprompt hl ?_
    rw [applierTake_eq h]
  | send =>
    refine Raft.leaderStep_of_same hprompt hl ?_
    rw [applierSend_eq]
  | boot _ ps =>
    rw [Raft.make_eq] at hl
    cases hl

/-- A leader of a snapshot's term led when it sent the snapshot, so its commit
index has only grown. -/
theorem SentCommitted.step {Φ : Log (Option C) → Option D → Prop} {a : Abs n C} (hI : a.Inv)
    (hS : Sim Φ σ a) (hsent : σ.SentCommitted)
    (hsteps : ∀ j, (σ'.nodes j).state = .leader → (σ.nodes j).LeaderStep (σ'.nodes j))
    {e : Event n C D} (h : σ.exec e = some σ') : σ'.SentCommitted := by
  intro r rpc args hr hargs hl hterm
  have hstep := hsteps rpc.src hl
  rcases exec_rpc h hr with hr | ⟨_, hvote⟩ | ⟨hnodes, hrep⟩
  · obtain ⟨hlead, _⟩ := (rpcOk_installSnapshot hargs).mp (hS.rpc hr)
    have hterm' : (σ.nodes rpc.src).currentTerm = args.term := hstep.term ▸ hterm
    rcases hstep.role with hlead' | hcand
    · exact (hsent r rpc args hr hargs hlead' hterm').trans hstep.commitIndex_le
    · -- A candidate has not led its term.
      have hrole : a.role rpc.src = .candidate := by
        rw [(hS.node rpc.src).role, hcand]
        rfl
      have hnot := (hI.standing hrole).2
      rw [(hS.node rpc.src).term, hterm'] at hnot
      exact absurd hlead hnot
  · rw [hvote] at hargs
    cases hargs
  · rw [hnodes]
    rw [hargs] at hrep
    obtain ⟨_, ⟨_, hsnap⟩ | ⟨_, _, _, happend⟩⟩ := replicateToPeer_inv hrep
    · cases hsnap
      exact (hS.node rpc.src).snapLe
    · cases happend

end Cluster

/-! ## One node alone -/

/-- A node alone has nobody to call. -/
theorem Cluster.voteRequests_alone (i : Fin 1) (args : RequestVoteArgs 1) (votes : Nat) :
    Cluster.voteRequests (C := C) (D := D) i args votes = [] := by
  rw [Cluster.voteRequests, List.map_eq_nil_iff, List.filter_eq_nil_iff]
  intro j _
  simp [Subsingleton.elim j i]

/-- Without calls and without a leader, an event leaves it at that. -/
theorem Cluster.alone_step {σ σ' : Cluster 1 C D} {e : Event 1 C D} (hrpcs : σ.rpcs = [])
    (hstate : ∀ i, (σ.nodes i).state ≠ .leader) (he : σ.Enabled e)
    (h : σ.exec e = some σ') : σ'.rpcs = [] ∧ ∀ i, (σ'.nodes i).state ≠ .leader := by
  have hnone : ∀ r : Nat, σ.rpcs[r]? = none := fun r => by rw [hrpcs, List.getElem?_nil]
  constructor
  · cases e with
    | electionTimeout i =>
      rw [Cluster.exec, if_neg (hstate i)] at h
      obtain ⟨⟨rf, args, votes⟩, _, hdone⟩ := Option.bind_eq_some_iff.mp h
      cases hdone
      rw [Cluster.voteRequests_alone]
      show σ.rpcs ++ [] = []
      rw [hrpcs, List.append_nil]
    | replicate i peer => exact absurd (Subsingleton.elim peer i) he
    | deliver r | undecodable r | crashInInstallSnapshot r | handleReply r reply =>
      simp only [Cluster.exec, hnone r] at h
      cases h
      exact hrpcs
    | snapshot | applierTake =>
      obtain ⟨_, _, hdone⟩ := Option.bind_eq_some_iff.mp h
      cases hdone
      exact hrpcs
    | crashInBecomeCandidate | start | applierSend | restart =>
      cases h
      exact hrpcs
  · intro j hl
    have hacts := Cluster.exec_acts h j
    generalize σ'.nodes j = rf at hl hacts
    cases hacts with
    | idle => exact hstate j hl
    | elect hbecome => simp [Raft.becomeCandidate_state hbecome] at hl
    | start _ command =>
      rcases start_inv (σ.nodes j) command with ⟨_, heq⟩ | ⟨hleader, _⟩
      · exact hstate j (heq ▸ hl)
      · exact hstate j hleader
    | request hrpc _ => cases (hnone _).symm.trans hrpc
    | reply hrpc _ => cases (hnone _).symm.trans hrpc
    | snapshot hsnap =>
      rcases snapshot_inv hsnap with ⟨_, rfl⟩ | ⟨_, _, _, _, rfl⟩
      · exact hstate j hl
      · exact hstate j hl
    | take htake =>
      rw [applierTake_eq htake] at hl
      exact hstate j hl
    | send =>
      rw [applierSend_eq] at hl
      exact hstate j hl
    | boot _ ps => simp [Raft.make_eq, Raft.blank] at hl

theorem ClusterRun.state_ne_leader_of_alone (run : ClusterRun 1 C D) (t : Nat) (i : Fin 1) :
    (run.node t i).state ≠ .leader := by
  have h : ∀ t, (run.state t).rpcs = [] ∧ ∀ i, ((run.state t).nodes i).state ≠ .leader := by
    intro t
    induction t with
    | zero =>
      rw [run.start]
      exact ⟨rfl, fun i => by simp [Cluster.init, Raft.make_eq, Raft.blank]⟩
    | succ t ih =>
      rcases run.next t with ⟨e, he, hexec⟩ | hsame
      · exact Cluster.alone_step ih.1 ih.2 he hexec
      · rw [hsame]
        exact ih
  exact (h t).2 i

/-- Where there is a leader, there are two nodes. -/
theorem ClusterRun.two_le_of_leader (run : ClusterRun n C D) {t : Nat} {i : Fin n}
    (hl : (run.node t i).state = .leader) : 2 ≤ n := by
  rcases Nat.lt_or_ge n 2 with hlt | hge
  · obtain rfl : n = 1 := by
      have := i.isLt
      omega
    exact absurd hl (run.state_ne_leader_of_alone t i)
  · exact hge

/-! ## Runs -/

/-- A leader commits what it can. -/
structure CommitsPromptly (run : ClusterRun n C D) : Prop where
  /-- No leader has an index above its commit index that satisfies the commit
  rule. -/
  nothingLeft : ∀ {t i k}, (run.node t i).state = .leader → (run.node t i).commitIndex < k →
    k < (run.node t i).getLen → ¬ (run.node t i).CommitRule k
  /-- After every event the commit index of a leader is the greatest index that
  the rule allows, or the one before when no greater one is allowed. -/
  greatest : ∀ {t i}, (run.node (t + 1) i).state = .leader →
    IsGreatest {k | k = (run.node t i).commitIndex ∨
      k < (run.node (t + 1) i).getLen ∧ (run.node (t + 1) i).CommitRule k}
      (run.node (t + 1) i).commitIndex

/-- What the induction over a run carries. -/
structure Cluster.Promptness (σ : Cluster n C D) : Prop where
  sent : σ.SentCommitted
  prompt : ∀ j, (σ.nodes j).state = .leader → (σ.nodes j).Prompt

variable {run : ClusterRun n C D} {abs : Nat → Abs n C}

theorem Accompanied.leaderStep (hA : Accompanied (CommittedPrefix run) run abs) (hn : 2 ≤ n)
    {t : Nat} (hp : (run.state t).Promptness) (j : Fin n)
    (hl : (run.node (t + 1) j).state = .leader) :
    (run.node t j).LeaderStep (run.node (t + 1) j) := by
  rcases run.next t with ⟨e, _, hexec⟩ | hsame
  · have hok := (hA.node t j).toNodeCore.logOk (hA.inv t)
    exact (Cluster.exec_acts hexec j).leaderStep hn hok hp.sent (hp.prompt j) hl
  · simp only [ClusterRun.node, hsame] at hl ⊢
    exact Raft.leaderStep_of_same (hp.prompt j) hl rfl

theorem Accompanied.promptness (hA : Accompanied (CommittedPrefix run) run abs) (hn : 2 ≤ n)
    (t : Nat) : (run.state t).Promptness := by
  induction t with
  | zero =>
    rw [run.start]
    refine ⟨fun r rpc args hr => by simp [Cluster.init] at hr, fun j hl => ?_⟩
    cases hl
  | succ t ih =>
    have hstep := hA.leaderStep hn ih
    refine ⟨?_, fun j hl => (hstep j hl).prompt⟩
    rcases run.next t with ⟨e, _, hexec⟩ | hsame
    · exact ih.sent.step (hA.inv t) (hA.sim t) hstep hexec
    · rw [hsame]
      exact ih.sent

/-- In a cluster of at least two nodes, and `config.Load` wants three, a leader
never sits on an entry that it could commit. -/
theorem cluster_commitsPromptly (hn : 2 ≤ n) (run : ClusterRun n C D) : CommitsPromptly run := by
  obtain ⟨abs, hA⟩ := exists_accompanied run
  have hp := hA.promptness hn
  refine ⟨fun {t i k} hl => (hp t).prompt i hl k, fun {t i} hl => ?_⟩
  have hstep := hA.leaderStep hn (hp t) i hl
  constructor
  · exact hstep.raised.imp_right fun h => h.2
  · rintro k (rfl | ⟨hlt, hrule⟩)
    · exact hstep.commitIndex_le
    · exact Nat.le_of_not_lt fun hk => hstep.prompt k hk hlt hrule

/-- A leader is elected, and one peer accepts its first entry. -/
def countedEvents : List (Event 3 Nat Nat) :=
  [ .electionTimeout node0, .deliver 0, .handleReply 0 (.requestVote ⟨0, true⟩)
  , .start node0 (some 7), .replicate node0 node1, .deliver 2
  , .handleReply 2 (.appendEntries ⟨1, true, 0, some 0⟩) ]

theorem countedEvents_commitsPromptly :
    ((ClusterRun.ofEvents countedEvents).node 6 node0).state = .leader ∧
    ((ClusterRun.ofEvents countedEvents).node 6 node0).commitIndex = 0 ∧
    ((ClusterRun.ofEvents countedEvents).node 7 node0).commitIndex = 1 ∧
    CommitsPromptly (ClusterRun.ofEvents countedEvents) :=
  ⟨by decide, by decide, by decide, cluster_commitsPromptly (by decide) _⟩

end KvRaft
