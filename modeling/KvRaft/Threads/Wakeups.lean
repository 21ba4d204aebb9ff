import KvRaft.Threads.Model
import KvRaft.Cluster.CommitRule
import KvRaft.Cluster.Feed

/-!
# No wakeup is lost

A cluster with threads is a cluster (`ThreadRun.cluster`), so everything that is
proved about runs of `KvRaft.Cluster` holds here.  What is new is that a step may
have to wait for a thread.  `Alert` says that no thread sleeps over its work:

* a waiting applier has nothing to apply;
* a waiting replicator of a leader has nothing of the leader's own term to send;
* one of the two timers always brings the instance back: the election timer, and
  on a leader the heartbeat timer.

Entries of earlier terms are an exception for the replicators: `becomeLeader` does
not signal them and leaves these entries to its heartbeats, and after them to the
heartbeat timer.

`Raft.Signalled` is what all of this needs to know about a function of the
instance.
-/

namespace KvRaft

open Consensus

variable {n : Nat} {C D : Type} {rf rf' : Raft n C D}

namespace Raft

/-- What a function that makes `rf'` of `rf` signals. -/
structure Signalled (rf rf' : Raft n C D) (s : Signals n) : Prop where
  me : rf'.me = rf.me
  commit : rf.commitIndex < rf'.commitIndex → s.applier = true
  applied : rf.lastApplied ≤ rf'.lastApplied
  applying : rf.applying = [] → rf.commitIndex ≤ rf.lastApplied → rf'.applying = []
  elected : rf'.state = .leader → rf.state = .leader ∨ s.heartBeatTimer = true
  /-- A leader has signalled the replicators, or has nothing of its term, or has
  nothing new. -/
  replicate : rf'.state = .leader → (∀ peer, peer ≠ rf.me → s.replicators peer = true) ∨
    (∀ e ∈ rf'.logs, e.term = rf'.currentTerm → e.index = 0) ∨
    rf.state = .leader ∧ rf'.currentTerm = rf.currentTerm ∧ rf'.logs ⊆ rf.logs ∧
      ∀ peer, rf.matchIndex peer ≤ rf'.matchIndex peer

variable {s : Signals n}

theorem Signalled.refl (rf : Raft n C D) (s : Signals n) : Signalled rf rf s where
  me := rfl
  commit h := absurd h (Nat.lt_irrefl _)
  applied := Nat.le_refl _
  applying h _ := h
  elected := Or.inl
  replicate hl := Or.inr (Or.inr ⟨hl, rfl, fun _ h => h, fun _ => Nat.le_refl _⟩)

theorem Signalled.persist (h : Signalled rf rf' s) : Signalled rf rf'.persist s := by
  rw [persist_keeps]
  exact ⟨h.me, h.commit, h.applied, h.applying, h.elected, h.replicate⟩

/-- A step that is not the leader afterwards. -/
theorem Signalled.of_ne (hme : rf'.me = rf.me)
    (hcommit : rf.commitIndex < rf'.commitIndex → s.applier = true)
    (happlied : rf'.lastApplied = rf.lastApplied) (happlying : rf'.applying = rf.applying)
    (hne : rf'.state ≠ .leader) : Signalled rf rf' s where
  me := hme
  commit := hcommit
  applied := Nat.le_of_eq happlied.symm
  applying h _ := happlying.trans h
  elected hl := absurd hl hne
  replicate hl := absurd hl hne

/-! ## Commands, terms and elections -/

theorem start_signalled (rf : Raft n C D) (command : Option C) :
    Signalled rf (rf.start command).1 rf.startSignals := by
  rcases start_inv rf command with ⟨_, heq⟩ | ⟨hl, heq⟩
  · rw [heq]
    exact .refl ..
  · rw [heq]
    refine Signalled.persist ⟨rfl, fun h => absurd h (Nat.lt_irrefl _), Nat.le_refl _, fun h _ => h,
      Or.inl, fun _ => Or.inl fun peer hpeer => ?_⟩
    rw [startSignals, if_neg (not_not.mpr hl), signalBroadcastReplication, if_neg (by decide)]
    exact decide_eq_true hpeer

theorem handleHigherTerm_signalled (rf : Raft n C D) (term : Nat) (s : Signals n) :
    Signalled rf (rf.handleHigherTerm term).1 s := by
  rcases handleHigherTerm_inv rf term with ⟨_, heq⟩ | ⟨_, heq⟩
  · rw [heq]
    exact .refl ..
  · rw [heq]
    refine Signalled.persist (.of_ne rfl ?_ rfl rfl NodeState.noConfusion)
    exact fun h => absurd h (Nat.lt_irrefl _)

theorem becomeCandidate_signalled {args : RequestVoteArgs n} {votes : Nat}
    (h : rf.becomeCandidate = some (rf', args, votes)) (s : Signals n) : Signalled rf rf' s := by
  have hne : rf'.state ≠ .leader := by
    rw [becomeCandidate_state h]
    exact NodeState.noConfusion
  have hrest : rf'.me = rf.me ∧ rf'.commitIndex = rf.commitIndex ∧
      rf'.lastApplied = rf.lastApplied ∧ rf'.applying = rf.applying := by
    rw [(startElection_inv h).1, persist_keeps, becomeCandidateTerm, persist_keeps]
    exact ⟨rfl, rfl, rfl, rfl⟩
  refine .of_ne hrest.1 (fun hlt => ?_) hrest.2.2.1 hrest.2.2.2 hne
  rw [hrest.2.1] at hlt
  exact absurd hlt (Nat.lt_irrefl _)

/-- A candidate that wins has nothing of its term yet. -/
theorem becomeLeader_signalled {granted : List Nat}
    (hcand : ∀ e ∈ rf.logs, e.term = rf.currentTerm → e.index = 0)
    (h : { rf with grantedVotes := granted }.becomeLeader = some rf')
    (hs : s.heartBeatTimer = true) : Signalled rf rf' s := by
  obtain ⟨last, _, rfl⟩ := becomeLeader_inv h
  exact ⟨rfl, fun h => absurd h (Nat.lt_irrefl _), Nat.le_refl _, fun h _ => h,
    fun _ => Or.inr hs,
    fun _ => Or.inr (Or.inl hcand)⟩

theorem requestVoteFromPeer_signalled {args : RequestVoteArgs n} {votes : Nat}
    {reply : RequestVoteReply}
    (hcand : rf.state = .candidate → ∀ e ∈ rf.logs, e.term = rf.currentTerm → e.index = 0)
    (h : rf.requestVoteFromPeer args votes reply = some rf') :
    Signalled rf rf' (rf.requestVoteFromPeerSignals args votes reply) := by
  unfold requestVoteFromPeer at h
  unfold requestVoteFromPeerSignals
  by_cases hvalid : rf.isStillValidCandidate args.term = true
  · rw [if_neg (not_not.mpr hvalid)] at h ⊢
    rcases handleHigherTerm_inv rf reply.term with ⟨_, heq⟩ | ⟨_, heq⟩
    · rw [heq] at h ⊢
      simp only [Bool.false_eq_true, if_false] at h ⊢
      split_ifs at h ⊢ with hgranted hcount
      · exact becomeLeader_signalled (hcand (of_decide_eq_true hvalid).1) h (Bool.or_true _)
      · cases h
        exact ⟨rfl, (Signalled.refl rf _).commit, Nat.le_refl _, fun h _ => h, Or.inl,
          (Signalled.refl rf _).replicate⟩
      · cases h
        exact .refl ..
    · rw [heq] at h ⊢
      cases h
      have hstep := handleHigherTerm_signalled rf reply.term (rf.handleHigherTermSignals reply.term)
      rw [heq] at hstep
      exact hstep
  · rw [if_pos hvalid] at h ⊢
    cases h
    exact .refl ..

/-! ## Requests -/

theorem requestVote_signalled {args : RequestVoteArgs n} {reply : RequestVoteReply}
    (h : rf.requestVote args = some (rf', reply)) (s : Signals n) : Signalled rf rf' s := by
  obtain ⟨_, rfl, _⟩ | ⟨_, state, votedFor, rfl, hstate, _⟩ := requestVote_inv h
  · exact .refl ..
  · refine Signalled.persist ?_
    rcases hstate with rfl | ⟨rfl, hterm⟩
    · exact .of_ne rfl (fun hlt => absurd hlt (Nat.lt_irrefl _)) rfl rfl NodeState.noConfusion
    · exact ⟨rfl, (Signalled.refl rf s).commit, Nat.le_refl _, fun h _ => h, Or.inl, fun hl =>
        Or.inr (Or.inr ⟨hl, hterm, fun _ h => h, fun _ => Nat.le_refl _⟩)⟩

theorem advanceCommitIndex_commit {leaderCommit : Nat}
    (h : rf.commitIndex < (rf.advanceCommitIndex leaderCommit).commitIndex) :
    (rf.advanceCommitIndexSignals leaderCommit).applier = true := by
  unfold advanceCommitIndex at h
  unfold advanceCommitIndexSignals
  split_ifs at h ⊢
  · rfl
  · exact absurd h (Nat.lt_irrefl _)

theorem appendEntries_signalled {args : AppendEntriesArgs n C} {reply : AppendEntriesReply}
    (h : rf.appendEntries args = some (rf', reply)) :
    Signalled rf rf' (rf.appendEntriesSignals args) := by
  unfold appendEntriesSignals
  obtain ⟨hold, rfl, _⟩ | ⟨hge, ⟨_, _, hconf, rfl, _⟩ | ⟨rf₁, hconf, happend, rfl, _⟩⟩ :=
    appendEntries_inv h
  · rw [if_pos hold]
    exact .refl ..
  · rw [if_neg hge]
    refine Signalled.persist (.of_ne rfl ?_ rfl rfl NodeState.noConfusion)
    exact fun hlt => absurd hlt (Nat.lt_irrefl _)
  · simp only [if_neg hge, hconf, happend]
    refine Signalled.persist ?_
    have hrf₁ := appendNewEntries_eq happend
    have hcommit : rf.commitIndex = rf₁.commitIndex := by rw [hrf₁]; rfl
    rw [advanceCommitIndex_eq]
    refine .of_ne ?_ (fun hlt => ?_) ?_ ?_ ?_
    · rw [hrf₁]
      rfl
    · rw [hcommit] at hlt
      exact advanceCommitIndex_commit hlt
    · rw [hrf₁]
      rfl
    · rw [hrf₁]
      rfl
    · rw [hrf₁]
      exact NodeState.noConfusion

theorem installSnapshot_signalled {args : InstallSnapshotArgs n D} {reply : InstallSnapshotReply}
    (h : rf.installSnapshot args = some (rf', reply)) :
    Signalled rf rf' (rf.installSnapshotSignals args) := by
  unfold installSnapshotSignals
  have hheed : ∀ s, Signalled rf (rf.heed args.term args.leaderId) s := by
    intro s
    rw [heed_keeps]
    exact .of_ne rfl (fun hlt => absurd hlt (Nat.lt_irrefl _)) rfl rfl NodeState.noConfusion
  obtain ⟨_, ⟨hold, rfl⟩ | ⟨hge, ⟨hle, rfl⟩ | ⟨hlt, rf₁, htrunc, rfl⟩⟩⟩ := installSnapshot_inv h
  · rw [if_pos hold]
    exact .refl ..
  · rw [if_neg hge, if_pos hle]
    exact hheed _
  · rw [if_neg hge, if_neg (Nat.not_le_of_lt hlt)]
    rw [truncateLogWithSnapshot_eq htrunc, heed_keeps]
    exact .of_ne rfl (fun _ => rfl) rfl rfl NodeState.noConfusion

theorem snapshot_signalled {index : Nat} {data : Option D} (h : rf.snapshot index data = some rf')
    (s : Signals n) : Signalled rf rf' s := by
  obtain ⟨_, rfl⟩ | ⟨_, logs, term, hdrop, rfl⟩ := snapshot_inv h
  · exact .refl ..
  · refine ⟨rfl, (Signalled.refl rf s).commit, Nat.le_refl _, fun h _ => h, Or.inl, fun hl =>
      Or.inr (Or.inr ⟨hl, rfl, ?_, fun _ => Nat.le_refl _⟩)⟩
    unfold GoSlice.dropFrom at hdrop
    split_ifs at hdrop
    cases hdrop
    exact List.drop_subset _ _

/-! ## The applier -/

theorem applierTake_signalled (h : rf.applierTake = some rf')
    (hlt : rf.lastApplied < rf.commitIndex) (s : Signals n) : Signalled rf rf' s := by
  have hle : rf.lastApplied ≤ rf'.lastApplied := by
    unfold applierTake at h
    split_ifs at h with hsnap
    · cases h
      exact Nat.le_of_lt hsnap
    · obtain ⟨_, _, h⟩ := Option.bind_eq_some_iff.mp h
      cases h
      exact Nat.le_of_lt hlt
  rw [applierTake_eq h]
  exact ⟨rfl, (Signalled.refl rf s).commit, hle, fun _ hdone => absurd hlt (Nat.not_lt_of_le hdone),
    Or.inl, (Signalled.refl rf s).replicate⟩

theorem applierSend_signalled (h : rf.applying ≠ []) (s : Signals n) :
    Signalled rf rf.applierSend s := by
  rw [applierSend_eq]
  exact ⟨rfl, (Signalled.refl rf s).commit, Nat.le_refl _, fun hnil _ => absurd hnil h, Or.inl,
    (Signalled.refl rf s).replicate⟩

/-! ## Replies -/

theorem resolveConflict_signalled {peer : Fin n} {args : AppendEntriesArgs n C}
    {reply : AppendEntriesReply} (h : rf.resolveConflict peer args reply = some rf')
    (s : Signals n) : Signalled rf rf' s := by
  rw [resolveConflict_eq h]
  exact ⟨rfl, (Signalled.refl rf s).commit, Nat.le_refl _, fun h _ => h, Or.inl,
    (Signalled.refl rf s).replicate⟩

theorem le_update {f : Fin n → Nat} {peer : Fin n} {k : Nat} (h : f peer < k) (p : Fin n) :
    f p ≤ Function.update f peer k p := by
  by_cases hp : p = peer
  · rw [hp, Function.update_self]
    exact Nat.le_of_lt h
  · rw [Function.update_of_ne hp]

/-- What a leader knows of its peers only grows. -/
theorem matchIndex_le_advancePeerIndices (rf : Raft n C D) (peer : Fin n)
    (args : AppendEntriesArgs n C) (p : Fin n) :
    rf.matchIndex p ≤ (rf.advancePeerIndices peer args).matchIndex p := by
  simp only [advancePeerIndices]
  split_ifs with hlt
  · exact le_update hlt p
  · exact Nat.le_refl _

theorem updateCommitIndex_signalled {peer : Fin n} {args : AppendEntriesArgs n C}
    (hl : rf.state = .leader)
    (h : (rf.advancePeerIndices peer args).updateCommitIndex = some rf')
    (hs : (rf.advancePeerIndices peer args).updateCommitIndexSignals.applier = true →
      s.applier = true) : Signalled rf rf' s := by
  have hadvance := advancePeerIndices_eq rf peer args
  have hcommit : rf.commitIndex = (rf.advancePeerIndices peer args).commitIndex := by rw [hadvance]
  have heq := updateCommitScan_eq h
  have hraised : rf.commitIndex < rf'.commitIndex → s.applier = true := by
    intro hlt
    apply hs
    rw [hcommit] at hlt
    rw [updateCommitIndexSignals, h]
    simp only [if_pos hlt]
    rfl
  have hmatch := matchIndex_le_advancePeerIndices rf peer args
  rw [heq] at hraised ⊢
  rw [hadvance] at hraised ⊢
  exact ⟨rfl, hraised, Nat.le_refl _, fun h _ => h, Or.inl, fun _ =>
    Or.inr (Or.inr ⟨hl, rfl, fun _ h => h, hmatch⟩)⟩

theorem handleAppendEntriesReply_signalled {peer : Fin n} {args : AppendEntriesArgs n C}
    {reply : AppendEntriesReply} (h : rf.handleAppendEntriesReply peer args reply = some rf') :
    Signalled rf rf' (rf.handleAppendEntriesReplySignals peer args reply) := by
  unfold handleAppendEntriesReply shouldIgnoreReply at h
  unfold handleAppendEntriesReplySignals shouldIgnoreReply
  rcases handleHigherTerm_inv rf reply.term with ⟨_, heq⟩ | ⟨_, heq⟩
  · rw [heq] at h ⊢
    simp only [Bool.false_eq_true, if_false, decide_eq_true_eq] at h ⊢
    split_ifs at h ⊢ with hignore hfail
    · cases h
      exact .refl ..
    · exact resolveConflict_signalled h _
    · refine updateCommitIndex_signalled (not_not.mp fun hne => hignore (Or.inl hne)) h fun hs => ?_
      show (_ || (_ || _)) = true
      rw [hs, Bool.or_true, Bool.or_true]
  · rw [heq] at h ⊢
    cases h
    have hstep := handleHigherTerm_signalled rf reply.term (rf.handleHigherTermSignals reply.term)
    rw [heq] at hstep
    exact hstep

theorem handleInstallSnapshotReply_signalled (rf : Raft n C D) (peer : Fin n)
    (args : InstallSnapshotArgs n D) (reply : InstallSnapshotReply) (s : Signals n) :
    Signalled rf (rf.handleInstallSnapshotReply peer args reply) s := by
  rcases handleInstallSnapshotReply_inv rf peer args reply with heq | ⟨⟨hl, _⟩, heq⟩
  · rw [heq]
    exact handleHigherTerm_signalled ..
  · rw [heq]
    refine ⟨rfl, (Signalled.refl rf s).commit, Nat.le_refl _, fun h _ => h, Or.inl, fun _ =>
      Or.inr (Or.inr ⟨hl, rfl, fun _ h => h, fun p => ?_⟩)⟩
    show rf.matchIndex p ≤ (if _ then _ else _ : Fin n → Nat) p
    split_ifs with hlt
    · exact le_update hlt p
    · exact Nat.le_refl _

end Raft

/-! ## Events -/

namespace Cluster

variable {σ σ' : Cluster n C D}

theorem Acts.signalled {e : Event n C D} {j : Fin n} (h : σ.Acts e j rf)
    (hcand : (σ.nodes j).state = .candidate → ∀ e ∈ (σ.nodes j).logs,
      e.term = (σ.nodes j).currentTerm → e.index = 0)
    (he : σ.Enabled e) (hboot : σ.rebooted e ≠ some j) :
    (σ.nodes j).Signalled rf (σ.signals e j) := by
  cases h with
  | idle => exact .refl ..
  | elect h => exact Raft.becomeCandidate_signalled h _
  | start command =>
    rw [signals, if_pos rfl]
    exact Raft.start_signalled ..
  | request hrpc h =>
    simp only [signals, hrpc, if_true]
    obtain ⟨_, _, hargs, _, h⟩ | ⟨_, _, hargs, _, h⟩ | ⟨_, _, hargs, _, h⟩ := handleRequest_inv h
    · rw [hargs]
      exact Raft.requestVote_signalled h _
    · rw [hargs]
      exact Raft.appendEntries_signalled h
    · rw [hargs]
      exact Raft.installSnapshot_signalled h
  | reply hrpc h =>
    simp only [signals, hrpc, if_true]
    obtain rfl | ⟨_, _, hargs, rfl, hfn⟩ | ⟨_, _, hargs, rfl, hfn⟩ | ⟨_, _, _, rfl, rfl⟩ :=
      handleReply_inv h
    · exact .refl ..
    · simp only [replySignals, hargs]
      exact Raft.requestVoteFromPeer_signalled hcand hfn
    · simp only [replySignals, hargs]
      exact Raft.handleAppendEntriesReply_signalled hfn
    · exact Raft.handleInstallSnapshotReply_signalled ..
  | snapshot h => exact Raft.snapshot_signalled h _
  | take h => exact Raft.applierTake_signalled h he.2 _
  | send => exact Raft.applierSend_signalled he _
  | boot h ps => exact absurd h hboot

end Cluster

/-! ## Threads -/

/-- The timer runs, or its tick has not been handled yet. -/
def Threads.Pending (th : Threads n) (timer : Timer) : Prop :=
  th.timer timer ≠ .stopped ∨ th.ticker = some timer

/-- No thread sleeps over its work. -/
structure Alert (rf : Raft n C D) (th : Threads n) : Prop where
  /-- A waiting applier has nothing to apply. -/
  applier : th.applier = .waiting → rf.applying = [] ∧ rf.commitIndex ≤ rf.lastApplied
  /-- A peer whose replicator waits has everything of the leader's term. -/
  replicator : ∀ peer, peer ≠ rf.me → th.replicator peer = .waiting → rf.state = .leader →
    ∀ e ∈ rf.logs, e.term = rf.currentTerm → e.index ≤ rf.matchIndex peer
  election : th.Pending .election
  heartBeat : rf.state = .leader → th.Pending .heartBeat

section Alert

variable {th th' : Threads n} {s : Signals n}

theorem Threads.applier_of_wake (h : (th.wake s).applier = .waiting) :
    s.applier = false ∧ th.applier = .waiting := by
  simp only [wake] at h
  split_ifs at h with hs
  exact ⟨by simpa using hs, h⟩

theorem Threads.replicator_of_wake {peer : Fin n} (h : (th.wake s).replicator peer = .waiting) :
    s.replicators peer = false ∧ th.replicator peer = .waiting := by
  simp only [wake] at h
  split_ifs at h with hs
  exact ⟨by simpa [h] using hs, h⟩

theorem Threads.Pending.wake {timer : Timer} (h : th.Pending timer) (s : Signals n) :
    (th.wake s).Pending timer := by
  refine h.imp_left fun hne => ?_
  cases timer <;> simp only [Threads.wake] <;> split_ifs <;> simp [hne]

theorem Threads.pending_wake_heartBeat (h : s.heartBeatTimer = true) :
    (th.wake s).timer .heartBeat ≠ .stopped := by
  simp [Threads.wake, h]

theorem Threads.pending_wake_election (h : s.electionTimer = true) :
    (th.wake s).timer .election ≠ .stopped := by
  simp [Threads.wake, h]

/-- A timer that fires keeps its tick for the ticker. -/
theorem Threads.Pending.fire {other : Timer} (h : th.Pending other) (timer : Timer) :
    (th.setTimer timer .fired).Pending other := by
  refine h.imp_left fun hne => ?_
  simp only [Threads.setTimer, Function.update_apply]
  split_ifs
  · exact TimerPhase.noConfusion
  · exact hne

/-- The ticker receives a tick and has to handle it. -/
theorem Threads.Pending.tick {other : Timer} (h : th.Pending other) (timer : Timer)
    (hticker : th.ticker = none) :
    Threads.Pending { th.setTimer timer .stopped with ticker := some timer } other := by
  by_cases hother : other = timer
  · exact Or.inr (congrArg some hother.symm)
  · refine Or.inl ?_
    simp only [Threads.setTimer, Function.update_of_ne hother]
    refine h.resolve_right ?_
    rw [hticker]
    simp

theorem alert_make (hstate : rf.state ≠ .leader) : Alert rf .make where
  applier h := by cases h
  replicator peer _ h := by cases h
  election := Or.inl TimerPhase.noConfusion
  heartBeat hl := absurd hl hstate

/-- The threads after a function of the instance. -/
theorem Alert.signalled (h : Alert rf th) (hs : rf.Signalled rf' s) : Alert rf' (th.wake s) where
  applier hwait := by
    obtain ⟨hsig, hwait⟩ := Threads.applier_of_wake hwait
    obtain ⟨hnil, hle⟩ := h.applier hwait
    have hcommit : ¬ rf.commitIndex < rf'.commitIndex := by
      intro hlt
      rw [hs.commit hlt] at hsig
      cases hsig
    have happlied := hs.applied
    exact ⟨hs.applying hnil hle, by omega⟩
  replicator peer hpeer hwait hl e he hterm := by
    obtain ⟨hsig, hwait⟩ := Threads.replicator_of_wake hwait
    rw [hs.me] at hpeer
    rcases hs.replicate hl with hall | hnone | ⟨hl', hsame, hsub, hmatch⟩
    · rw [hall peer hpeer] at hsig
      cases hsig
    · rw [hnone e he hterm]
      exact Nat.zero_le _
    · exact (h.replicator peer hpeer hwait hl' e (hsub he) (hterm.trans hsame)).trans (hmatch peer)
  election := h.election.wake s
  heartBeat hl := by
    rcases hs.elected hl with hl' | hreset
    · exact (h.heartBeat hl').wake s
    · exact Or.inl (Threads.pending_wake_heartBeat hreset)

/-- A thread that does not go to sleep. -/
theorem Alert.of_threads (h : Alert rf th)
    (happlier : th'.applier = .waiting → th.applier = .waiting)
    (hreplicator : ∀ peer, th'.replicator peer = .waiting → th.replicator peer = .waiting)
    (helection : th'.Pending .election)
    (hheartBeat : rf.state = .leader → th'.Pending .heartBeat) : Alert rf th' where
  applier hwait := h.applier (happlier hwait)
  replicator peer hpeer hwait := h.replicator peer hpeer (hreplicator peer hwait)
  election := helection
  heartBeat := hheartBeat

/-- A replicator goes to sleep when its peer has the whole log. -/
theorem Alert.replicatorLook (h : Alert rf th) (hok : LogOk rf) {peer : Fin n} {needs : Bool}
    (hneeds : rf.needsReplication peer = some needs) :
    Alert rf (th.setReplicator peer (if needs then .sending else .waiting)) := by
  refine ⟨h.applier, fun p hp hwait hl e he hterm => ?_, h.election, h.heartBeat⟩
  by_cases hpp : p = peer
  · subst hpp
    simp only [Threads.setReplicator, Function.update_self] at hwait
    split_ifs at hwait with hsend
    rw [Raft.needsReplication, if_pos hl] at hneeds
    obtain ⟨last, hlast, hneeds⟩ := Option.bind_eq_some_iff.mp hneeds
    rw [← Option.some.inj hneeds, decide_eq_true_eq, Nat.not_lt] at hsend
    -- The last entry has the greatest index.
    rw [getLastLog_eq, List.getLast?_eq_getElem?] at hlast
    obtain ⟨k, hk⟩ := List.mem_iff_getElem?.mp he
    have hlt := (List.getElem?_eq_some_iff.mp hk).1
    have h1 := hok.index k e hk
    have h2 := hok.index _ last hlast
    omega
  · simp only [Threads.setReplicator, Function.update_of_ne hpp] at hwait
    exact h.replicator p hp hwait hl e he hterm

end Alert

/-! ## Runs -/

namespace Scheduled

variable {s s' : Scheduled n C D}

theorem act_inv {e : Event n C D} (h : s.act e = some s') :
    s.cluster.Enabled e ∧ s.cluster.exec e = some s'.cluster ∧
      ∀ j, s'.threads j = if s.cluster.rebooted e = some j then .make
        else (s.threads j).wake (s.cluster.signals e j) := by
  unfold act at h
  split_ifs at h with he
  obtain ⟨cluster, hexec, h⟩ := Option.bind_eq_some_iff.mp h
  cases h
  exact ⟨he, hexec, fun _ => rfl⟩

theorem act_step {e : Event n C D} (h : s.act e = some s') :
    Cluster.Step s.cluster s'.cluster :=
  ⟨e, (act_inv h).1, (act_inv h).2.1⟩

/-- The cluster makes a step of its own, or none. -/
theorem step_cluster (h : Scheduled.Step s s') :
    Cluster.Step s.cluster s'.cluster ∨ s'.cluster = s.cluster := by
  obtain ⟨e, h⟩ := h
  cases e with
  | fire i timer | tick i timer =>
    simp only [exec] at h
    split_ifs at h
    cases h
    exact Or.inr rfl
  | handleTick i =>
    simp only [exec] at h
    split at h
    · cases h
    · obtain ⟨s₁, hs₁, h⟩ := Option.bind_eq_some_iff.mp h
      cases h
      have hstep := act_step hs₁
      exact Or.inl hstep
    · split_ifs at h <;> cases h <;> exact Or.inr rfl
  | applierLook i =>
    simp only [exec] at h
    split_ifs at h
    · cases h
      exact Or.inr rfl
    · exact Or.inl (act_step h)
  | applierSend i => exact Or.inl (act_step h)
  | replicatorLook i peer =>
    simp only [exec] at h
    split_ifs at h
    obtain ⟨needs, _, h⟩ := Option.bind_eq_some_iff.mp h
    cases h
    exact Or.inr rfl
  | replicatorSend i peer | heartbeatSend i peer =>
    simp only [exec] at h
    split_ifs at h
    all_goals
      have hstep := act_step h
      exact Or.inl hstep
  | fail r =>
    simp only [exec] at h
    split_ifs at h
    cases h
    exact Or.inr rfl
  | handleReply r reply =>
    simp only [exec] at h
    split_ifs at h
    have hstep := act_step h
    exact Or.inl hstep
  | outside e =>
    simp only [exec] at h
    split_ifs at h
    exact Or.inl (act_step h)

/-- No thread of any node sleeps over its work. -/
def AllAlert (s : Scheduled n C D) : Prop := ∀ j, Alert (s.cluster.nodes j) (s.threads j)

/-- What is known of the nodes between two events. -/
structure NodesOk (σ : Cluster n C D) : Prop where
  logOk : ∀ j, LogOk (σ.nodes j)
  candidate : ∀ j, (σ.nodes j).state = .candidate → ∀ e ∈ (σ.nodes j).logs,
    e.term = (σ.nodes j).currentTerm → e.index = 0

theorem AllAlert.act (h : s.AllAlert) (hok : NodesOk s.cluster) {e : Event n C D}
    (hact : s.act e = some s') : s'.AllAlert := by
  intro j
  obtain ⟨he, hexec, hthreads⟩ := act_inv hact
  rw [hthreads]
  split_ifs with hboot
  · obtain ⟨ps, hps⟩ := Cluster.exec_rebooted he hexec hboot
    refine alert_make ?_
    rw [hps, Raft.make_eq]
    exact NodeState.noConfusion
  · exact (h j).signalled
      ((Cluster.exec_acts hexec j).signalled (hok.candidate j) he hboot)

/-- The threads of one node change. -/
theorem AllAlert.setThreads (h : s.AllAlert) {i : Fin n} {th : Threads n}
    (hth : Alert (s.cluster.nodes i) th) : (s.setThreads i th).AllAlert := by
  intro j
  show Alert (s.cluster.nodes j) (Function.update s.threads i th j)
  by_cases hj : j = i
  · subst hj
    rw [Function.update_self]
    exact hth
  · rw [Function.update_of_ne hj]
    exact h j

theorem AllAlert.ended (h : s.AllAlert) (r : Nat) :
    ({ s with threads := fun j => (s.threads j).ended r } : Scheduled n C D).AllAlert := by
  intro j
  refine (h j).of_threads id (fun peer hwait => ?_) (h j).election (h j).heartBeat
  simp only [Threads.ended] at hwait
  split_ifs at hwait
  exact hwait

theorem AllAlert.handleTick (h : s.AllAlert) (hok : NodesOk s.cluster) {i : Fin n}
    (hexec : s.exec (.handleTick i) = some s') : s'.AllAlert := by
  simp only [exec] at hexec
  split at hexec
  · cases hexec
  · rename_i hticker
    obtain ⟨s₁, hact, hexec⟩ := Option.bind_eq_some_iff.mp hexec
    cases hexec
    have h₁ := h.act hok hact
    have hth : s₁.threads i = (s.threads i).wake Raft.resetElectionTimer := by
      rw [(act_inv hact).2.2 i]
      simp [Cluster.rebooted, Cluster.signals]
    refine h₁.setThreads ((h₁ i).of_threads id (fun _ => id) (Or.inl ?_) fun hl => Or.inl ?_)
    · show (s₁.threads i).timer .election ≠ .stopped
      rw [hth]
      exact Threads.pending_wake_election rfl
    · -- The tick that was handled is not a heartbeat.
      refine ((h₁ i).heartBeat hl).resolve_right ?_
      rw [hth]
      show (s.threads i).ticker ≠ _
      simp [hticker]
  · rename_i hticker
    have helection : (s.threads i).timer .election ≠ .stopped :=
      (h i).election.resolve_right (by simp [hticker])
    have hquiet : Threads.Pending { s.threads i with ticker := none } .election :=
      Or.inl helection
    split_ifs at hexec with hl
    · cases hexec
      refine h.setThreads ((h i).of_threads (fun hw => ?_) (fun p hw => ?_) (hquiet.wake _)
        fun _ => Or.inl (Threads.pending_wake_heartBeat ?_))
      · exact (Threads.applier_of_wake hw).2
      · exact (Threads.replicator_of_wake hw).2
      · exact Bool.or_true ((s.cluster.nodes i).signalBroadcastReplication true).heartBeatTimer
    · cases hexec
      exact h.setThreads ((h i).of_threads id (fun _ => id) hquiet fun hl' => absurd hl' hl)

theorem AllAlert.step (h : s.AllAlert) (hok : NodesOk s.cluster) (hstep : Scheduled.Step s s') :
    s'.AllAlert := by
  obtain ⟨e, hexec⟩ := hstep
  cases e with
  | fire i timer =>
    simp only [exec] at hexec
    split_ifs at hexec with harmed
    cases hexec
    exact h.setThreads ((h i).of_threads id (fun _ => id) ((h i).election.fire timer)
      fun hl => ((h i).heartBeat hl).fire timer)
  | tick i timer =>
    simp only [exec] at hexec
    split_ifs at hexec with hfired
    cases hexec
    exact h.setThreads ((h i).of_threads id (fun _ => id) ((h i).election.tick timer hfired.1)
      fun hl => ((h i).heartBeat hl).tick timer hfired.1)
  | handleTick i => exact h.handleTick hok hexec
  | applierLook i =>
    simp only [exec] at hexec
    split_ifs at hexec with hrun hdone
    · cases hexec
      exact h.setThreads ⟨fun _ => ⟨hrun.2, hdone⟩, (h i).replicator, (h i).election,
        (h i).heartBeat⟩
    · exact h.act hok hexec
  | applierSend i => exact h.act hok hexec
  | replicatorLook i peer =>
    simp only [exec] at hexec
    split_ifs at hexec
    obtain ⟨needs, hneeds, hexec⟩ := Option.bind_eq_some_iff.mp hexec
    cases hexec
    exact h.setThreads ((h i).replicatorLook (hok.logOk i) hneeds)
  | replicatorSend i peer =>
    have hphase : ∀ phase, phase ≠ .waiting →
        (s.setThreads i ((s.threads i).setReplicator peer phase)).AllAlert := by
      intro phase hne
      refine h.setThreads ((h i).of_threads id (fun p hwait => ?_) (h i).election (h i).heartBeat)
      simp only [Threads.setReplicator, Function.update_apply] at hwait
      split_ifs at hwait
      · exact absurd hwait hne
      · exact hwait
    simp only [exec] at hexec
    split_ifs at hexec
    · exact (hphase _ ReplicatorPhase.noConfusion).act hok hexec
    · exact (hphase _ ReplicatorPhase.noConfusion).act hok hexec
  | heartbeatSend i peer =>
    simp only [exec] at hexec
    split_ifs at hexec
    have hleft : (s.setThreads i { s.threads i with
        heartbeats := Function.update (s.threads i).heartbeats peer
          ((s.threads i).heartbeats peer - 1) }).AllAlert :=
      h.setThreads ((h i).of_threads id (fun _ => id) (h i).election (h i).heartBeat)
    exact hleft.act hok hexec
  | fail r =>
    simp only [exec] at hexec
    split_ifs at hexec
    cases hexec
    exact h.ended r
  | handleReply r reply =>
    simp only [exec] at hexec
    split_ifs at hexec
    exact (h.ended r).act hok hexec
  | outside e =>
    simp only [exec] at hexec
    split_ifs at hexec
    exact h.act hok hexec

end Scheduled

/-- The cluster of a run with threads. -/
def ThreadRun.cluster (run : ThreadRun n C D) : ClusterRun n C D where
  state t := (run.state t).cluster
  start := by rw [run.start]; rfl
  next t := by
    rcases run.next t with h | h
    · exact Scheduled.step_cluster h
    · exact Or.inr (by rw [h])

/-- A candidate has nothing of its term in its log. -/
theorem NodeCore.candidate_logs {Φ : Log (Option C) → Option D → Prop} {a : Abs n C} {i : Fin n}
    (hI : a.Inv) (h : NodeCore Φ a i rf) (hcand : rf.state = .candidate) {e : Entry C}
    (he : e ∈ rf.logs) (hterm : e.term = rf.currentTerm) : e.index = 0 := by
  obtain ⟨k, hk⟩ := List.mem_iff_getElem?.mp he
  have hkl : rf.lastIncludedIndex + k ≤ (a.log i).length := by
    have := (List.getElem?_eq_some_iff.mp hk).1
    have := h.repr.length_logs
    have := h.repr.le
    omega
  obtain ⟨c, hc⟩ := h.repr.logs
  obtain ⟨d, hd⟩ := exists_getElem?_stored c hkl
  rw [hc, hd] at hk
  cases hk
  by_contra hne
  obtain ⟨j, hj⟩ : ∃ j, rf.lastIncludedIndex + k = j + 1 := Nat.exists_eq_succ_of_ne_zero hne
  have hs := List.getElem?_eq_getElem (show j < (a.log i).length by omega)
  -- It stands with its log, which has earlier terms only.
  have hrole : a.role i = .candidate := by
    rw [h.role, hcand]
    rfl
  have hlt := hI.cand_terms (hI.standing hrole).1 _ (List.mem_of_getElem? hs)
  have heq : termAt (a.log i) (rf.lastIncludedIndex + k) = rf.currentTerm := hterm
  rw [hj, termAt_succ_of_getElem? hs, ← h.term] at heq
  omega

theorem ClusterRun.nodesOk (run : ClusterRun n C D) (t : Nat) :
    Scheduled.NodesOk (run.state t) := by
  obtain ⟨abs, hA⟩ := exists_accompanied run
  exact ⟨fun j => (hA.node t j).toNodeCore.logOk (hA.inv t), fun j hcand e he hterm =>
    (hA.node t j).toNodeCore.candidate_logs (hA.inv t) hcand he hterm⟩

theorem ThreadRun.allAlert (run : ThreadRun n C D) (t : Nat) : (run.state t).AllAlert := by
  induction t with
  | zero =>
    rw [run.start]
    exact fun j => alert_make NodeState.noConfusion
  | succ t ih =>
    rcases run.next t with hstep | hsame
    · exact ih.step (run.cluster.nodesOk t) hstep
    · rw [hsame]
      exact ih

/-- No wakeup is lost, and no timer. -/
theorem threads_alert (run : ThreadRun n C D) (t : Nat) (i : Fin n) :
    Alert (run.cluster.node t i) ((run.state t).threads i) :=
  run.allAlert t i

end KvRaft
