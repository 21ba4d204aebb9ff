import KvRaft.Cluster.CommitRule

/-!
# Leaders over time

`Raft.Hears` says what a function does to the state of a node, its term and
`currentLeader`: nothing that counts, or it forgets the leader, wins an election, or
heeds the request of a leader.  From it follow facts about whole runs.

* `Led` says which terms a node has led.  A term has one leader, and whoever is
  announced in a request has led (`Accompanied.led_of_announced`).
* A node leads a term without a break, and while it does so, it only appends to its
  log (`cluster_leaderAppendOnly`).
-/

namespace KvRaft

open Consensus

variable {n : Nat} {C D : Type} {rf rf' : Raft n C D}

/-! ## What the functions do to the hint -/

namespace Raft

/-- What can happen to `currentLeader`, when `told leader term` are the requests that
can come in. -/
inductive Hears (told : Fin n → Nat → Prop) (rf rf' : Raft n C D) : Prop where
  | same (hint : rf'.currentLeader = rf.currentLeader) (term : rf.currentTerm ≤ rf'.currentTerm)
      (leads : rf'.state = .leader → rf.state = .leader ∧ rf'.currentTerm = rf.currentTerm)
  | forgets (hint : rf'.currentLeader = none) (state : rf'.state ≠ .leader)
  | wins (hint : rf'.currentLeader = some rf.me) (state : rf'.state = .leader)
      (was : rf.state = .candidate) (term : rf'.currentTerm = rf.currentTerm)
  | heeds (leader : Fin n) (hint : rf'.currentLeader = some leader) (state : rf'.state ≠ .leader)
      (term : rf.currentTerm ≤ rf'.currentTerm) (said : told leader rf'.currentTerm)

variable {told : Fin n → Nat → Prop}

theorem Hears.refl (rf : Raft n C D) : Hears told rf rf :=
  .same rfl (Nat.le_refl _) fun hl => ⟨hl, rfl⟩

theorem Hears.persist (h : Hears told rf rf') : Hears told rf rf'.persist := by
  rw [persist_keeps]
  cases h with
  | same hint term leads => exact .same hint term leads
  | forgets hint state => exact .forgets hint state
  | wins hint state was term => exact .wins hint state was term
  | heeds leader hint state term said => exact .heeds leader hint state term said

theorem start_hears (rf : Raft n C D) (command : Option C) :
    Hears told rf (rf.start command).1 := by
  rcases start_inv rf command with ⟨_, heq⟩ | ⟨_, heq⟩
  · rw [heq]
    exact .refl rf
  · rw [heq]
    exact Hears.persist (.same rfl (Nat.le_refl _) fun hl => ⟨hl, rfl⟩)

theorem handleHigherTerm_hears (rf : Raft n C D) (term : Nat) :
    Hears told rf (rf.handleHigherTerm term).1 := by
  rcases handleHigherTerm_inv rf term with ⟨_, heq⟩ | ⟨hlt, heq⟩
  · rw [heq]
    exact .refl rf
  · rw [heq]
    exact Hears.persist (.same rfl (Nat.le_of_lt hlt) fun hl => by cases hl)

theorem becomeCandidate_hears {args : RequestVoteArgs n} {votes : Nat}
    (h : rf.becomeCandidate = some (rf', args, votes)) : Hears told rf rf' := by
  refine .forgets ?_ ?_
  · rw [(startElection_inv h).1, persist_keeps]
  · rw [becomeCandidate_state h]
    exact NodeState.noConfusion

theorem requestVoteFromPeer_hears {args : RequestVoteArgs n} {votes : Nat}
    {reply : RequestVoteReply} (h : rf.requestVoteFromPeer args votes reply = some rf') :
    Hears told rf rf' := by
  rcases requestVoteFromPeer_inv h with rfl | ⟨granted, rfl | ⟨hwas, hwon⟩⟩
  · exact handleHigherTerm_hears rf _
  · exact .same rfl (Nat.le_refl _) fun hl => ⟨hl, rfl⟩
  · obtain ⟨last, _, rfl⟩ := becomeLeader_inv hwon
    exact .wins rfl rfl hwas rfl

theorem requestVote_hears {args : RequestVoteArgs n} {reply : RequestVoteReply}
    (h : rf.requestVote args = some (rf', reply)) : Hears told rf rf' := by
  obtain ⟨_, rfl, _⟩ | ⟨hge, state, votedFor, rfl, hstate, _⟩ := requestVote_inv h
  · exact .refl rf'
  · refine Hears.persist (.same rfl (Nat.le_of_not_lt hge) fun hl => ?_)
    rcases hstate with rfl | ⟨rfl, hterm⟩
    · cases hl
    · exact ⟨hl, hterm⟩

theorem appendEntries_hears {args : AppendEntriesArgs n C} {reply : AppendEntriesReply}
    (h : rf.appendEntries args = some (rf', reply)) (htold : told args.leaderId args.term) :
    Hears told rf rf' := by
  obtain ⟨_, rfl, _⟩ | ⟨hge, ⟨_, _, _, rfl, _⟩ | ⟨rf₁, _, happend, rfl, _⟩⟩ := appendEntries_inv h
  · exact .refl rf'
  · exact Hears.persist
      (.heeds args.leaderId rfl NodeState.noConfusion (Nat.le_of_not_lt hge) htold)
  · rw [advanceCommitIndex_eq, appendNewEntries_eq happend]
    exact Hears.persist
      (.heeds args.leaderId rfl NodeState.noConfusion (Nat.le_of_not_lt hge) htold)

theorem heed_hears {term : Nat} {leader : Fin n} (hge : ¬term < rf.currentTerm)
    (htold : told leader term) : Hears told rf (rf.heed term leader) := by
  have hterm := heed_currentTerm rf hge leader
  refine .heeds leader ?_ ?_ ?_ ?_
  · rw [heed_keeps]
  · rw [heed_keeps]
    exact NodeState.noConfusion
  · rw [hterm]
    exact Nat.le_of_not_lt hge
  · rw [hterm]
    exact htold

theorem installSnapshot_hears {args : InstallSnapshotArgs n D} {reply : InstallSnapshotReply}
    (h : rf.installSnapshot args = some (rf', reply)) (htold : told args.leaderId args.term) :
    Hears told rf rf' := by
  obtain ⟨_, ⟨_, rfl⟩ | ⟨hge, ⟨_, rfl⟩ | ⟨_, rf₁, htrunc, rfl⟩⟩⟩ := installSnapshot_inv h
  · exact .refl rf'
  · exact heed_hears hge htold
  · rw [truncateLogWithSnapshot_eq htrunc]
    cases heed_hears hge htold with
    | same hint term leads => exact .same hint term leads
    | forgets hint state => exact .forgets hint state
    | wins hint state was term => exact .wins hint state was term
    | heeds leader hint state term said => exact .heeds leader hint state term said

theorem snapshot_hears {index : Nat} {data : Option D} (h : rf.snapshot index data = some rf') :
    Hears told rf rf' := by
  obtain ⟨_, rfl⟩ | ⟨_, _, _, _, rfl⟩ := snapshot_inv h
  · exact .refl rf'
  · exact .same rfl (Nat.le_refl _) fun hl => ⟨hl, rfl⟩

theorem handleAppendEntriesReply_hears {peer : Fin n} {args : AppendEntriesArgs n C}
    {reply : AppendEntriesReply} (h : rf.handleAppendEntriesReply peer args reply = some rf') :
    Hears told rf rf' := by
  rcases handleAppendEntriesReply_eq h with heq | heq
  · rw [heq]
    exact handleHigherTerm_hears rf _
  · rw [heq]
    exact .same rfl (Nat.le_refl _) fun hl => ⟨hl, rfl⟩

theorem handleInstallSnapshotReply_hears (rf : Raft n C D) (peer : Fin n)
    (args : InstallSnapshotArgs n D) (reply : InstallSnapshotReply) :
    Hears told rf (rf.handleInstallSnapshotReply peer args reply) := by
  rcases handleInstallSnapshotReply_inv rf peer args reply with heq | ⟨_, heq⟩
  · rw [heq]
    exact handleHigherTerm_hears rf _
  · rw [heq]
    exact .same rfl (Nat.le_refl _) fun hl => ⟨hl, rfl⟩

end Raft

/-! ## Events -/

/-- A request says who leads which term. -/
def RpcArgs.Announces (leader : Fin n) (term : Nat) : RpcArgs n C D → Prop
  | .requestVote _ => False
  | .appendEntries args => args.leaderId = leader ∧ args.term = term
  | .installSnapshot args => args.leaderId = leader ∧ args.term = term

/-- A leader announces itself. -/
theorem replicateToPeer_announces {args : RpcArgs n C D} {peer leader : Fin n} {term : Nat}
    (h : rf.replicateToPeer peer = some (some args)) (hann : args.Announces leader term) :
    rf.state = .leader ∧ rf.me = leader ∧ rf.currentTerm = term := by
  obtain ⟨hl, ⟨_, rfl⟩ | ⟨_, args', hargs, rfl⟩⟩ := replicateToPeer_inv h
  · exact ⟨hl, hann⟩
  · obtain ⟨_, _, hargs⟩ := Option.bind_eq_some_iff.mp hargs
    obtain ⟨_, _, hargs⟩ := Option.bind_eq_some_iff.mp hargs
    cases hargs
    exact ⟨hl, hann⟩

namespace Cluster

variable {σ : Cluster n C D}

/-- A request on the network says it. -/
def Announced (σ : Cluster n C D) (leader : Fin n) (term : Nat) : Prop :=
  ∃ (r : Nat) (rpc : Rpc n C D), σ.rpcs[r]? = some rpc ∧ rpc.args.Announces leader term

theorem handleRequest_hears {r : Nat} {rpc : Rpc n C D} {reply : RpcReply}
    (hrpc : σ.rpcs[r]? = some rpc)
    (h : handleRequest (σ.nodes rpc.dst) rpc.args = some (rf, reply)) :
    (σ.nodes rpc.dst).Hears σ.Announced rf := by
  obtain ⟨args, _, hargs, _, h⟩ | ⟨args, _, hargs, _, h⟩ | ⟨args, _, hargs, _, h⟩ :=
    handleRequest_inv h
  · exact Raft.requestVote_hears h
  · refine Raft.appendEntries_hears h ⟨r, rpc, hrpc, ?_⟩
    rw [hargs]
    exact ⟨rfl, rfl⟩
  · refine Raft.installSnapshot_hears h ⟨r, rpc, hrpc, ?_⟩
    rw [hargs]
    exact ⟨rfl, rfl⟩

theorem handleReply_hears {rpc : Rpc n C D} {reply : RpcReply} {told : Fin n → Nat → Prop}
    (h : handleReply rf rpc reply = some rf') : rf.Hears told rf' := by
  obtain rfl | ⟨_, _, _, _, h⟩ | ⟨_, _, _, _, h⟩ | ⟨_, _, _, _, rfl⟩ := handleReply_inv h
  · exact .refl rf'
  · exact Raft.requestVoteFromPeer_hears h
  · exact Raft.handleAppendEntriesReply_hears h
  · exact Raft.handleInstallSnapshotReply_hears ..

theorem Acts.hears {e : Event n C D} {j : Fin n} (h : σ.Acts e j rf) :
    (σ.nodes j).Hears σ.Announced rf := by
  cases h with
  | idle => exact .refl _
  | elect h => exact Raft.becomeCandidate_hears h
  | start => exact Raft.start_hears _ _
  | request hrpc h => exact handleRequest_hears hrpc h
  | reply _ h => exact handleReply_hears h
  | snapshot h => exact Raft.snapshot_hears h
  | take h =>
    rw [applierTake_eq h]
    exact .same rfl (Nat.le_refl _) fun hl => ⟨hl, rfl⟩
  | send =>
    rw [applierSend_eq]
    exact .same rfl (Nat.le_refl _) fun hl => ⟨hl, rfl⟩
  | boot _ ps =>
    rw [Raft.make_eq]
    exact .forgets rfl NodeState.noConfusion

end Cluster

/-! ## Who has led -/

/-- Node `i` has led `term` by moment `t`. -/
def Led (run : ClusterRun n C D) (t : Nat) (i : Fin n) (term : Nat) : Prop :=
  ∃ u, u ≤ t ∧ (run.node u i).state = .leader ∧ (run.node u i).currentTerm = term

section Led

variable {run : ClusterRun n C D} {t u : Nat} {i j : Fin n} {term : Nat}

theorem Led.mono (h : Led run t i term) (htu : t ≤ u) : Led run u i term := by
  obtain ⟨v, hv, hlead⟩ := h
  exact ⟨v, hv.trans htu, hlead⟩

/-- At the next moment a node has led what it had led, or leads. -/
theorem Led.of_succ (h : Led run (t + 1) i term) : Led run t i term ∨
    (run.node (t + 1) i).state = .leader ∧ (run.node (t + 1) i).currentTerm = term := by
  obtain ⟨v, hv, hlead⟩ := h
  rcases Nat.le_succ_iff.mp hv with hv | rfl
  · exact Or.inl ⟨v, hv, hlead⟩
  · exact Or.inr hlead

variable {abs : Nat → Abs n C} (hA : Accompanied (CommittedPrefix run) run abs)

include hA

theorem Accompanied.led_le (h : Led run t i term) : term ≤ (run.node t i).currentTerm := by
  obtain ⟨u, hu, _, rfl⟩ := h
  have hle := (hA.mono hu).term i
  rwa [(hA.node u i).term, (hA.node t i).term] at hle

theorem Accompanied.led_unique (hi : Led run t i term) (hj : Led run u j term) : i = j := by
  obtain ⟨v, hv, hli, rfl⟩ := hi
  obtain ⟨w, hw, hlj, hterm⟩ := hj
  have hi' := hA.leader hli (Nat.le_max_left v w)
  have hj' := hA.leader hlj (Nat.le_max_right v w)
  rw [hterm] at hj'
  exact Option.some.inj (hi'.symm.trans hj')

/-- Whoever is announced has led. -/
theorem Accompanied.led_of_announced (h : (run.state t).Announced i term) : Led run t i term := by
  induction t with
  | zero =>
    obtain ⟨r, rpc, hrpc, _⟩ := h
    rw [run.start] at hrpc
    simp [Cluster.init] at hrpc
  | succ t ih =>
    obtain ⟨r, rpc, hrpc, hann⟩ := h
    rcases run.next t with ⟨e, _, hexec⟩ | hsame
    · rcases Cluster.exec_rpc hexec hrpc with hr | ⟨_, hvote⟩ | ⟨_, hsend⟩
      · exact (ih ⟨r, rpc, hr, hann⟩).mono (Nat.le_succ t)
      · rw [hvote] at hann
        exact hann.elim
      · obtain ⟨hl, hme, hterm⟩ := replicateToPeer_announces hsend hann
        cases hme.symm.trans (hA.node t rpc.src).me
        exact ⟨t, Nat.le_succ t, hl, hterm⟩
    · rw [hsame] at hrpc
      exact (ih ⟨r, rpc, hrpc, hann⟩).mono (Nat.le_succ t)

end Led

/-! ## A leader only appends -/

/-- What holds between two moments at which a node leads a term. -/
structure LeaderAppendOnly (run : ClusterRun n C D) (t u : Nat) (i : Fin n) : Prop where
  /-- It has led all the time. -/
  unbroken : ∀ {v}, t ≤ v → v ≤ u → (run.node v i).state = .leader ∧
    (run.node v i).currentTerm = (run.node t i).currentTerm
  /-- Its log has not become shorter. -/
  grows : (run.node t i).getLen ≤ (run.node u i).getLen
  /-- It still has every entry, unless a snapshot covers it. -/
  keeps : ∀ {k e}, (run.node t i).lastIncludedIndex < k → (run.node t i).getLog k = some e →
    k ≤ (run.node u i).lastIncludedIndex ∨ (run.node u i).getLog k = some e

section Leader

variable {run : ClusterRun n C D} {abs : Nat → Abs n C} {t u : Nat} {i : Fin n}

theorem ClusterRun.hears (run : ClusterRun n C D) (t : Nat) (i : Fin n) :
    (run.node t i).Hears (run.state t).Announced (run.node (t + 1) i) := by
  rcases run.next t with ⟨e, _, hexec⟩ | hsame
  · exact (Cluster.exec_acts hexec i).hears
  · simp only [ClusterRun.node, hsame]
    exact .refl _

variable (hA : Accompanied (CommittedPrefix run) run abs)

include hA

theorem Accompanied.currentTerm_mono (htu : t ≤ u) :
    (run.node t i).currentTerm ≤ (run.node u i).currentTerm := by
  have hle := (hA.mono htu).term i
  rwa [(hA.node t i).term, (hA.node u i).term] at hle

/-- A node that has led its term and leads it after the next event leads it now. -/
theorem Accompanied.leader_of_succ (hled : Led run t i (run.node t i).currentTerm)
    (hl : (run.node (t + 1) i).state = .leader) : (run.node t i).state = .leader := by
  cases run.hears t i with
  | same _ _ leads => exact (leads hl).1
  | forgets _ state => exact absurd hl state
  | heeds _ _ state => exact absurd hl state
  | wins _ _ was =>
    -- A candidate has not led its term.
    obtain ⟨v, hv, hlv, htv⟩ := hled
    have hlead := hA.leader hlv hv
    have hrole : (abs t).role i = .candidate := by
      rw [(hA.node t i).role, was]
      rfl
    have hnot := ((hA.inv t).standing hrole).2
    rw [(hA.node t i).term, ← htv] at hnot
    exact absurd hlead hnot

theorem Accompanied.unbroken (htu : t ≤ u) (hl : (run.node t i).state = .leader)
    (hl' : (run.node u i).state = .leader)
    (hterm : (run.node t i).currentTerm = (run.node u i).currentTerm) {v : Nat} (htv : t ≤ v)
    (hvu : v ≤ u) : (run.node v i).state = .leader ∧
      (run.node v i).currentTerm = (run.node t i).currentTerm := by
  have hsame : ∀ {w}, t ≤ w → w ≤ u →
      (run.node w i).currentTerm = (run.node t i).currentTerm := by
    intro w htw hwu
    have hlow := hA.currentTerm_mono (i := i) htw
    have hhigh := hA.currentTerm_mono (i := i) hwu
    omega
  -- Back from `u`, step by step.
  have hback : ∀ d v, t ≤ v → v + d = u → (run.node v i).state = .leader := by
    intro d
    induction d with
    | zero =>
      rintro v _ rfl
      exact hl'
    | succ d ih =>
      intro v htv hvu
      have hnext := ih (v + 1) (by omega) (by omega)
      exact hA.leader_of_succ ⟨t, htv, hl, (hsame htv (by omega)).symm⟩ hnext
  exact ⟨hback (u - v) v htv (by omega), hsame htv hvu⟩

end Leader

/-- While a node leads a term, it only appends to its log. -/
theorem cluster_leaderAppendOnly (run : ClusterRun n C D) {t u : Nat} (htu : t ≤ u) {i : Fin n}
    (hl : (run.node t i).state = .leader) (hl' : (run.node u i).state = .leader)
    (hterm : (run.node t i).currentTerm = (run.node u i).currentTerm) :
    LeaderAppendOnly run t u i := by
  obtain ⟨abs, hA⟩ := exists_accompanied run
  have hnode := hA.node t i
  have hnode' := hA.node u i
  -- Both logs are the log of the term, at an earlier and a later moment.
  obtain ⟨hlog, hlead, _⟩ := hnode.toNodeCore.leader_log (hA.inv t) hl
  obtain ⟨hlog', _, _⟩ := hnode'.toNodeCore.leader_log (hA.inv u) hl'
  have hpre : (abs t).log i <+: (abs u).log i := by
    rw [hlog, hlog', ← hterm]
    exact (hA.mono htu).tlog (by rw [hlead]; exact Option.some_ne_none _)
  refine ⟨hA.unbroken htu hl hl' hterm, ?_, fun {k e} hk he => ?_⟩
  · rw [hnode.repr.getLen, hnode'.repr.getLen]
    exact Nat.succ_le_succ hpre.length_le
  · obtain ⟨j, rfl⟩ : ∃ j, k = j + 1 := ⟨k - 1, by omega⟩
    have hj : j < ((abs t).log i).length := by
      have hlt := lt_getLen_of_getLog (Nat.le_of_lt hk) he
      rw [hnode.repr.getLen] at hlt
      omega
    have hslot := List.getElem?_eq_getElem hj
    cases he.symm.trans (hnode.repr.getLog_of_getElem? (Nat.le_of_lt_succ hk) hslot)
    rcases Nat.lt_or_ge j (run.node u i).lastIncludedIndex with hcovered | hstored
    · exact Or.inl hcovered
    · exact Or.inr (hnode'.repr.getLog_of_getElem? hstored (getElem?_of_isPrefix hpre hslot))

/-- Node 0 leads, appends, replicates, and compacts its log. -/
def appendEvents : List (Event 3 Nat Nat) :=
  [.electionTimeout node0, .deliver 0, .handleReply 0 (.requestVote ⟨0, true⟩),
    .start node0 (some 5), .start node0 (some 6), .replicate node0 node1, .deliver 2,
    .handleReply 2 (.appendEntries ⟨1, true, 0, some 0⟩), .snapshot node0 1 (some 5),
    .start node0 (some 7)]

/-- The entry at index 1 is covered by the snapshot, and the one at index 2 is there. -/
theorem appendRun_leaderAppendOnly : let run := ClusterRun.ofEvents appendEvents
    (run.node 5 node0).getLog 2 = some ⟨2, 1, some 6⟩ ∧
      (run.node 10 node0).lastIncludedIndex = 1 ∧ LeaderAppendOnly run 5 10 node0 :=
  ⟨by decide +kernel, by decide +kernel,
    cluster_leaderAppendOnly (ClusterRun.ofEvents appendEvents) (by decide) (by decide +kernel)
      (by decide +kernel) (by decide +kernel)⟩

end KvRaft
