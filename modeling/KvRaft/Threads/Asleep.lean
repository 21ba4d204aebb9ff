import KvRaft.Threads.Wakeups
import KvRaft.Cluster.Delivery
import KvRaft.Instance.Writes

/-!
# A leader whose threads sleep is done

No thread sleeps over its work (`Alert`), and a leader commits what it can
(`Raft.Prompt`).  Together: when the applier and all replicators of a leader wait,
every entry that it has appended in its term is on every peer, so it is committed,
so it is applied.  The service above has got the command, and not a snapshot in its
place, because the applier sends a snapshot only for indices that are compacted
away.
-/

namespace KvRaft

open Consensus

variable {n : Nat} {C D : Type} {rf rf' : Raft n C D}

/-! ## What the applier has sent -/

/-- Snapshots that the applier sends or has sent are not ahead of the compacted
part of the log, and neither is the one that the instance started from. -/
structure Raft.Compacted (rf : Raft n C D) : Prop where
  recovered : rf.recovered ≤ rf.lastIncludedIndex
  sent : ∀ {data term k}, .snapshot data term k ∈ rf.applyCh ++ rf.applying →
    k ≤ rf.lastIncludedIndex

theorem Raft.Compacted.mono (h : rf.Compacted) (hrec : rf'.recovered = rf.recovered)
    (hmsgs : rf'.applyCh ++ rf'.applying = rf.applyCh ++ rf.applying)
    (hsnap : rf.lastIncludedIndex ≤ rf'.lastIncludedIndex) : rf'.Compacted where
  recovered := by
    rw [hrec]
    exact h.recovered.trans hsnap
  sent hmem := by
    rw [hmsgs] at hmem
    exact (h.sent hmem).trans hsnap

theorem Raft.Compacted.take (h : rf.Compacted) (htake : rf.applierTake = some rf') :
    rf'.Compacted := by
  unfold Raft.applierTake at htake
  split_ifs at htake
  · cases htake
    refine ⟨h.recovered, fun {data term k} hmem => ?_⟩
    rcases List.mem_append.mp hmem with hold | hnew
    · exact h.sent (List.mem_append_left _ hold)
    · cases List.mem_singleton.mp hnew
      exact Nat.le_refl _
  · obtain ⟨entries, _, htake⟩ := Option.bind_eq_some_iff.mp htake
    cases htake
    refine ⟨h.recovered, fun {data term k} hmem => ?_⟩
    rcases List.mem_append.mp hmem with hold | hnew
    · exact h.sent (List.mem_append_left _ hold)
    · -- What it has copied from the log are commands.
      obtain ⟨entry, _, heq⟩ := List.mem_map.mp hnew
      cases heq

/-- Other events leave the applier's messages alone. -/
theorem Cluster.Acts.frame {σ : Cluster n C D} {e : Event n C D} {j : Fin n} (h : σ.Acts e j rf)
    (hboot : σ.rebooted e ≠ some j) : (σ.nodes j).Frame rf ∨
      (e = .applierTake j ∧ (σ.nodes j).applierTake = some rf) ∨
      (e = .applierSend j ∧ rf = (σ.nodes j).applierSend) := by
  cases h with
  | idle => exact Or.inl (.refl _)
  | elect h =>
    exact Or.inl
      ((Raft.becomeCandidateTerm_writes _).frame.trans (Raft.startElection_writes h).frame)
  | start command => exact Or.inl (Raft.start_writes _ _).frame
  | request _ h => exact Or.inl (Raft.handleRequest_writes h).frame
  | reply _ h => exact Or.inl (Raft.handleReply_writes h).frame
  | snapshot h => exact Or.inl (Raft.snapshot_writes h).frame
  | take h => exact Or.inr (Or.inl ⟨rfl, h⟩)
  | send => exact Or.inr (Or.inr ⟨rfl, rfl⟩)
  | boot h ps => exact absurd h hboot

theorem Raft.messages_applierSend (rf : Raft n C D) :
    rf.applierSend.applyCh ++ rf.applierSend.applying = rf.applyCh ++ rf.applying := by
  unfold Raft.applierSend
  split
  · rfl
  · rename_i msg rest heq
    simp [heq]

theorem Raft.compacted_make (i : Fin n) (ps : Persister n C D) : (Raft.make i ps).Compacted := by
  rw [Raft.make_eq]
  exact ⟨Nat.le_refl _, fun hmem => by cases hmem⟩

theorem Cluster.exec_compacted {σ σ' : Cluster n C D} {e : Event n C D} {j : Fin n}
    (h : (σ.nodes j).Compacted) (hexec : σ.exec e = some σ') (hboot : σ.rebooted e ≠ some j)
    (hsnap : (σ.nodes j).lastIncludedIndex ≤ (σ'.nodes j).lastIncludedIndex) :
    (σ'.nodes j).Compacted := by
  have hrec := (applyCh_step hexec hboot).1
  rcases (Cluster.exec_acts hexec j).frame hboot with hframe | ⟨_, htake⟩ | ⟨_, hsend⟩
  · exact h.mono hrec (by rw [hframe.applyCh, hframe.applying]) hsnap
  · exact h.take htake
  · exact h.mono hrec (by rw [hsend, Raft.messages_applierSend]) hsnap

theorem ClusterRun.compacted (run : ClusterRun n C D) (t : Nat) (i : Fin n) :
    ((run.state t).nodes i).Compacted := by
  obtain ⟨abs, hA⟩ := exists_accompanied run
  induction t with
  | zero =>
    rw [run.start]
    exact Raft.compacted_make i .empty
  | succ t ih =>
    rcases run.next t with ⟨e, he, hexec⟩ | hsame
    · by_cases hboot : (run.state t).rebooted e = some i
      · obtain ⟨ps, hps⟩ := Cluster.exec_rebooted he hexec hboot
        rw [hps]
        exact Raft.compacted_make i ps
      · obtain ⟨_, _, hexec', href⟩ := exec_refines (hA.inv t) (hA.sim t) he
          (committedPrefix_snapOk (hA.sim t) e)
        cases hexec.symm.trans hexec'
        exact Cluster.exec_compacted ih hexec hboot (href.grows i hboot).snap
    · rw [hsame]
      exact ih

/-- Every index that the applier went through was sent, on its own or in a
snapshot. -/
theorem exists_mem_of_follows {p q : Nat} {xs : List (ApplyMsg C D)} (h : Follows p xs q) {k : Nat}
    (hp : p < k) (hq : k ≤ q) : (∃ c, .command c k ∈ xs) ∨
      ∃ data term j, .snapshot data term j ∈ xs ∧ k ≤ j := by
  induction xs generalizing p with
  | nil =>
    have : p = q := h
    omega
  | cons x xs ih =>
    cases x with
    | command c j =>
      obtain ⟨rfl, hrest⟩ := h
      by_cases hk : k = p + 1
      · exact Or.inl ⟨c, by rw [hk]; exact List.mem_cons_self⟩
      · rcases ih hrest (by omega) with ⟨d, hd⟩ | ⟨data, term, i, hmem, hi⟩
        · exact Or.inl ⟨d, List.mem_cons_of_mem _ hd⟩
        · exact Or.inr ⟨data, term, i, List.mem_cons_of_mem _ hmem, hi⟩
    | snapshot data term j =>
      obtain ⟨_, hrest⟩ := h
      by_cases hk : k ≤ j
      · exact Or.inr ⟨data, term, j, List.mem_cons_self, hk⟩
      · rcases ih hrest (by omega) with ⟨d, hd⟩ | ⟨data', term', i, hmem, hi⟩
        · exact Or.inl ⟨d, List.mem_cons_of_mem _ hd⟩
        · exact Or.inr ⟨data', term', i, List.mem_cons_of_mem _ hmem, hi⟩

/-- An applier that has sent everything it copied has sent every entry that is
applied and not compacted. -/
theorem ClusterRun.delivered_of_applied (run : ClusterRun n C D) {t : Nat} {i : Fin n} {k : Nat}
    {e : Entry C} (hnil : (run.node t i).applying = []) (hk : k ≤ (run.node t i).lastApplied)
    (hsnap : (run.node t i).lastIncludedIndex < k) (he : (run.node t i).getLog k = some e) :
    Commits run k e ∧ .command e.command k ∈ (run.node t i).applyCh := by
  obtain ⟨abs, hA⟩ := exists_accompanied run
  have hnode := hA.node t i
  have hcommits : Commits run k e := ⟨t, i, hsnap, hk.trans hnode.appliedLe, he⟩
  have hcompacted : (run.node t i).Compacted := run.compacted t i
  have hfollows := hnode.follows
  rw [hnil, List.append_nil] at hfollows
  rcases exists_mem_of_follows hfollows (hcompacted.recovered.trans_lt hsnap) hk with
    ⟨c, hc⟩ | ⟨data, term, j, hmem, hj⟩
  · obtain ⟨e', he', rfl⟩ := hA.delivered hc
    rw [hA.commits_unique hcommits he']
    exact ⟨he', hc⟩
  · have := hcompacted.sent (List.mem_append_left _ hmem)
    omega

/-! ## Nothing is left -/

/-- The applier and the replicators wait. -/
structure Threads.Asleep (th : Threads n) (me : Fin n) : Prop where
  applier : th.applier = .waiting
  replicator : ∀ peer, peer ≠ me → th.replicator peer = .waiting

/-- What is on every peer satisfies the commit rule. -/
theorem Raft.commitRule_of_all (hn : 1 ≤ n) {k : Nat} {e : Entry C} (he : rf.getLog k = some e)
    (hterm : e.term = rf.currentTerm) (hall : ∀ peer, peer ≠ rf.me → k ≤ rf.matchIndex peer) :
    rf.CommitRule k := by
  refine ⟨⟨e, he, hterm⟩, ?_⟩
  have hpeers : (Finset.univ.filter fun i => i ≠ rf.me ∧ k ≤ rf.matchIndex i) =
      Finset.univ.erase rf.me := by
    ext peer
    simp only [Finset.mem_filter, Finset.mem_univ, true_and, Finset.mem_erase, and_true,
      and_iff_left_iff_imp]
    exact hall peer
  rw [Raft.countNodesWithLogAt, hpeers, Finset.card_erase_of_mem (Finset.mem_univ _),
    Finset.card_univ, Fintype.card_fin]
  omega

/-- When the threads of a leader sleep, what it has appended in its term is
committed, and its service has got it. -/
theorem asleep_leader_delivered (run : ThreadRun n C D) {t : Nat} {i : Fin n}
    (hasleep : ((run.state t).threads i).Asleep i)
    (hl : (run.cluster.node t i).state = .leader) {k : Nat} {e : Entry C}
    (hk : (run.cluster.node t i).lastIncludedIndex < k)
    (he : (run.cluster.node t i).getLog k = some e)
    (hterm : e.term = (run.cluster.node t i).currentTerm) :
    Commits run.cluster k e ∧ .command e.command k ∈ (run.cluster.node t i).applyCh := by
  obtain ⟨abs, hA⟩ := exists_accompanied run.cluster
  have hn := run.cluster.two_le_of_leader hl
  have hnode := hA.node t i
  have hok := hnode.toNodeCore.logOk (hA.inv t)
  have halert : Alert (run.cluster.node t i) ((run.state t).threads i) := run.allAlert t i
  have hlog : (run.cluster.node t i).logs[k - (run.cluster.node t i).lastIncludedIndex]? =
      some e := by
    rw [← getLog_eq_getElem? _ (Nat.le_of_lt hk)]
    exact he
  have hindex := hok.index _ e hlog
  -- Every peer has the entry, so it is committed, so it is applied.
  have hall : ∀ peer, peer ≠ (run.cluster.node t i).me →
      k ≤ (run.cluster.node t i).matchIndex peer := by
    intro peer hpeer
    have hwait := hasleep.replicator peer (hnode.me ▸ hpeer)
    have := halert.replicator peer hpeer hwait hl e (List.mem_of_getElem? hlog) hterm
    omega
  have hcommit : k ≤ (run.cluster.node t i).commitIndex := by
    by_contra hlt
    refine (hA.promptness hn t).prompt i hl k (Nat.lt_of_not_le hlt) ?_
      (Raft.commitRule_of_all (by omega) he hterm hall)
    have := (List.getElem?_eq_some_iff.mp hlog).1
    show k < (run.cluster.node t i).lastIncludedIndex + (run.cluster.node t i).logs.length
    omega
  obtain ⟨hnil, happlied⟩ := halert.applier hasleep.applier
  exact run.cluster.delivered_of_applied hnil (hcommit.trans happlied) hk he

/-- Node 0 is elected and appends a command.  Both replicators send it, and sleep
when the peers have it.  The applier sleeps after it has sent the command. -/
def sleepyEvents : List (ThreadEvent 3 Nat Nat) :=
  [ .fire node0 .election, .tick node0 .election, .handleTick node0, .outside (.deliver 0)
  , .handleReply 0 (.requestVote ⟨0, true⟩), .outside (.start node0 (some 7))
  , .replicatorLook node0 node1, .replicatorSend node0 node1, .outside (.deliver 2)
  , .handleReply 2 (.appendEntries ⟨1, true, 0, some 0⟩), .replicatorLook node0 node1
  , .replicatorLook node0 node2, .replicatorSend node0 node2, .outside (.deliver 3)
  , .handleReply 3 (.appendEntries ⟨0, true, 0, some 0⟩), .replicatorLook node0 node2
  , .applierLook node0, .applierSend node0, .applierLook node0 ]

/-- The run of these events. -/
def sleepyRun : ThreadRun 3 Nat Nat := Run.ofEvents Scheduled.init Scheduled.exec sleepyEvents

theorem sleepyRun_asleep : ((sleepyRun.state 19).threads node0).Asleep node0 :=
  ⟨by decide +kernel, by decide +kernel⟩

/-- The leader sleeps, and its service has got the command. -/
theorem sleepyRun_delivered : ((sleepyRun.state 19).threads node0).Asleep node0 ∧
    Commits sleepyRun.cluster 1 ⟨1, 1, some 7⟩ ∧
    .command (some 7) 1 ∈ (sleepyRun.cluster.node 19 node0).applyCh :=
  ⟨sleepyRun_asleep, asleep_leader_delivered sleepyRun sleepyRun_asleep
    (by decide +kernel) (by decide +kernel) (by decide +kernel) (by decide +kernel)⟩

end KvRaft
