import KvRaft.Cluster.Acts
import KvRaft.Cluster.Safety

/-!
# Requests in flight

`advanceCommitIndex` compares the leader's commit index with the end of the
follower's own log, not with the end of the request.  It is safe because of
what a leader sends: the whole rest of its log, which reaches its commit index.
So a follower never commits an entry that the request did not verify.

`SelfContained` is what a request is on its own, without a look at anybody's
state.  Every request that was ever sent was made by a leader whose log was
intact (`ClusterRun.produced`), and an intact log makes a self-contained request
(`LogOk.selfContained`).
-/

namespace KvRaft

variable {n : Nat} {C D : Type} {rf : Raft n C D}

/-- A request with its entries in order, and with a commit index that it
reaches. -/
structure SelfContained (args : AppendEntriesArgs n C) : Prop where
  indices : Consecutive args.prevLogIndex args.entries
  sorted : args.entries.Pairwise fun d e => d.term ≤ e.term
  terms : ∀ e ∈ args.entries, args.prevLogTerm ≤ e.term ∧ e.term ≤ args.term
  commit : args.leaderCommit ≤ args.prevLogIndex + args.entries.length

/-- No entry of the request is the head of the log that it was taken from. -/
structure WithoutHead (rf : Raft n C D) (args : AppendEntriesArgs n C) : Prop where
  entries : args.entries <:+ rf.logs.tail
  indices : ∀ e ∈ args.entries, rf.lastIncludedIndex < e.index

/-! ## Where requests come from -/

section Intact

variable {k : Nat} {args : AppendEntriesArgs n C} (hok : LogOk rf)
  (hlow : rf.lastIncludedIndex ≤ k) (hlen : k < rf.getLen)
  (h : rf.genAppendEntriesArgs k = some args)

include hok hlow hlen h

/-- An intact log makes a self-contained request. -/
theorem LogOk.selfContained : SelfContained args := by
  obtain ⟨prev, hprev⟩ := exists_getLog hlow hlen
  cases h.symm.trans (genAppendEntriesArgs_eq hlow hprev)
  rw [getLog_eq_getElem? rf hlow] at hprev
  refine ⟨fun j e he => ?_, hok.sorted.drop, fun e he => ⟨?_, ?_⟩, ?_⟩
  · simp only [List.getElem?_drop] at he
    have := hok.index _ e he
    simp only
    omega
  · -- The previous entry stands before every entry of the request.
    obtain ⟨j, hj⟩ := List.mem_iff_getElem?.mp he
    simp only [List.getElem?_drop] at hj
    obtain ⟨hprevlt, rfl⟩ := List.getElem?_eq_some_iff.mp hprev
    obtain ⟨hjlt, rfl⟩ := List.getElem?_eq_some_iff.mp hj
    exact List.pairwise_iff_getElem.mp hok.sorted _ _ hprevlt hjlt (by omega)
  · exact hok.terms e (List.mem_of_mem_drop he)
  · have hcommit := hok.commit
    rw [Raft.getLen] at hcommit hlen
    simp only [List.length_drop]
    omega

theorem LogOk.withoutHead : WithoutHead rf args := by
  have hindices := (hok.selfContained hlow hlen h).indices
  obtain ⟨prev, hprev⟩ := exists_getLog hlow hlen
  cases h.symm.trans (genAppendEntriesArgs_eq hlow hprev)
  refine ⟨?_, fun e he => ?_⟩
  · rw [← List.drop_one, Nat.add_comm, ← List.drop_drop]
    exact List.drop_suffix _ _
  · obtain ⟨j, hj⟩ := List.mem_iff_getElem?.mp he
    have := hindices j e hj
    simp only at this
    omega

end Intact

/-- Every request that was sent was made by its sender before. -/
theorem ClusterRun.produced (run : ClusterRun n C D) {t r : Nat} {rpc : Rpc n C D}
    {args : AppendEntriesArgs n C} (hrpc : (run.state t).rpcs[r]? = some rpc)
    (hargs : rpc.args = .appendEntries args) : ∃ s, s < t ∧
      (run.node s rpc.src).replicateToPeer rpc.dst = some (some (.appendEntries args)) := by
  induction t with
  | zero =>
    rw [run.start] at hrpc
    simp [Cluster.init] at hrpc
  | succ t ih =>
    -- The call is an old one, or the event of this step has made it.
    have hold : (run.state t).rpcs[r]? = some rpc → ∃ s, s < t + 1 ∧
        (run.node s rpc.src).replicateToPeer rpc.dst = some (some (.appendEntries args)) := by
      intro hrpc
      obtain ⟨s, hs, hsend⟩ := ih hrpc
      exact ⟨s, Nat.lt_succ_of_lt hs, hsend⟩
    rcases run.next t with ⟨e, _, hexec⟩ | hsame
    · rcases Cluster.exec_rpc hexec hrpc with hr | ⟨_, hvote⟩ | ⟨_, hsend⟩
      · exact hold hr
      · rw [hvote] at hargs
        cases hargs
      · rw [hargs] at hsend
        exact ⟨t, Nat.lt_succ_self t, hsend⟩
    · exact hold (hsame ▸ hrpc)

/-! ## Followers -/

/-- A request moves the commit index of its receiver at most to the leader's. -/
theorem commitIndex_of_appendEntries {rf' : Raft n C D} {args : AppendEntriesArgs n C}
    {reply : AppendEntriesReply} (h : rf.appendEntries args = some (rf', reply)) :
    rf'.commitIndex = rf.commitIndex ∨ rf'.commitIndex ≤ args.leaderCommit := by
  rcases appendEntries_inv h with ⟨_, rfl, _⟩ | ⟨_, ⟨_, _, _, rfl, _⟩ | ⟨rf₁, _, happend, rfl, _⟩⟩
  · exact Or.inl rfl
  · rw [persist_keeps]
    exact Or.inl rfl
  · rw [persist_keeps]
    have hsame : rf₁.commitIndex = rf.commitIndex := by
      rw [appendNewEntries_eq happend]
      rfl
    unfold Raft.advanceCommitIndex
    split_ifs with hlt
    · right
      simp only
      split_ifs <;> omega
    · exact Or.inl hsame

/-- Every `AppendEntries` of a run is self-contained. -/
structure RequestsSelfContained (run : ClusterRun n C D) : Prop where
  /-- What a leader makes at any moment. -/
  made : ∀ {t : Nat} {i peer : Fin n} {args : AppendEntriesArgs n C},
    (run.node t i).replicateToPeer peer = some (some (.appendEntries args)) →
      SelfContained args ∧ WithoutHead (run.node t i) args
  /-- What is in flight at any moment, and where it was taken from. -/
  inFlight : ∀ {t r : Nat} {rpc : Rpc n C D} {args : AppendEntriesArgs n C},
    (run.state t).rpcs[r]? = some rpc → rpc.args = .appendEntries args →
      SelfContained args ∧ ∃ s, s < t ∧ WithoutHead (run.node s rpc.src) args
  /-- A follower that accepts it, in any state, commits nothing beyond it. -/
  accepted : ∀ {t r : Nat} {rpc : Rpc n C D} {args : AppendEntriesArgs n C}
    {fl fl' : Raft n C D} {reply : AppendEntriesReply}, (run.state t).rpcs[r]? = some rpc →
    rpc.args = .appendEntries args → fl.appendEntries args = some (fl', reply) →
    reply.success = true → fl'.commitIndex = fl.commitIndex ∨
      fl'.commitIndex ≤ args.prevLogIndex + args.entries.length

/-- What the leader of a run makes, from its intact log. -/
theorem Accompanied.made {run : ClusterRun n C D} {abs : Nat → Abs n C}
    (hA : Accompanied (CommittedPrefix run) run abs) {t : Nat} {i peer : Fin n}
    {args : AppendEntriesArgs n C}
    (h : (run.node t i).replicateToPeer peer = some (some (.appendEntries args))) :
    SelfContained args ∧ WithoutHead (run.node t i) args := by
  have hok := (hA.node t i).toNodeCore.logOk (hA.inv t)
  obtain ⟨hl, ⟨_, hsnap⟩ | ⟨hlow, _, hgen, hargs⟩⟩ := replicateToPeer_inv h
  · cases hsnap
  cases hargs
  have hnext := (hok.peers hl peer).1
  have hprev : (run.node t i).lastIncludedIndex ≤ (run.node t i).nextIndex peer - 1 := by omega
  have hlen : (run.node t i).nextIndex peer - 1 < (run.node t i).getLen := by omega
  exact ⟨hok.selfContained hprev hlen hgen, hok.withoutHead hprev hlen hgen⟩

/-- The requests of every run are self-contained. -/
theorem cluster_requestsSelfContained (run : ClusterRun n C D) : RequestsSelfContained run := by
  obtain ⟨abs, hA⟩ := exists_accompanied run
  refine ⟨fun h => hA.made h, fun hrpc hargs => ?_, fun hrpc hargs h _ => ?_⟩
  · obtain ⟨s, hs, hsend⟩ := run.produced hrpc hargs
    obtain ⟨hself, hhead⟩ := hA.made hsend
    exact ⟨hself, s, hs, hhead⟩
  · obtain ⟨s, _, hsend⟩ := run.produced hrpc hargs
    have hcommit := (hA.made hsend).1.commit
    exact (commitIndex_of_appendEntries h).imp_right fun hle => Nat.le_trans hle hcommit

end KvRaft
