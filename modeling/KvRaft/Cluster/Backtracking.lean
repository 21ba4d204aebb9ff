import KvRaft.Cluster.Acts
import KvRaft.Raft.Merge

/-!
# Backing up to a follower's log

A leader and one of its peers, with nobody else around: `replicateToPeer`, the
handler of the peer, the handler of the reply, and again.  After finitely many
rounds an `AppendEntries` succeeds, and the peer holds the leader's log.

Every failed `AppendEntries` whose previous entry is not below the peer's
snapshot lowers `nextIndex`: the conflict index is at most `prevLogIndex`, and
an entry of the conflicting term that the leader finds in its own log is below
it.  So `nextIndex` reaches one of two places where it stops going down:

* below the peer's snapshot, and then the next request begins at the snapshot,
  where both logs agree;
* below the leader's own snapshot, and then the peer takes it over, or has a
  later one, which is the first case.

Contiguous logs that match (`Backup`) are not enough for that.  On both sides the
head of the log has to stand for the snapshot, and the leader's commit index must
not be below its snapshot, as in every reachable state (`backup_not_repaired`).
-/

namespace KvRaft

variable {n : Nat} {C D : Type}

/-! ## Rounds -/

/-- A reply that accepts entries. -/
def RpcReply.accepts : RpcReply → Bool
  | .appendEntries reply => reply.success
  | _ => false

/-- One round between the leader `ld` and its peer `fl`: both afterwards, and
whether the peer has accepted entries.  `none` is a panic, or a leader that
does not send. -/
def replicationRound (peer : Fin n) (ld fl : Raft n C D) :
    Option ((Raft n C D × Raft n C D) × Bool) := do
  let args ← (← ld.replicateToPeer peer)
  let (fl', reply) ← Cluster.handleRequest fl args
  let ld' ← Cluster.handleReply ld ⟨ld.me, peer, args, 0⟩ reply
  some ((ld', fl'), reply.accepts)

/-- Rounds until the peer accepts entries, at most `fuel` of them. -/
def replicate (peer : Fin n) : Nat → Raft n C D → Raft n C D → Option (Raft n C D × Raft n C D)
  | 0, _, _ => none
  | fuel + 1, ld, fl => do
    let ((ld', fl'), accepted) ← replicationRound peer ld fl
    if accepted then some (ld', fl') else replicate peer fuel ld' fl'

/-! ## The states -/

/-- The indices go on one by one from the snapshot, and the terms do not go down. -/
structure Contiguous (rf : Raft n C D) : Prop where
  index : ∀ k e, rf.logs[k]? = some e → e.index = rf.lastIncludedIndex + k
  sorted : rf.logs.Pairwise fun d e => d.term ≤ e.term

/-- The head of the log stands for the snapshot. -/
structure Anchored (rf : Raft n C D) : Prop where
  nonempty : rf.logs ≠ []
  head : ∀ e, rf.logs[0]? = some e → e.term = rf.lastIncludedTerm

structure WellFormed (rf : Raft n C D) : Prop extends Contiguous rf, Anchored rf

/-- One equal term makes two logs equal up to there, as far as both store
entries. -/
def LogsMatch (ld fl : Raft n C D) : Prop :=
  ∀ k d e, ld.lastIncludedIndex ≤ k → fl.lastIncludedIndex ≤ k → ld.getLog k = some d →
    fl.getLog k = some e → d.term = e.term →
      ∀ m, ld.lastIncludedIndex < m → fl.lastIncludedIndex < m → m ≤ k →
        fl.getLog m = ld.getLog m

/-- A leader that backs up to the log of a peer. -/
structure Backup (peer : Fin n) (ld fl : Raft n C D) : Prop where
  leader : ld.state = .leader
  term : fl.currentTerm ≤ ld.currentTerm
  leaderContiguous : Contiguous ld
  followerContiguous : Contiguous fl
  matching : LogsMatch ld fl
  /-- The leader's log covers the snapshot of the peer. -/
  covered : fl.lastIncludedIndex < ld.getLen
  /-- Where the leader still stores the entry, it has the snapshot's term. -/
  snapshotTerm : ld.lastIncludedIndex ≤ fl.lastIncludedIndex →
    ∃ e, ld.getLog fl.lastIncludedIndex = some e ∧ e.term = fl.lastIncludedTerm
  next : 1 ≤ ld.nextIndex peer ∧ ld.nextIndex peer ≤ ld.getLen
  matched : ld.matchIndex peer ≤ ld.getLen - 1

/-- A leader and a peer whose log it can repair. -/
structure Repairable (peer : Fin n) (ld fl : Raft n C D) : Prop extends Backup peer ld fl where
  leaderAnchored : Anchored ld
  followerAnchored : Anchored fl

/-- `fl'` has been repaired by `ld'`, which came from `ld` and `fl`. -/
structure Repaired (peer : Fin n) (ld fl ld' fl' : Raft n C D) : Prop where
  /-- The leader's log is the same as before. -/
  log : ld'.logs = ld.logs ∧ ld'.lastIncludedIndex = ld.lastIncludedIndex
  /-- The peer's snapshot is its own or the leader's. -/
  snapshot : fl'.lastIncludedIndex ≤ max ld.lastIncludedIndex fl.lastIncludedIndex
  entries : ∀ k, ld'.lastIncludedIndex < k → fl'.lastIncludedIndex < k → k < ld'.getLen →
    ∃ e, ld'.getLog k = some e ∧ fl'.getLog k = some e
  matched : ld'.matchIndex peer = ld'.getLen - 1

variable {peer : Fin n} {ld fl ld' fl' : Raft n C D}

theorem Repairable.leaderLog (h : Repairable peer ld fl) : WellFormed ld :=
  ⟨h.leaderContiguous, h.leaderAnchored⟩

theorem Repairable.followerLog (h : Repairable peer ld fl) : WellFormed fl :=
  ⟨h.followerContiguous, h.followerAnchored⟩

theorem WellFormed.getLog_snapshot (h : WellFormed fl) :
    ∃ e, fl.getLog fl.lastIncludedIndex = some e ∧ e.term = fl.lastIncludedTerm := by
  have hpos := List.length_pos_iff.mpr h.nonempty
  obtain ⟨e, he⟩ := exists_getLog (Nat.le_refl _) (show fl.lastIncludedIndex < fl.getLen by
    rw [Raft.getLen]
    omega)
  refine ⟨e, he, h.head e ?_⟩
  rw [getLog_eq_getElem? fl (Nat.le_refl _), Nat.sub_self] at he
  exact he

/-- What a leader sends behind index `k` is consecutive. -/
theorem WellFormed.consecutive (h : WellFormed ld) {k : Nat} (hk : ld.lastIncludedIndex ≤ k) :
    Consecutive k (ld.logs.drop (k - ld.lastIncludedIndex + 1)) := by
  intro j e he
  rw [List.getElem?_drop] at he
  rw [h.index _ e he]
  omega

/-- The stored log has not changed. -/
structure SameLog (rf rf' : Raft n C D) : Prop where
  logs : rf'.logs = rf.logs
  index : rf'.lastIncludedIndex = rf.lastIncludedIndex
  term : rf'.lastIncludedTerm = rf.lastIncludedTerm

theorem SameLog.getLog {rf rf' : Raft n C D} (h : SameLog rf rf') (k : Nat) :
    rf'.getLog k = rf.getLog k := getLog_congr h.logs h.index k

theorem SameLog.getLen {rf rf' : Raft n C D} (h : SameLog rf rf') : rf'.getLen = rf.getLen :=
  getLen_congr h.logs h.index

theorem SameLog.wellFormed {rf rf' : Raft n C D} (h : SameLog rf rf') (hrf : WellFormed rf) :
    WellFormed rf' := by
  obtain ⟨⟨hindex, hsorted⟩, hnonempty, hhead⟩ := hrf
  refine ⟨⟨?_, ?_⟩, ?_, ?_⟩
  all_goals
    rw [h.logs]
    try rw [h.index]
    try rw [h.term]
    assumption

/-- Other indices of the leader, and a higher term of the peer. -/
theorem Repairable.congr (h : Repairable peer ld fl) (hld : SameLog ld ld') (hfl : SameLog fl fl')
    (hl : ld'.state = .leader) (hterm : fl'.currentTerm ≤ ld'.currentTerm)
    (hnext : 1 ≤ ld'.nextIndex peer ∧ ld'.nextIndex peer ≤ ld.getLen)
    (hmatched : ld'.matchIndex peer ≤ ld.getLen - 1) : Repairable peer ld' fl' := by
  have hleader := hld.wellFormed h.leaderLog
  have hfollower := hfl.wellFormed h.followerLog
  refine ⟨⟨hl, hterm, hleader.toContiguous, hfollower.toContiguous, ?_, ?_, ?_, ?_, ?_⟩,
    hleader.toAnchored, hfollower.toAnchored⟩
  · intro k d e
    simp only [hld.getLog, hfl.getLog, hld.index, hfl.index]
    exact h.matching k d e
  · rw [hld.getLen, hfl.index]
    exact h.covered
  · rw [hld.getLog, hld.index, hfl.index, hfl.term]
    exact h.snapshotTerm
  · rw [hld.getLen]
    exact hnext
  · rw [hld.getLen]
    exact hmatched

/-! ## Replies -/

theorem handleAppendEntriesReply_leader {args : AppendEntriesArgs n C}
    {reply : AppendEntriesReply} (hl : ld.state = .leader) (hargs : ld.currentTerm = args.term)
    (hreply : reply.term ≤ ld.currentTerm) :
    ld.handleAppendEntriesReply peer args reply =
      if reply.success = false then ld.resolveConflict peer args reply
      else (ld.advancePeerIndices peer args).updateCommitIndex := by
  unfold Raft.handleAppendEntriesReply Raft.shouldIgnoreReply Raft.handleHigherTerm
  rw [if_neg (Nat.not_lt_of_le hreply)]
  simp [hl, hargs]

/-- A failed request without a conflicting term. -/
theorem resolveConflict_none {args : AppendEntriesArgs n C} {reply : AppendEntriesReply}
    (hprev : ld.lastIncludedIndex ≤ args.prevLogIndex) (hterm : reply.conflictTerm = none) :
    ld.resolveConflict peer args reply =
      some { ld with nextIndex := Function.update ld.nextIndex peer reply.conflictIndex } := by
  unfold Raft.resolveConflict
  rw [if_neg (Nat.not_lt_of_le hprev), hterm]

/-- A failed request with a conflicting term: the leader continues behind its
own last entry of that term, or at the conflict index. -/
theorem resolveConflict_some (peer : Fin n) {args : AppendEntriesArgs n C}
    (reply : AppendEntriesReply) {t : Nat} (hprev : ld.lastIncludedIndex ≤ args.prevLogIndex)
    (hlen : args.prevLogIndex < ld.getLen) (hterm : reply.conflictTerm = some t) :
    ∃ next, ld.resolveConflict peer args reply =
        some { ld with nextIndex := Function.update ld.nextIndex peer next } ∧
      (next = reply.conflictIndex ∨ ∃ k e, next = k + 1 ∧ k ≤ args.prevLogIndex ∧
        ld.getLog k = some e ∧ e.term = t) := by
  unfold Raft.resolveConflict
  rw [if_neg (Nat.not_lt_of_le hprev), hterm]
  rcases findLastIndexOfTerm_cases t args.prevLogIndex hlen with
    hs | ⟨k, e, hk, hle, he, heterm, hs⟩
  · simp only [hs]
    exact ⟨_, rfl, Or.inl rfl⟩
  · simp only [hs]
    refine ⟨_, rfl, Or.inr ⟨k, e, ?_, hle, he, heterm⟩⟩
    rw [if_pos (by omega), Int.toNat_natCast]

/-! ## One round -/

section Append

variable {args : AppendEntriesArgs n C}

theorem replicationRound_append (reply : AppendEntriesReply)
    (hsend : ld.replicateToPeer peer = some (some (.appendEntries args)))
    (hreq : fl.appendEntries args = some (fl', reply))
    (hrep : ld.handleAppendEntriesReply peer args reply = some ld') :
    replicationRound peer ld fl = some ((ld', fl'), reply.success) := by
  simp [replicationRound, hsend, Cluster.handleRequest, hreq, Cluster.handleReply, hrep,
    RpcReply.accepts]

variable (hl : ld.state = .leader) (hterm : fl.currentTerm ≤ ld.currentTerm)
  (hsend : ld.replicateToPeer peer = some (some (.appendEntries args)))
  (hargs : args.term = ld.currentTerm) (hme : args.leaderId = ld.me)

include hl hterm hsend hargs hme

/-- A request that the peer refuses. -/
theorem replicationRound_conflict {index : Nat} {term : Option Nat}
    (hconflict : (fl.follow ld.currentTerm ld.me).handleConsistencyConflict args =
      some (some (index, term)))
    (hresolve : ld.resolveConflict peer args ⟨fl.currentTerm, false, index, term⟩ = some ld') :
    replicationRound peer ld fl =
      some ((ld', (fl.follow ld.currentTerm ld.me).persist), false) := by
  refine replicationRound_append ⟨fl.currentTerm, false, index, term⟩ hsend ?_ ?_
  · rw [appendEntries_eq (by omega), hargs, hme, hconflict]
    rfl
  · rw [handleAppendEntriesReply_leader hl hargs.symm hterm, if_pos rfl]
    exact hresolve

/-- A request that the peer accepts. -/
theorem replicationRound_accept {fl₁ : Raft n C D}
    (hcheck : (fl.follow ld.currentTerm ld.me).handleConsistencyConflict args = some none)
    (happend : (fl.follow ld.currentTerm ld.me).appendNewEntries args.entries = some fl₁)
    (hcount : (ld.advancePeerIndices peer args).updateCommitIndex = some ld') :
    replicationRound peer ld fl =
      some ((ld', (fl₁.advanceCommitIndex args.leaderCommit).persist), true) := by
  refine replicationRound_append ⟨fl.currentTerm, true, 0, some 0⟩ hsend ?_ ?_
  · rw [appendEntries_eq (by omega), hargs, hme, hcheck]
    simp only [Option.bind_some, happend]
  · rw [handleAppendEntriesReply_leader hl hargs.symm hterm, if_neg (by simp)]
    exact hcount

end Append

/-- After a refused request the two can still be repaired, from another
`nextIndex`. -/
theorem Repairable.retry (h : Repairable peer ld fl) {j : Nat} (hpos : 1 ≤ j)
    (hlen : j ≤ ld.getLen) (leader : Fin n) :
    Repairable peer { ld with nextIndex := Function.update ld.nextIndex peer j }
      (fl.follow ld.currentTerm leader).persist := by
  rw [persist_keeps]
  refine h.congr ⟨rfl, rfl, rfl⟩ ⟨rfl, rfl, rfl⟩ h.leader (Nat.le_refl _) ?_ h.matched
  simp only [Function.update_self]
  exact ⟨hpos, hlen⟩

/-- An accepted request repairs the peer. -/
theorem Repairable.accept (h : Repairable peer ld fl) {prev : Nat} {d e : Entry C}
    (hlow : ld.lastIncludedIndex ≤ prev) (hlow' : fl.lastIncludedIndex ≤ prev)
    (hd : ld.getLog prev = some d) (he : fl.getLog prev = some e) (hde : d.term = e.term)
    {args : AppendEntriesArgs n C} (hprev : args.prevLogIndex = prev)
    (hentries : args.entries = ld.logs.drop (prev - ld.lastIncludedIndex + 1))
    {fl₁ : Raft n C D}
    (happend : (fl.follow ld.currentTerm ld.me).appendNewEntries args.entries = some fl₁)
    (hcount : (ld.advancePeerIndices peer args).updateCommitIndex = some ld') :
    Repaired peer ld fl ld' (fl₁.advanceCommitIndex args.leaderCommit).persist := by
  have hlen := lt_getLen_of_getLog hlow hd
  have hlen' := lt_getLen_of_getLog hlow' he
  -- The leader keeps its log and counts the peer up to its end.
  have hld' := updateCommitScan_eq hcount
  rw [advancePeerIndices_eq] at hld'
  have hlog : ld'.logs = ld.logs ∧ ld'.lastIncludedIndex = ld.lastIncludedIndex := by
    rw [hld']
    exact ⟨rfl, rfl⟩
  have hnew : args.prevLogIndex + args.entries.length = ld.getLen - 1 := by
    rw [hentries, hprev, List.length_drop, Raft.getLen]
    rw [Raft.getLen] at hlen
    omega
  have hmatch : (ld.advancePeerIndices peer args).matchIndex peer = ld.getLen - 1 := by
    have hold := h.matched
    simp only [Raft.advancePeerIndices, hnew]
    split_ifs with hgt
    · exact Function.update_self ..
    · omega
  -- The peer keeps its snapshot and its entries up to `prev`, and behind them
  -- it has the entries of the request, or its own entries of the same terms.
  obtain ⟨hbelow, habove⟩ := appendNewEntries_getLog (hentries ▸ h.leaderLog.consecutive hlow)
    (show (fl.follow ld.currentTerm ld.me).lastIncludedIndex ≤ prev from hlow') hlen' happend
  have hsnap : (fl₁.advanceCommitIndex args.leaderCommit).persist.lastIncludedIndex =
      fl.lastIncludedIndex := by
    rw [persist_keeps, advanceCommitIndex_eq, appendNewEntries_eq happend]
    rfl
  have hget : ∀ k, (fl₁.advanceCommitIndex args.leaderCommit).persist.getLog k = fl₁.getLog k := by
    intro k
    rw [persist_keeps, advanceCommitIndex_eq]
    rfl
  refine ⟨hlog, hsnap ▸ Nat.le_max_right _ _, fun k hk hk' hkl => ?_, ?_⟩
  · rw [hsnap] at hk'
    rw [hlog.2] at hk
    rw [getLen_congr hlog.1 hlog.2] at hkl
    rw [getLog_congr hlog.1 hlog.2, hget]
    obtain ⟨x, hx⟩ := exists_getLog (Nat.le_of_lt hk) hkl
    refine ⟨x, hx, ?_⟩
    rcases Nat.lt_or_ge prev k with hpk | hkp
    · obtain ⟨j, rfl⟩ : ∃ j, k = prev + 1 + j := ⟨k - (prev + 1), by omega⟩
      have hslot : args.entries[j]? = some x := by
        rw [hentries, List.getElem?_drop, ← hx, getLog_eq_getElem? ld (Nat.le_of_lt hk)]
        congr 1
        omega
      obtain ⟨y, hy, hterm, rfl | hkept⟩ := habove j x hslot
      · exact hy
      · -- An entry that was kept has the leader's term, so it is the leader's.
        have heq := h.matching (prev + 1 + j) x y (Nat.le_of_lt hk) (Nat.le_of_lt hk') hx hkept
          hterm.symm (prev + 1 + j) hk hk' (Nat.le_refl _)
        rw [hy, ← hx, ← heq]
        exact hkept.symm
    · rw [hbelow k (Nat.le_of_lt hk') hkp]
      exact (h.matching prev d e hlow hlow' hd he hde k hk hk' hkp).trans hx
  · rw [getLen_congr hlog.1 hlog.2, hld']
    exact hmatch

/-- The request of a round, when the leader stores the previous entry. -/
theorem replicateToPeer_append {prev : Nat} {d : Entry C} (hl : ld.state = .leader)
    (hprev : ld.nextIndex peer = prev + 1) (hlow : ld.lastIncludedIndex ≤ prev)
    (hd : ld.getLog prev = some d) :
    ∃ args, ld.replicateToPeer peer = some (some (.appendEntries args)) ∧
      args.term = ld.currentTerm ∧ args.leaderId = ld.me ∧ args.prevLogIndex = prev ∧
      args.prevLogTerm = d.term ∧
      args.entries = ld.logs.drop (prev - ld.lastIncludedIndex + 1) := by
  have hgen := genAppendEntriesArgs_eq hlow hd
  obtain ⟨args, hargs⟩ : ∃ args, ld.genAppendEntriesArgs prev = some args := ⟨_, hgen⟩
  refine ⟨args, ?_, ?_⟩
  · rw [Raft.replicateToPeer, if_neg (not_not.mpr hl), if_neg (by omega), hprev,
      Nat.add_sub_cancel, hargs]
    rfl
  · cases hargs.symm.trans hgen
    exact ⟨rfl, rfl, rfl, rfl, rfl⟩

/-- A round of `AppendEntries` repairs the peer, or moves `nextIndex`: up to the
peer's snapshot when the request began below it, and down otherwise. -/
theorem Repairable.append_round (h : Repairable peer ld fl)
    (hcommit : ld.lastIncludedIndex ≤ ld.commitIndex)
    (hn : ld.lastIncludedIndex < ld.nextIndex peer) :
    (∃ ld' fl', replicationRound peer ld fl = some ((ld', fl'), true) ∧
      Repaired peer ld fl ld' fl') ∨
    ∃ j, replicationRound peer ld fl =
        some (({ ld with nextIndex := Function.update ld.nextIndex peer j },
          (fl.follow ld.currentTerm ld.me).persist), false) ∧
      (ld.nextIndex peer ≤ fl.lastIncludedIndex ∧ j = fl.lastIncludedIndex + 1 ∨
        fl.lastIncludedIndex + 1 < ld.nextIndex peer ∧ 1 ≤ j ∧ j < ld.nextIndex peer) := by
  have hlast := h.next.2
  obtain ⟨prev, hprev⟩ : ∃ prev, ld.nextIndex peer = prev + 1 := ⟨ld.nextIndex peer - 1, by omega⟩
  have hlow : ld.lastIncludedIndex ≤ prev := by omega
  have hlen : prev < ld.getLen := by omega
  obtain ⟨d, hd⟩ := exists_getLog hlow hlen
  obtain ⟨args, hsend, hargs, hme, hidx, hterm, hentries⟩ :=
    replicateToPeer_append h.leader hprev hlow hd
  -- Becoming a follower does not change what the check looks at.
  have hsnap : (fl.follow ld.currentTerm ld.me).lastIncludedIndex = fl.lastIncludedIndex := rfl
  have hlog : (fl.follow ld.currentTerm ld.me).getLog = fl.getLog := rfl
  have hcheck := handleConsistencyConflict_cases (fl.follow ld.currentTerm ld.me) args
  rw [hsnap, hlog, show (fl.follow ld.currentTerm ld.me).getLen = fl.getLen from rfl, hidx,
    hterm] at hcheck
  have hconflict := fun {index term ld'} =>
    @replicationRound_conflict n C D peer ld fl ld' args h.leader h.term hsend hargs hme index term
  rcases hcheck with ⟨hlt, hcheck⟩ | ⟨hge, ⟨hout, hcheck⟩ | ⟨e, he, ⟨heq, hcheck⟩ |
    ⟨hne, j, hj, hjlt, hcheck⟩⟩⟩
  · exact Or.inr ⟨_, hconflict hcheck (resolveConflict_none (hidx ▸ hlow) rfl),
      Or.inl ⟨by omega, rfl⟩⟩
  · have hpos := List.length_pos_iff.mpr h.followerLog.nonempty
    have hfl : fl.lastIncludedIndex < fl.getLen := by
      rw [Raft.getLen]
      omega
    exact Or.inr ⟨fl.getLen, hconflict hcheck (resolveConflict_none (hidx ▸ hlow) rfl),
      Or.inr ⟨by omega, by omega, by omega⟩⟩
  · -- The previous entry is there.
    obtain ⟨_, _, happend⟩ := appendNewEntries_splice (hentries ▸ h.leaderLog.consecutive hlow)
      (show (fl.follow ld.currentTerm ld.me).lastIncludedIndex ≤ prev from hge)
      (lt_getLen_of_getLog hge he)
    obtain ⟨ld', hcount⟩ : ∃ ld', (ld.advancePeerIndices peer args).updateCommitIndex =
        some ld' := by
      have hpos : 0 < ld.getLen := by omega
      rw [advancePeerIndices_eq]
      exact exists_updateCommitIndex (by exact hcommit) (by exact hpos)
    exact Or.inl ⟨_, _,
      replicationRound_accept h.leader h.term hsend hargs hme hcheck happend hcount,
      h.accept hlow hge hd he heq.symm hidx hentries happend hcount⟩
  · -- At the snapshot of the peer the leader has an entry of the same term.
    have hlt : fl.lastIncludedIndex < prev := by
      refine Nat.lt_of_le_of_ne hge fun hat => hne ?_
      subst hat
      obtain ⟨x, hx, hxterm⟩ := h.followerLog.getLog_snapshot
      obtain ⟨y, hy, hyterm⟩ := h.snapshotTerm hlow
      cases he.symm.trans hx
      cases hd.symm.trans hy
      rw [hxterm, hyterm]
    obtain ⟨next, hresolve, hnext⟩ := resolveConflict_some peer
      ⟨fl.currentTerm, false, j + 1, some e.term⟩ (hidx ▸ hlow) (hidx ▸ hlen) rfl
    refine Or.inr ⟨next, hconflict hcheck hresolve, Or.inr ⟨by omega, ?_⟩⟩
    have hj := hjlt hlt
    rcases hnext with rfl | ⟨k, x, rfl, hk, hx, hxterm⟩
    · exact ⟨by simp, by simp only; omega⟩
    · -- The leader's entry at `prev` has another term.
      have hkp : k ≠ prev := by
        rintro rfl
        cases hd.symm.trans hx
        exact hne hxterm.symm
      rw [hidx] at hk
      exact ⟨by omega, by omega⟩

/-! ## Snapshots -/

/-- A log that was cut at the leader's snapshot, with the entries behind it. -/
theorem Repairable.cut (h : Repairable peer ld fl)
    (hlt : fl.lastIncludedIndex < ld.lastIncludedIndex) {e : Entry C}
    (he : fl.getLog ld.lastIncludedIndex = some e) (hterm : e.term = ld.lastIncludedTerm)
    (hlogs : fl'.logs = fl.logs.drop (ld.lastIncludedIndex - fl.lastIncludedIndex))
    (hindex : fl'.lastIncludedIndex = ld.lastIncludedIndex)
    (hsnap : fl'.lastIncludedTerm = ld.lastIncludedTerm) : WellFormed fl' ∧ LogsMatch ld fl' := by
  rw [getLog_eq_getElem? fl (Nat.le_of_lt hlt)] at he
  have hlen := (List.getElem?_eq_some_iff.mp he).1
  refine ⟨⟨⟨fun k x hx => ?_, ?_⟩, ?_, fun x hx => ?_⟩, ?_⟩
  · rw [hlogs, List.getElem?_drop] at hx
    rw [h.followerLog.index _ x hx, hindex]
    omega
  · rw [hlogs]
    exact h.followerLog.sorted.drop
  · rw [hlogs, ← List.length_pos_iff, List.length_drop]
    omega
  · rw [hlogs, List.getElem?_drop, Nat.add_zero, he] at hx
    cases hx
    rw [hterm, hsnap]
  · have hget : ∀ k, ld.lastIncludedIndex ≤ k → fl'.getLog k = fl.getLog k := by
      intro k hk
      rw [getLog_eq_getElem? fl' (hindex ▸ hk), getLog_eq_getElem? fl (by omega), hlogs,
        List.getElem?_drop, hindex]
      congr 1
      omega
    intro k x y hk _ hx hy hxy m hm _ hmk
    rw [hget k hk] at hy
    rw [hget m (Nat.le_of_lt hm)]
    exact h.matching k x y hk (by omega) hx hy hxy m hm (by omega) hmk

theorem contiguous_of_snapshot {rf : Raft n C D} {index term : Nat} {command : Option C}
    (hlogs : rf.logs = [⟨index, term, command⟩]) (hindex : rf.lastIncludedIndex = index) :
    Contiguous rf := by
  refine ⟨fun k e he => ?_, ?_⟩
  · rw [hlogs, List.getElem?_singleton] at he
    split_ifs at he with hk
    cases he
    rw [hindex, hk, Nat.add_zero]
  · rw [hlogs]
    exact List.pairwise_singleton ..

/-- A log that consists of a snapshot. -/
theorem wellFormed_of_snapshot {rf : Raft n C D} {index term : Nat} {command : Option C}
    (hlogs : rf.logs = [⟨index, term, command⟩]) (hindex : rf.lastIncludedIndex = index)
    (hterm : rf.lastIncludedTerm = term) : WellFormed rf := by
  refine ⟨contiguous_of_snapshot hlogs hindex, ?_, fun e he => ?_⟩
  · rw [hlogs]
    exact List.cons_ne_nil _ _
  · rw [hlogs] at he
    cases he
    exact hterm.symm

/-- Such a log matches every other, because nothing lies above the snapshot. -/
theorem logsMatch_of_snapshot {e : Entry C} (hlogs : fl.logs = [e]) : LogsMatch ld fl := by
  intro k x y _ hk _ hy _ m _ hm hmk
  rw [getLog_eq_getElem? fl hk, hlogs, List.getElem?_singleton] at hy
  split_ifs at hy
  omega

theorem handleInstallSnapshotReply_leader (peer : Fin n) (args : InstallSnapshotArgs n D)
    (reply : InstallSnapshotReply) (hl : ld.state = .leader) (hargs : ld.currentTerm = args.term)
    (hreply : reply.term ≤ ld.currentTerm)
    (hn : ld.nextIndex peer ≤ args.lastIncludedIndex) :
    ld.handleInstallSnapshotReply peer args reply = { ld with
      nextIndex := Function.update ld.nextIndex peer (args.lastIncludedIndex + 1)
      matchIndex := Function.update ld.matchIndex peer
        (max args.lastIncludedIndex (ld.matchIndex peer)) } := by
  unfold Raft.handleInstallSnapshotReply Raft.handleHigherTerm
  rw [if_neg (Nat.not_lt_of_le hreply)]
  simp only [Bool.false_eq_true, if_false, hl, hargs, and_self, if_true]
  rw [if_pos (Nat.lt_succ_of_le hn)]
  split_ifs with hgt
  · rw [Nat.max_eq_left (Nat.le_of_lt hgt)]
  · rw [Nat.max_eq_right (Nat.le_of_not_lt hgt), Function.update_eq_self]

/-- A peer with the leader's snapshot can be repaired from there. -/
theorem Repairable.at_snapshot (h : Repairable peer ld fl)
    (hindex : fl'.lastIncludedIndex = ld.lastIncludedIndex)
    (hsnap : fl'.lastIncludedTerm = ld.lastIncludedTerm)
    (hterm : fl'.currentTerm = ld.currentTerm) (hlog : WellFormed fl' ∧ LogsMatch ld fl') :
    Repairable peer ld fl' := by
  have hpos := List.length_pos_iff.mpr h.leaderLog.nonempty
  refine ⟨⟨h.leader, Nat.le_of_eq hterm, h.leaderContiguous, hlog.1.toContiguous, hlog.2, ?_,
    fun _ => ?_, h.next, h.matched⟩, h.leaderAnchored, hlog.1.toAnchored⟩
  · rw [hindex, Raft.getLen]
    omega
  · rw [hindex, hsnap]
    exact h.leaderLog.getLog_snapshot

/-- The peer takes the leader's snapshot over, unless it has a later one. -/
theorem Repairable.installSnapshot (h : Repairable peer ld fl) :
    ∃ fl', fl.installSnapshot ld.genInstallSnapshotArgs = some (fl', ⟨fl.currentTerm⟩) ∧
      Repairable peer ld fl' ∧ ld.lastIncludedIndex ≤ fl'.lastIncludedIndex ∧
      fl'.lastIncludedIndex ≤ max ld.lastIncludedIndex fl.lastIncludedIndex := by
  have hge : ¬ ld.genInstallSnapshotArgs.term < fl.currentTerm := Nat.not_lt_of_le h.term
  obtain ⟨fl₁, hheed⟩ : ∃ fl₁, fl₁ = fl.heed ld.currentTerm ld.me := ⟨_, rfl⟩
  have hterm : fl₁.currentTerm = ld.currentTerm := hheed ▸ heed_currentTerm fl hge ld.me
  have hsame : SameLog fl fl₁ := by
    rw [hheed, heed_keeps]
    exact ⟨rfl, rfl, rfl⟩
  have heq := installSnapshot_eq hge
  simp only [Raft.genInstallSnapshotArgs, ← hheed, hsame.index] at heq
  by_cases hle : ld.lastIncludedIndex ≤ fl.lastIncludedIndex
  · rw [if_pos hle] at heq
    exact ⟨_, heq, h.congr ⟨rfl, rfl, rfl⟩ hsame h.leader (Nat.le_of_eq hterm) h.next h.matched,
      hsame.index.symm ▸ hle, hsame.index.symm ▸ Nat.le_max_right _ _⟩
  · rw [if_neg hle] at heq
    have hlt := Nat.lt_of_not_le hle
    rcases truncateLogWithSnapshot_cases fl₁ ld.lastIncludedTerm
      (hsame.index.symm ▸ Nat.le_of_lt hlt) with ⟨e, he, heterm, hcut⟩ | hcut
    · rw [hcut] at heq
      rw [hsame.getLog] at he
      refine ⟨_, heq, h.at_snapshot rfl rfl hterm (h.cut hlt he heterm ?_ rfl rfl), Nat.le_refl _,
        Nat.le_max_left _ _⟩
      simp only [hsame.logs, hsame.index]
    · rw [hcut] at heq
      exact ⟨_, heq, h.at_snapshot rfl rfl hterm
        ⟨wellFormed_of_snapshot rfl rfl rfl, logsMatch_of_snapshot rfl⟩, Nat.le_refl _,
        Nat.le_max_left _ _⟩

/-- A round of `InstallSnapshot` leaves the peer with a snapshot that is not
below the leader's, and the leader continues behind its own. -/
theorem Repairable.install_round (h : Repairable peer ld fl)
    (hn : ld.nextIndex peer ≤ ld.lastIncludedIndex) :
    ∃ ld' fl', replicationRound peer ld fl = some ((ld', fl'), false) ∧
      Repairable peer ld' fl' ∧ SameLog ld ld' ∧ ld'.commitIndex = ld.commitIndex ∧
      ld'.nextIndex peer = ld.lastIncludedIndex + 1 ∧
      ld.lastIncludedIndex ≤ fl'.lastIncludedIndex ∧
      fl'.lastIncludedIndex ≤ max ld.lastIncludedIndex fl.lastIncludedIndex := by
  have hsend : ld.replicateToPeer peer =
      some (some (.installSnapshot ld.genInstallSnapshotArgs)) := by
    rw [Raft.replicateToPeer, if_neg (not_not.mpr h.leader), if_pos hn]
  have hrep := handleInstallSnapshotReply_leader peer ld.genInstallSnapshotArgs
    ⟨fl.currentTerm⟩ h.leader rfl h.term hn
  obtain ⟨fl', hreq, hfl', hlow, hhigh⟩ := h.installSnapshot
  have hround : replicationRound peer ld fl = some ((ld.handleInstallSnapshotReply peer
      ld.genInstallSnapshotArgs ⟨fl.currentTerm⟩, fl'), false) := by
    simp only [replicationRound, hsend, Option.bind_eq_bind, Option.bind_some,
      Cluster.handleRequest, hreq, Cluster.handleReply]
    rfl
  rw [hrep] at hround
  have hpos := List.length_pos_iff.mpr h.leaderLog.nonempty
  have hlen : ld.lastIncludedIndex + 1 ≤ ld.getLen := by
    rw [Raft.getLen]
    omega
  have hmatched := h.matched
  refine ⟨_, fl', hround, ?_, ⟨rfl, rfl, rfl⟩, rfl, Function.update_self .., hlow, hhigh⟩
  refine hfl'.congr ⟨rfl, rfl, rfl⟩ ⟨rfl, rfl, rfl⟩ h.leader hfl'.term ?_ ?_
  · simp only [Function.update_self]
    exact ⟨Nat.le_add_left 1 _, hlen⟩
  · simp only [Function.update_self, Raft.genInstallSnapshotArgs]
    omega

/-! ## All rounds -/

/-- At most `fuel` rounds repair the peer. -/
def Repairs (peer : Fin n) (fuel : Nat) (ld fl : Raft n C D) : Prop :=
  ∃ ld' fl', replicate peer fuel ld fl = some (ld', fl') ∧ Repaired peer ld fl ld' fl'

theorem Repairs.of_accepted {fuel : Nat}
    (hround : replicationRound peer ld fl = some ((ld', fl'), true))
    (h : Repaired peer ld fl ld' fl') : Repairs peer (fuel + 1) ld fl := by
  refine ⟨ld', fl', ?_, h⟩
  simp [replicate, hround]

/-- A refused round before the others. -/
theorem Repairs.of_refused {fuel : Nat}
    (hround : replicationRound peer ld fl = some ((ld', fl'), false)) (hld : SameLog ld ld')
    (hmax : fl'.lastIncludedIndex ≤ max ld.lastIncludedIndex fl.lastIncludedIndex)
    (h : Repairs peer fuel ld' fl') : Repairs peer (fuel + 1) ld fl := by
  obtain ⟨ld₂, fl₂, hrest, hlog, hsnap, hentries, hmatched⟩ := h
  refine ⟨ld₂, fl₂, ?_, ⟨hlog.1.trans hld.logs, hlog.2.trans hld.index⟩, ?_, hentries, hmatched⟩
  · simp [replicate, hround, hrest]
  · rw [hld.index] at hsnap
    omega

/-- A request that begins at the peer's snapshot is accepted. -/
theorem Repairable.repairs_at_snapshot (h : Repairable peer ld fl)
    (hcommit : ld.lastIncludedIndex ≤ ld.commitIndex)
    (hle : ld.lastIncludedIndex ≤ fl.lastIncludedIndex)
    (hn : ld.nextIndex peer = fl.lastIncludedIndex + 1) (fuel : Nat) :
    Repairs peer (fuel + 1) ld fl := by
  rcases h.append_round hcommit (by omega) with ⟨ld', fl', hround, hdone⟩ | ⟨j, _, hj⟩
  · exact .of_accepted hround hdone
  · omega

/-- A request that begins below the peer's snapshot is refused, and the next one
begins at the snapshot. -/
theorem Repairable.repairs_below_snapshot (h : Repairable peer ld fl)
    (hcommit : ld.lastIncludedIndex ≤ ld.commitIndex)
    (hlow : ld.lastIncludedIndex < ld.nextIndex peer)
    (hn : ld.nextIndex peer ≤ fl.lastIncludedIndex) (fuel : Nat) :
    Repairs peer (fuel + 2) ld fl := by
  have hcov := h.covered
  rcases h.append_round hcommit hlow with ⟨ld', fl', hround, hdone⟩ | ⟨j, hround, hj⟩
  · exact .of_accepted hround hdone
  · obtain rfl : j = fl.lastIncludedIndex + 1 := by omega
    have hnext := h.retry (j := fl.lastIncludedIndex + 1) (by omega) (by omega) ld.me
    have hsnap : (fl.follow ld.currentTerm ld.me).persist.lastIncludedIndex =
        fl.lastIncludedIndex := by rw [persist_keeps, Raft.follow]
    refine .of_refused hround ⟨rfl, rfl, rfl⟩ (hsnap ▸ Nat.le_max_right _ _)
      (hnext.repairs_at_snapshot hcommit ?_ ?_ fuel)
    · rw [hsnap]
      exact Nat.le_of_lt (Nat.lt_of_lt_of_le hlow hn)
    · rw [hsnap]
      exact Function.update_self ..

/-- A leader that has compacted the previous entry sends its snapshot first. -/
theorem Repairable.repairs_by_snapshot (h : Repairable peer ld fl)
    (hcommit : ld.lastIncludedIndex ≤ ld.commitIndex)
    (hn : ld.nextIndex peer ≤ ld.lastIncludedIndex) (fuel : Nat) :
    Repairs peer (fuel + 3) ld fl := by
  obtain ⟨ld', fl', hround, h', hld, hc, hnext, hlow, hhigh⟩ := h.install_round hn
  have hcommit' : ld'.lastIncludedIndex ≤ ld'.commitIndex := by
    rw [hld.index, hc]
    exact hcommit
  refine .of_refused hround hld hhigh ?_
  rcases Nat.lt_or_ge ld.lastIncludedIndex fl'.lastIncludedIndex with hlt | hge
  · exact h'.repairs_below_snapshot hcommit' (by rw [hld.index]; omega) (by omega) fuel
  · exact h'.repairs_at_snapshot hcommit' (by rw [hld.index]; omega) (by omega) (fuel + 1)

/-- The induction on `nextIndex`. -/
theorem Repairable.repairs {N : Nat} : ∀ {ld fl : Raft n C D} {fuel : Nat},
    Repairable peer ld fl → ld.lastIncludedIndex ≤ ld.commitIndex → ld.nextIndex peer ≤ N →
    N + 3 ≤ fuel → Repairs peer fuel ld fl := by
  induction N with
  | zero =>
    intro ld fl fuel h _ hN _
    have := h.next
    omega
  | succ N ih =>
    intro ld fl fuel h hcommit hN hfuel
    obtain ⟨fuel, rfl⟩ : ∃ f, fuel = f + 3 := ⟨fuel - 3, by omega⟩
    rcases Nat.lt_or_ge ld.lastIncludedIndex (ld.nextIndex peer) with hlow | hlow
    · rcases Nat.lt_or_ge fl.lastIncludedIndex (ld.nextIndex peer) with hfl | hfl
      · rcases h.append_round hcommit hlow with ⟨ld', fl', hround, hdone⟩ | ⟨j, hround, hj⟩
        · exact .of_accepted hround hdone
        · have hlast := h.next.2
          have hnext := h.retry (j := j) (by omega) (by omega) ld.me
          refine .of_refused hround ⟨rfl, rfl, rfl⟩ ?_ (ih hnext hcommit ?_ (by omega))
          · rw [persist_keeps]
            exact Nat.le_max_right _ _
          · simp only [Function.update_self]
            omega
      · exact h.repairs_below_snapshot hcommit hlow hfl (fuel + 1)
    · exact h.repairs_by_snapshot hcommit hlow fuel

/-- A leader repairs the log of a peer, in at most three rounds more than
`nextIndex`. -/
theorem replicate_repairs {peer : Fin n} {ld fl : Raft n C D} (h : Repairable peer ld fl)
    (hcommit : ld.lastIncludedIndex ≤ ld.commitIndex) :
    Repairs peer (ld.nextIndex peer + 3) ld fl :=
  h.repairs hcommit (Nat.le_refl _) (Nat.le_refl _)

/-! ## What the leader needs

The head of the log on both sides, and a commit index that is not below the
snapshot.  Without any of the three, the rounds may never come to an end. -/

/-- A round that is refused and leads to a state of the same kind goes on for ever. -/
theorem replicate_eq_none_of_loop {peer : Fin n} {P : Raft n C D → Raft n C D → Prop}
    (hround : ∀ ld fl, P ld fl →
      ∃ ld' fl', replicationRound peer ld fl = some ((ld', fl'), false) ∧ P ld' fl')
    (fuel : Nat) {ld fl : Raft n C D} (h : P ld fl) : replicate peer fuel ld fl = none := by
  induction fuel generalizing ld fl with
  | zero => rfl
  | succ fuel ih =>
    obtain ⟨ld', fl', heq, h'⟩ := hround ld fl h
    simp only [replicate, heq, Option.bind_eq_bind, Option.bind_some, Bool.false_eq_true, if_false]
    exact ih h'

/-- A peer that has just been started. -/
def freshPeer : Raft 3 Nat Nat := Raft.blank node1 .empty

/-- A leader of term 2 whose log is the entry of index 2 and term 1, with a
snapshot of index 2. -/
def compactedLeader (commitIndex lastIncludedTerm : Nat) : Raft 3 Nat Nat :=
  { Raft.blank node0 .empty with
    state := .leader
    currentTerm := 2
    logs := [⟨2, 1, none⟩]
    lastIncludedIndex := 2
    lastIncludedTerm := lastIncludedTerm
    commitIndex := commitIndex
    nextIndex := fun _ => 3 }

theorem compactedLeader_backup (commitIndex lastIncludedTerm : Nat) :
    Backup node1 (compactedLeader commitIndex lastIncludedTerm) freshPeer where
  leader := rfl
  term := Nat.zero_le _
  leaderContiguous := contiguous_of_snapshot rfl rfl
  followerContiguous := contiguous_of_snapshot rfl rfl
  matching := logsMatch_of_snapshot rfl
  covered := show 0 < 3 by decide
  snapshotTerm := fun h => absurd h (show ¬ 2 ≤ 0 by decide)
  next := show 1 ≤ 3 ∧ 3 ≤ 3 by decide
  matched := show 0 ≤ 2 by decide

theorem compactedLeader_repairable (commitIndex : Nat) :
    Repairable node1 (compactedLeader commitIndex 1) freshPeer where
  toBackup := compactedLeader_backup commitIndex 1
  leaderAnchored := (wellFormed_of_snapshot rfl rfl rfl).toAnchored
  followerAnchored := (wellFormed_of_snapshot rfl rfl rfl).toAnchored

/-- The peer of a fresh leader needs the snapshot: a refused request, the
snapshot, and a request behind it. -/
theorem compactedLeader_repairs :
    (compactedLeader 2 1).lastIncludedIndex ≤ (compactedLeader 2 1).commitIndex ∧
      Repairs node1 6 (compactedLeader 2 1) freshPeer :=
  ⟨by decide, replicate_repairs (compactedLeader_repairable 2) (by decide)⟩

/-- Below its snapshot a leader has no entry to look at.  With a commit index
there, `updateCommitIndex` runs off the log when the peer has accepted. -/
theorem replicate_compactedLeader (fuel : Nat) :
    replicate node1 fuel (compactedLeader 0 1) freshPeer = none := by
  rcases fuel with _ | _ | _ | fuel
  all_goals rfl

/-- A peer that has taken over the snapshot of `compactedLeader 2 5`. -/
def oddFollower : Raft 3 Nat Nat :=
  { Raft.blank node1 ⟨some ⟨2, none, [⟨2, 5, none⟩], 2, 5⟩, none, none⟩ with
    currentTerm := 2
    currentLeader := some node0
    logs := [⟨2, 5, none⟩]
    commitIndex := 2
    lastIncludedIndex := 2
    lastIncludedTerm := 5 }

/-- Where the two stay from then on: the leader sends what is behind its snapshot. -/
def OddLoop (ld fl : Raft 3 Nat Nat) : Prop :=
  fl = oddFollower ∧ ∃ next matched, ld = { compactedLeader 2 5 with
    nextIndex := Function.update next node1 3
    matchIndex := matched }

theorem OddLoop.round {ld fl : Raft 3 Nat Nat} (h : OddLoop ld fl) :
    ∃ ld' fl', replicationRound node1 ld fl = some ((ld', fl'), false) ∧ OddLoop ld' fl' := by
  obtain ⟨rfl, next, matched, rfl⟩ := h
  exact ⟨_, _, rfl, rfl, _, _, rfl⟩

/-- A snapshot whose term is not that of the entry: the peer takes it over after two
rounds, and from then on its base conflicts with every request. -/
theorem replicate_oddLeader (fuel : Nat) :
    replicate node1 fuel (compactedLeader 2 5) freshPeer = none := by
  rcases fuel with _ | _ | fuel
  · rfl
  · rfl
  · exact replicate_eq_none_of_loop (fun _ _ => OddLoop.round) fuel ⟨rfl, _, _, rfl⟩

/-- A leader of term 2 with two entries of term 1, of which it sends the last one. -/
def plainLeader (next : Fin 3 → Nat) : Raft 3 Nat Nat :=
  { Raft.blank node0 .empty with
    state := .leader
    currentTerm := 2
    logs := [⟨0, 0, none⟩, ⟨1, 1, none⟩, ⟨2, 1, none⟩]
    nextIndex := Function.update next node1 2 }

/-- A peer of that term, with a snapshot of index 1 and term 1, and another term at
the head of its log. -/
def oddPeer : Raft 3 Nat Nat :=
  { Raft.blank node1 ⟨some ⟨2, none, [⟨1, 0, none⟩], 1, 1⟩, none, none⟩ with
    currentTerm := 2
    currentLeader := some node0
    logs := [⟨1, 0, none⟩]
    lastIncludedIndex := 1
    lastIncludedTerm := 1 }

theorem plainLeader_wellFormed (next : Fin 3 → Nat) : WellFormed (plainLeader next) := by
  refine ⟨⟨fun k e he => ?_, ?_⟩, List.cons_ne_nil _ _, fun e he => ?_⟩
  · rcases k with _ | _ | _ | k
    all_goals cases he
    all_goals rfl
  · simp [plainLeader]
  · cases he
    rfl

theorem oddPeer_backup (next : Fin 3 → Nat) : Backup node1 (plainLeader next) oddPeer where
  leader := rfl
  term := show 2 ≤ 2 by decide
  leaderContiguous := (plainLeader_wellFormed next).toContiguous
  followerContiguous := contiguous_of_snapshot rfl rfl
  matching := logsMatch_of_snapshot rfl
  covered := show 1 < 3 by decide
  snapshotTerm := fun _ => ⟨⟨1, 1, none⟩, rfl, rfl⟩
  next := show 1 ≤ 2 ∧ 2 ≤ 3 by decide
  matched := show 0 ≤ 2 by decide

/-- A peer whose base conflicts with the leader's entry of that index. -/
theorem replicate_oddPeer (next : Fin 3 → Nat) (fuel : Nat) :
    replicate node1 fuel (plainLeader next) oddPeer = none := by
  refine replicate_eq_none_of_loop (P := fun ld fl => fl = oddPeer ∧ ∃ next, ld = plainLeader next)
    ?_ fuel ⟨rfl, next, rfl⟩
  rintro _ _ ⟨rfl, next, rfl⟩
  exact ⟨_, _, rfl, rfl, _, rfl⟩

/-- Contiguous logs that match are not enough.  Each of the three pairs satisfies the
other conditions, and lacks the commit index, the head of the leader's log, and the
head of the peer's log. -/
theorem backup_not_repaired :
    (Backup node1 (compactedLeader 0 1) freshPeer ∧ Anchored (compactedLeader 0 1) ∧
      Anchored freshPeer ∧ ∀ fuel, replicate node1 fuel (compactedLeader 0 1) freshPeer = none) ∧
    (Backup node1 (compactedLeader 2 5) freshPeer ∧
      (compactedLeader 2 5).lastIncludedIndex ≤ (compactedLeader 2 5).commitIndex ∧
      Anchored freshPeer ∧ ∀ fuel, replicate node1 fuel (compactedLeader 2 5) freshPeer = none) ∧
    (Backup node1 (plainLeader fun _ => 0) oddPeer ∧
      (plainLeader fun _ => 0).lastIncludedIndex ≤ (plainLeader fun _ => 0).commitIndex ∧
      Anchored (plainLeader fun _ => 0) ∧
      ∀ fuel, replicate node1 fuel (plainLeader fun _ => 0) oddPeer = none) := by
  have h := compactedLeader_repairable 0
  exact ⟨⟨h.toBackup, h.leaderAnchored, h.followerAnchored, replicate_compactedLeader⟩,
    ⟨compactedLeader_backup 2 5, by decide, h.followerAnchored, replicate_oddLeader⟩,
    ⟨oddPeer_backup _, Nat.le_refl _, (plainLeader_wellFormed _).toAnchored, replicate_oddPeer _⟩⟩

end KvRaft
