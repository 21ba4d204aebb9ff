import KvRaft.Raft.Ticker

/-!
# What a handler's result looks like

One lemma for each function that changes several fields on several branches.
It takes the function's result apart: the branch that was taken, and the new
instance as an update of the old one.  Nothing is assumed about the instance.

`follow` and `heed` are the first halves of `AppendEntries` and of
`InstallSnapshot`, which adopt the sender's term.
-/

namespace KvRaft

variable {n : Nat} {C D : Type} {rf rf' : Raft n C D}

/-! ## Terms and votes -/

/-- `persist` writes to the disk and does nothing else. -/
theorem persist_keeps (rf : Raft n C D) :
    rf.persist = { rf with persister := rf.persist.persister } := by
  unfold Raft.persist
  split_ifs <;> rfl

theorem encodeState_persist (rf : Raft n C D) : rf.persist.encodeState = rf.encodeState := by
  unfold Raft.persist
  split_ifs <;> rfl

/-- `Start` appends on a leader and does nothing on others. -/
theorem start_inv (rf : Raft n C D) (command : Option C) :
    rf.state ≠ .leader ∧ (rf.start command).1 = rf ∨
      rf.state = .leader ∧ (rf.start command).1 =
        ({ rf with logs := rf.logs ++ [⟨rf.getLen, rf.currentTerm, command⟩] } :
          Raft n C D).persist := by
  unfold Raft.start
  split_ifs with h
  · exact Or.inl ⟨h, rfl⟩
  · exact Or.inr ⟨not_not.mp h, rfl⟩

theorem startElection_inv {args : RequestVoteArgs n} {votes : Nat}
    (h : rf.startElection = some (rf', args, votes)) :
    rf' = { ({ rf with votedFor := some rf.me, currentLeader := none } : Raft n C D).persist with
      grantedVotes := rf'.grantedVotes } ∧ rf'.genRequestVoteArgs = some args := by
  obtain ⟨args', hargs, h⟩ := Option.bind_eq_some_iff.mp h
  cases h
  exact ⟨rfl, hargs⟩

/-- A leader sends its snapshot to a peer that needs an entry behind it, and
entries to the others. -/
theorem replicateToPeer_inv {peer : Fin n} {args : RpcArgs n C D}
    (h : rf.replicateToPeer peer = some (some args)) : rf.state = .leader ∧
      (rf.nextIndex peer ≤ rf.lastIncludedIndex ∧
        args = .installSnapshot rf.genInstallSnapshotArgs ∨
      rf.lastIncludedIndex < rf.nextIndex peer ∧ ∃ args',
        rf.genAppendEntriesArgs (rf.nextIndex peer - 1) = some args' ∧
          args = .appendEntries args') := by
  unfold Raft.replicateToPeer at h
  split_ifs at h with hl hnext
  · cases h
  · cases h
    exact ⟨not_not.mp hl, Or.inl ⟨hnext, rfl⟩⟩
  · obtain ⟨args', hargs, h⟩ := Option.bind_eq_some_iff.mp h
    cases h
    exact ⟨not_not.mp hl, Or.inr ⟨Nat.lt_of_not_le hnext, args', hargs, rfl⟩⟩

/-- `RequestVote` refuses an old term, and otherwise persists what it changed. -/
theorem requestVote_inv {args : RequestVoteArgs n} {reply : RequestVoteReply}
    (h : rf.requestVote args = some (rf', reply)) :
    args.term < rf.currentTerm ∧ rf' = rf ∧ reply.voteGranted = false ∨
      ¬ args.term < rf.currentTerm ∧ ∃ state votedFor,
        rf' = { rf with
          state := state, currentTerm := args.term, votedFor := votedFor }.persist ∧
        (state = .follower ∨ state = rf.state ∧ args.term = rf.currentTerm) ∧
        (reply.voteGranted = true → votedFor = some args.candidateId) := by
  unfold Raft.requestVote at h
  by_cases hold : args.term < rf.currentTerm
  · rw [if_pos hold] at h
    cases h
    exact Or.inl ⟨hold, rfl, rfl⟩
  rw [if_neg hold] at h
  -- A higher term opens without a vote.
  obtain ⟨state, vote, hvote, hstate⟩ : ∃ state vote, (if args.term > rf.currentTerm then
      { rf with state := .follower, currentTerm := args.term, votedFor := none } else rf) =
      { rf with state := state, currentTerm := args.term, votedFor := vote } ∧
      (state = .follower ∨ state = rf.state ∧ args.term = rf.currentTerm) := by
    by_cases hterm : args.term > rf.currentTerm
    · exact ⟨.follower, none, by rw [if_pos hterm], Or.inl rfl⟩
    · have heq : args.term = rf.currentTerm := by omega
      exact ⟨rf.state, rf.votedFor, by rw [if_neg hterm, heq], Or.inr ⟨rfl, heq⟩⟩
  simp only [hvote] at h
  obtain ⟨upToDate, _, h⟩ := Option.bind_eq_some_iff.mp h
  refine Or.inr ⟨hold, state, ?_⟩
  split_ifs at h
  · cases h
    exact ⟨_, rfl, hstate, fun _ => rfl⟩
  · cases h
    exact ⟨_, rfl, hstate, fun hg => by cases hg⟩

/-! ## Entries -/

theorem getLog_eq_getElem? (rf : Raft n C D) {index : Nat} (h : rf.lastIncludedIndex ≤ index) :
    rf.getLog index = rf.logs[index - rf.lastIncludedIndex]? :=
  GoSlice.index_eq_getElem? _ (by rw [Raft.getPhysicalIndex]; omega)

/-- Log accesses depend on the stored entries and on the snapshot index only. -/
theorem getLog_congr (hlogs : rf'.logs = rf.logs)
    (hsnap : rf'.lastIncludedIndex = rf.lastIncludedIndex) (k : Nat) :
    rf'.getLog k = rf.getLog k := by
  rw [Raft.getLog, Raft.getLog, Raft.getPhysicalIndex, Raft.getPhysicalIndex, hlogs, hsnap]

theorem getLen_congr (hlogs : rf'.logs = rf.logs)
    (hsnap : rf'.lastIncludedIndex = rf.lastIncludedIndex) : rf'.getLen = rf.getLen := by
  rw [Raft.getLen, Raft.getLen, hlogs, hsnap]

theorem getLastLog_eq (rf : Raft n C D) : rf.getLastLog = rf.logs.getLast? := by
  rw [List.getLast?_eq_getElem?, Raft.getLastLog]
  cases rf.logs with
  | nil => rfl
  | cons e l => exact GoSlice.index_eq_getElem? _ (by simp)

/-- `appendNewEntries` changes the log only. -/
theorem appendNewEntries_eq {entries : List (Entry C)} :
    ∀ {rf rf' : Raft n C D}, rf.appendNewEntries entries = some rf' →
      rf' = { rf with logs := rf'.logs } := by
  induction entries with
  | nil =>
    intro rf rf' h
    cases h
    rfl
  | cons entry rest ih =>
    intro rf rf' h
    unfold Raft.appendNewEntries at h
    split_ifs at h
    · obtain ⟨old, _, h⟩ := Option.bind_eq_some_iff.mp h
      split_ifs at h
      · obtain ⟨kept, _, h⟩ := Option.bind_eq_some_iff.mp h
        cases h
        rfl
      · exact ih h
    · cases h
      rfl

/-- Consecutive entries, the first of them behind index `p`. -/
def Consecutive (p : Nat) (entries : List (Entry C)) : Prop :=
  ∀ k e, entries[k]? = some e → e.index = p + 1 + k

theorem Consecutive.tail {p : Nat} {entry : Entry C} {rest : List (Entry C)}
    (h : Consecutive p (entry :: rest)) : Consecutive (p + 1) rest := by
  intro k e he
  have := h (k + 1) e he
  omega

theorem advanceCommitIndex_eq (rf : Raft n C D) (leaderCommit : Nat) :
    rf.advanceCommitIndex leaderCommit =
      { rf with commitIndex := (rf.advanceCommitIndex leaderCommit).commitIndex } := by
  unfold Raft.advanceCommitIndex
  split_ifs <;> rfl

/-- An instance that hears from the leader of its term or of a higher one. -/
def Raft.follow (rf : Raft n C D) (t : Nat) (leader : Fin n) : Raft n C D :=
  { rf with
    currentTerm := t
    votedFor := if t > rf.currentTerm then none else rf.votedFor
    state := .follower
    currentLeader := some leader }

/-- `AppendEntries` from a leader that is not behind. -/
theorem appendEntries_eq {args : AppendEntriesArgs n C} (hge : ¬ args.term < rf.currentTerm) :
    rf.appendEntries args =
      ((rf.follow args.term args.leaderId).handleConsistencyConflict args).bind fun
        | some (conflictIndex, conflictTerm) =>
          some ((rf.follow args.term args.leaderId).persist,
            ⟨rf.currentTerm, false, conflictIndex, conflictTerm⟩)
        | none => ((rf.follow args.term args.leaderId).appendNewEntries args.entries).bind
            fun rf' => some ((rf'.advanceCommitIndex args.leaderCommit).persist,
              ⟨rf.currentTerm, true, 0, some 0⟩) := by
  unfold Raft.appendEntries Raft.follow
  rw [if_neg hge]
  by_cases hgt : args.term > rf.currentTerm
  · simp only [if_pos hgt]
    rfl
  · have heq : args.term = rf.currentTerm := by omega
    simp only [heq, Nat.lt_irrefl, gt_iff_lt, if_false]
    rfl

/-- `AppendEntries` refuses an old term, reports a conflict, or takes the
entries. -/
theorem appendEntries_inv {args : AppendEntriesArgs n C} {reply : AppendEntriesReply}
    (h : rf.appendEntries args = some (rf', reply)) :
    args.term < rf.currentTerm ∧ rf' = rf ∧ reply = ⟨rf.currentTerm, false, 0, some 0⟩ ∨
      ¬ args.term < rf.currentTerm ∧
      ((∃ index term, (rf.follow args.term args.leaderId).handleConsistencyConflict args =
            some (some (index, term)) ∧
          rf' = (rf.follow args.term args.leaderId).persist ∧
          reply = ⟨rf.currentTerm, false, index, term⟩) ∨
        ∃ rf₁, (rf.follow args.term args.leaderId).handleConsistencyConflict args = some none ∧
          (rf.follow args.term args.leaderId).appendNewEntries args.entries = some rf₁ ∧
          rf' = (rf₁.advanceCommitIndex args.leaderCommit).persist ∧
          reply = ⟨rf.currentTerm, true, 0, some 0⟩) := by
  by_cases hold : args.term < rf.currentTerm
  · rw [Raft.appendEntries, if_pos hold] at h
    cases h
    exact Or.inl ⟨hold, rfl, rfl⟩
  · rw [appendEntries_eq hold] at h
    refine Or.inr ⟨hold, ?_⟩
    obtain ⟨conflict, hconflict, h⟩ := Option.bind_eq_some_iff.mp h
    cases conflict with
    | some conflict =>
      cases h
      exact Or.inl ⟨_, _, hconflict, rfl, rfl⟩
    | none =>
      obtain ⟨rf₁, happend, h⟩ := Option.bind_eq_some_iff.mp h
      cases h
      exact Or.inr ⟨rf₁, hconflict, happend, rfl, rfl⟩

/-! ## Snapshots -/

/-- `Snapshot` cuts the log and saves. -/
theorem snapshot_inv {index : Nat} {data : Option D} (h : rf.snapshot index data = some rf') :
    (index ≤ rf.lastIncludedIndex ∨ rf.commitIndex < index) ∧ rf' = rf ∨
      ¬ (index ≤ rf.lastIncludedIndex ∨ rf.commitIndex < index) ∧ ∃ logs term,
        GoSlice.dropFrom rf.logs (rf.getPhysicalIndex index) = some logs ∧ rf' = { rf with
          logs := logs
          lastIncludedIndex := index
          lastIncludedTerm := term
          persister :=
            rf.persister.save ⟨rf.currentTerm, rf.votedFor, logs, index, term⟩ data } := by
  unfold Raft.snapshot at h
  split_ifs at h with hrefuse
  · cases h
    exact Or.inl ⟨hrefuse, rfl⟩
  · obtain ⟨logs, hlogs, h⟩ := Option.bind_eq_some_iff.mp h
    obtain ⟨first, _, h⟩ := Option.bind_eq_some_iff.mp h
    cases h
    exact Or.inr ⟨hrefuse, logs, first.term, hlogs, rfl⟩

theorem truncateLogWithSnapshot_eq {index term : Nat}
    (h : rf.truncateLogWithSnapshot index term = some rf') :
    rf' = { rf with logs := rf'.logs } := by
  unfold Raft.truncateLogWithSnapshot at h
  split_ifs at h
  · obtain ⟨entry, _, h⟩ := Option.bind_eq_some_iff.mp h
    split_ifs at h
    · obtain ⟨logs, _, h⟩ := Option.bind_eq_some_iff.mp h
      cases h
      rfl
    · cases h
      rfl
  · cases h
    rfl

/-- The beginning of `InstallSnapshot`, up to the comparison of the snapshots. -/
def Raft.heed (rf : Raft n C D) (t : Nat) (leader : Fin n) : Raft n C D :=
  { rf.installSnapshotTerm t with currentLeader := some leader, state := .follower }

/-- It leaves the log and the snapshot alone. -/
theorem heed_keeps (rf : Raft n C D) (t : Nat) (leader : Fin n) :
    rf.heed t leader = { rf with
      state := .follower
      currentLeader := some leader
      currentTerm := (rf.heed t leader).currentTerm
      votedFor := (rf.heed t leader).votedFor
      persister := (rf.heed t leader).persister } := by
  unfold Raft.heed Raft.installSnapshotTerm
  split_ifs
  · rw [persist_keeps]
  · rfl

@[simp] theorem heed_lastIncludedIndex (rf : Raft n C D) (t : Nat) (leader : Fin n) :
    (rf.heed t leader).lastIncludedIndex = rf.lastIncludedIndex := by
  unfold Raft.heed Raft.installSnapshotTerm Raft.persist
  split_ifs <;> rfl

theorem heed_currentTerm (rf : Raft n C D) {t : Nat} (h : ¬ t < rf.currentTerm)
    (leader : Fin n) : (rf.heed t leader).currentTerm = t := by
  unfold Raft.heed Raft.installSnapshotTerm Raft.persist
  split_ifs
  · rfl
  · rfl
  · show rf.currentTerm = t
    omega

/-- `InstallSnapshot` from a leader that is not behind. -/
theorem installSnapshot_eq {args : InstallSnapshotArgs n D}
    (hge : ¬ args.term < rf.currentTerm) :
    rf.installSnapshot args =
      if args.lastIncludedIndex ≤ (rf.heed args.term args.leaderId).lastIncludedIndex then
        some (rf.heed args.term args.leaderId, ⟨rf.currentTerm⟩)
      else
        ((rf.heed args.term args.leaderId).truncateLogWithSnapshot args.lastIncludedIndex
          args.lastIncludedTerm).bind fun rf' => some
            ({ rf' with
                lastIncludedIndex := args.lastIncludedIndex
                lastIncludedTerm := args.lastIncludedTerm
                commitIndex :=
                  if args.lastIncludedIndex > rf'.commitIndex then args.lastIncludedIndex
                  else rf'.commitIndex
                persister := rf'.persister.save
                  ⟨rf'.currentTerm, rf'.votedFor, rf'.logs, args.lastIncludedIndex,
                    args.lastIncludedTerm⟩ args.data },
              ⟨rf.currentTerm⟩) := by
  unfold Raft.installSnapshot
  rw [if_neg hge]
  rfl

/-- `InstallSnapshot` refuses an old term or an old snapshot, or takes the
snapshot over and saves. -/
theorem installSnapshot_inv {args : InstallSnapshotArgs n D} {reply : InstallSnapshotReply}
    (h : rf.installSnapshot args = some (rf', reply)) : reply = ⟨rf.currentTerm⟩ ∧
      (args.term < rf.currentTerm ∧ rf' = rf ∨
      ¬ args.term < rf.currentTerm ∧
        (args.lastIncludedIndex ≤ rf.lastIncludedIndex ∧
          rf' = rf.heed args.term args.leaderId ∨
        rf.lastIncludedIndex < args.lastIncludedIndex ∧ ∃ rf₁,
          (rf.heed args.term args.leaderId).truncateLogWithSnapshot args.lastIncludedIndex
            args.lastIncludedTerm = some rf₁ ∧
          rf' = { rf₁ with
            lastIncludedIndex := args.lastIncludedIndex
            lastIncludedTerm := args.lastIncludedTerm
            commitIndex :=
              if args.lastIncludedIndex > rf₁.commitIndex then args.lastIncludedIndex
              else rf₁.commitIndex
            persister := rf₁.persister.save
              ⟨rf₁.currentTerm, rf₁.votedFor, rf₁.logs, args.lastIncludedIndex,
                args.lastIncludedTerm⟩ args.data })) := by
  by_cases hold : args.term < rf.currentTerm
  · rw [Raft.installSnapshot, if_pos hold] at h
    cases h
    exact ⟨rfl, Or.inl ⟨hold, rfl⟩⟩
  · rw [installSnapshot_eq hold, heed_lastIncludedIndex] at h
    split_ifs at h with hle
    · cases h
      exact ⟨rfl, Or.inr ⟨hold, Or.inl ⟨hle, rfl⟩⟩⟩
    · obtain ⟨rf₁, htrunc, h⟩ := Option.bind_eq_some_iff.mp h
      cases h
      exact ⟨rfl, Or.inr ⟨hold, Or.inr ⟨Nat.lt_of_not_le hle, rf₁, htrunc, rfl⟩⟩⟩

/-! ## Replies -/

theorem handleHigherTerm_inv (rf : Raft n C D) (term : Nat) :
    term ≤ rf.currentTerm ∧ rf.handleHigherTerm term = (rf, false) ∨
      rf.currentTerm < term ∧ rf.handleHigherTerm term =
        ({ rf with currentTerm := term, votedFor := none, state := .follower }.persist, true) := by
  unfold Raft.handleHigherTerm
  split_ifs with h
  · exact Or.inr ⟨h, rfl⟩
  · exact Or.inl ⟨Nat.le_of_not_lt h, rfl⟩

theorem becomeLeader_inv (h : rf.becomeLeader = some rf') :
    ∃ last, rf.getLastLog = some last ∧ rf' = { rf with
      state := .leader
      currentLeader := some rf.me
      nextIndex := fun _ => last.index + 1
      matchIndex := Function.update (fun _ => rf.lastIncludedIndex) rf.me last.index } := by
  obtain ⟨last, hlast, h⟩ := Option.bind_eq_some_iff.mp h
  cases h
  exact ⟨last, hlast, rfl⟩

/-- A higher term ends the candidacy, a vote is counted, or the candidate has
won. -/
theorem requestVoteFromPeer_inv {args : RequestVoteArgs n} {votes : Nat}
    {reply : RequestVoteReply} (h : rf.requestVoteFromPeer args votes reply = some rf') :
    rf' = (rf.handleHigherTerm reply.term).1 ∨ ∃ granted,
      rf' = { rf with grantedVotes := granted } ∨
      rf.state = .candidate ∧ { rf with grantedVotes := granted }.becomeLeader = some rf' := by
  unfold Raft.requestVoteFromPeer at h
  by_cases hvalid : rf.isStillValidCandidate args.term = true
  · rw [if_neg (not_not.mpr hvalid)] at h
    rcases handleHigherTerm_inv rf reply.term with ⟨_, heq⟩ | ⟨_, heq⟩
    · rw [heq] at h
      simp only [Bool.false_eq_true, if_false] at h
      right
      split_ifs at h
      · exact ⟨_, Or.inr ⟨(of_decide_eq_true hvalid).1, h⟩⟩
      · cases h
        exact ⟨_, Or.inl rfl⟩
      · cases h
        exact ⟨_, Or.inl rfl⟩
    · rw [heq] at h ⊢
      cases h
      exact Or.inl rfl
  · rw [if_pos hvalid] at h
    cases h
    exact Or.inr ⟨_, Or.inl rfl⟩

theorem resolveConflict_eq {peer : Fin n} {args : AppendEntriesArgs n C}
    {reply : AppendEntriesReply} (h : rf.resolveConflict peer args reply = some rf') :
    rf' = { rf with nextIndex := rf'.nextIndex } := by
  unfold Raft.resolveConflict at h
  split_ifs at h
  · cases h
    rfl
  · split at h
    · cases h
      rfl
    · obtain ⟨lastIdx, _, h⟩ := Option.bind_eq_some_iff.mp h
      cases h
      rfl

theorem advancePeerIndices_eq (rf : Raft n C D) (peer : Fin n) (args : AppendEntriesArgs n C) :
    rf.advancePeerIndices peer args = { rf with
      matchIndex := (rf.advancePeerIndices peer args).matchIndex
      nextIndex := (rf.advancePeerIndices peer args).nextIndex } := by
  simp only [Raft.advancePeerIndices]
  split_ifs <;> rfl

theorem updateCommitScan_eq : ∀ {i : Nat}, rf.updateCommitScan i = some rf' →
    rf' = { rf with commitIndex := rf'.commitIndex } := by
  intro i
  induction i with
  | zero =>
    intro h
    cases h
    rfl
  | succ i ih =>
    intro h
    unfold Raft.updateCommitScan at h
    split_ifs at h
    · obtain ⟨entry, _, h⟩ := Option.bind_eq_some_iff.mp h
      split_ifs at h
      · cases h
        rfl
      · exact ih h
    · cases h
      rfl

/-- The reply to `AppendEntries` is ignored, possibly with a new term, or the
leader of the request's term backs up or counts. -/
theorem handleAppendEntriesReply_inv {peer : Fin n} {args : AppendEntriesArgs n C}
    {reply : AppendEntriesReply} (h : rf.handleAppendEntriesReply peer args reply = some rf') :
    rf' = (rf.handleHigherTerm reply.term).1 ∨
      (rf.state = .leader ∧ rf.currentTerm = args.term) ∧
        (reply.success = false ∧ rf.resolveConflict peer args reply = some rf' ∨
          reply.success = true ∧
            (rf.advancePeerIndices peer args).updateCommitIndex = some rf') := by
  unfold Raft.handleAppendEntriesReply Raft.shouldIgnoreReply at h
  rcases handleHigherTerm_inv rf reply.term with ⟨_, heq⟩ | ⟨_, heq⟩
  · rw [heq] at h ⊢
    simp only [Bool.false_eq_true, if_false, decide_eq_true_eq] at h
    split_ifs at h with hignore hsucc
    · cases h
      exact Or.inl rfl
    · rw [not_or, not_not, not_not] at hignore
      exact Or.inr ⟨hignore, Or.inl ⟨hsucc, h⟩⟩
    · rw [not_or, not_not, not_not] at hignore
      exact Or.inr ⟨hignore, Or.inr ⟨by simpa using hsucc, h⟩⟩
  · rw [heq] at h ⊢
    cases h
    exact Or.inl rfl

/-- Behind a reply to `AppendEntries` only the indices of a leader differ. -/
theorem handleAppendEntriesReply_eq {peer : Fin n} {args : AppendEntriesArgs n C}
    {reply : AppendEntriesReply} (h : rf.handleAppendEntriesReply peer args reply = some rf') :
    rf' = (rf.handleHigherTerm reply.term).1 ∨ rf' = { rf with
      commitIndex := rf'.commitIndex
      nextIndex := rf'.nextIndex
      matchIndex := rf'.matchIndex } := by
  refine (handleAppendEntriesReply_inv h).imp_right ?_
  rintro ⟨_, ⟨_, h⟩ | ⟨_, h⟩⟩
  · rw [resolveConflict_eq h]
  · rw [updateCommitScan_eq h, advancePeerIndices_eq]

/-- The reply to `InstallSnapshot` is ignored, possibly with a new term, or the
leader of the request's term moves the indices of the peer. -/
theorem handleInstallSnapshotReply_inv (rf : Raft n C D) (peer : Fin n)
    (args : InstallSnapshotArgs n D) (reply : InstallSnapshotReply) :
    rf.handleInstallSnapshotReply peer args reply = (rf.handleHigherTerm reply.term).1 ∨
      (rf.state = .leader ∧ rf.currentTerm = args.term) ∧
        rf.handleInstallSnapshotReply peer args reply = { rf with
          nextIndex :=
            if args.lastIncludedIndex + 1 > rf.nextIndex peer then
              Function.update rf.nextIndex peer (args.lastIncludedIndex + 1)
            else rf.nextIndex
          matchIndex :=
            if args.lastIncludedIndex > rf.matchIndex peer then
              Function.update rf.matchIndex peer args.lastIncludedIndex
            else rf.matchIndex } := by
  unfold Raft.handleInstallSnapshotReply
  rcases handleHigherTerm_inv rf reply.term with ⟨_, heq⟩ | ⟨_, heq⟩
  · rw [heq]
    simp only [Bool.false_eq_true, if_false]
    by_cases hl : rf.state = .leader ∧ rf.currentTerm = args.term
    · rw [if_pos hl]
      exact Or.inr ⟨hl, rfl⟩
    · rw [if_neg hl]
      exact Or.inl rfl
  · rw [heq]
    exact Or.inl rfl

/-! ## The applier -/

theorem applierTake_eq (h : rf.applierTake = some rf') : rf' =
    { rf with lastApplied := rf'.lastApplied, applying := rf'.applying } := by
  unfold Raft.applierTake at h
  split_ifs at h
  · cases h
    rfl
  · obtain ⟨entries, _, h⟩ := Option.bind_eq_some_iff.mp h
    cases h
    rfl

theorem applierSend_eq (rf : Raft n C D) : rf.applierSend =
    { rf with applying := rf.applierSend.applying, applyCh := rf.applierSend.applyCh } := by
  unfold Raft.applierSend
  split <;> rfl

end KvRaft
