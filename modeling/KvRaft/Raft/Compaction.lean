import KvRaft.Raft.Merge

/-!
# Compaction is invisible

`Snapshot` cuts the log of an instance at a committed index.  The others cannot
tell: the instance answers every request as it would have answered with the
whole log, and a conflict index below the cut becomes the index behind it.

`Raft.compact` is the instance behind the cut.  All its fields but the log's
base, the log and the disk are those of the instance before, so a lemma for
each function says that the function and the cut commute.
`Raft.performAll` runs a sequence of calls, and `snapshot_invisible` is the
induction over it.
-/

namespace KvRaft

variable {n : Nat} {C D : Type} {rf : Raft n C D} {index term : Nat} {ps : Persister n C D}

/-! ## The instance behind the cut -/

/-- The log starts at `index`. -/
def Raft.compact (rf : Raft n C D) (index term : Nat) (ps : Persister n C D) : Raft n C D :=
  { rf with
    logs := rf.logs.drop (index - rf.lastIncludedIndex)
    lastIncludedIndex := index
    lastIncludedTerm := term
    persister := ps }

/-- `index` is committed and not compacted yet, and the log reaches the commit
index. -/
structure Cuttable (rf : Raft n C D) (index : Nat) : Prop where
  above : rf.lastIncludedIndex < index
  committed : index ≤ rf.commitIndex
  stored : rf.commitIndex < rf.getLen

theorem getLen_compact (hlow : rf.lastIncludedIndex ≤ index) (hlen : index ≤ rf.getLen) :
    (rf.compact index term ps).getLen = rf.getLen := by
  rw [Raft.getLen] at hlen
  simp only [Raft.getLen, Raft.compact, List.length_drop]
  omega

theorem Cuttable.getLen (h : Cuttable rf index) :
    (rf.compact index term ps).getLen = rf.getLen :=
  getLen_compact (Nat.le_of_lt h.above)
    (Nat.le_of_lt (Nat.lt_of_le_of_lt h.committed h.stored))

theorem getLog_compact (h : Cuttable rf index) {k : Nat} (hk : index ≤ k) :
    (rf.compact index term ps).getLog k = rf.getLog k := by
  have habove := h.above
  rw [getLog_eq_getElem? _ (show (rf.compact index term ps).lastIncludedIndex ≤ k from hk),
    getLog_eq_getElem? rf (by omega)]
  simp only [Raft.compact, List.getElem?_drop]
  congr 1
  omega

theorem getLastLog_compact (h : Cuttable rf index) :
    (rf.compact index term ps).getLastLog = rf.getLastLog := by
  obtain ⟨habove, hcommitted, hstored⟩ := h
  rw [Raft.getLen] at hstored
  rw [getLastLog_eq, getLastLog_eq, Raft.compact, List.getLast?_drop, if_neg (by omega)]

theorem exists_getLastLog (h : Cuttable rf index) : ∃ e, rf.getLastLog = some e := by
  obtain ⟨habove, hcommitted, hstored⟩ := h
  rw [Raft.getLen] at hstored
  have hne : rf.logs ≠ [] := List.length_pos_iff.mp (by omega)
  exact ⟨_, (getLastLog_eq rf).trans (List.getLast?_eq_getLast_of_ne_nil hne)⟩

theorem persist_compact (rf : Raft n C D) (index term : Nat) (ps : Persister n C D) :
    ∃ ps', (rf.compact index term ps).persist = rf.persist.compact index term ps' := by
  refine ⟨(rf.compact index term ps).persist.persister, ?_⟩
  rw [persist_keeps (rf.compact index term ps), persist_keeps rf]
  rfl

theorem Cuttable.persist (h : Cuttable rf index) : Cuttable rf.persist index := by
  rw [persist_keeps]
  exact ⟨h.above, h.committed, h.stored⟩

/-! ## Votes, terms and commands -/

/-- Both instances give the same answer, and one is still the other behind the
cut. -/
def Commutes {A : Type} (index : Nat) (result result' : Option (Raft n C D × A)) : Prop :=
  ∃ r a term ps, result = some (r, a) ∧ result' = some (r.compact index term ps, a) ∧
    Cuttable r index

/-- The last thing a handler does is `persist`. -/
theorem commutes_persist {A : Type} (h : Cuttable rf index) (term : Nat) (ps : Persister n C D)
    (a : A) :
    Commutes index (some (rf.persist, a)) (some ((rf.compact index term ps).persist, a)) := by
  obtain ⟨ps', heq⟩ := persist_compact rf index term ps
  exact ⟨rf.persist, a, term, ps', rfl, by rw [heq], h.persist⟩

theorem commutes_ite {A : Type} {P : Prop} [Decidable P] {a b a' b' : Option (Raft n C D × A)}
    (hpos : P → Commutes index a a') (hneg : ¬ P → Commutes index b b') :
    Commutes index (if P then a else b) (if P then a' else b') := by
  split_ifs with h
  · exact hpos h
  · exact hneg h

theorem isLogUpToDate_compact (h : Cuttable rf index) (lastTerm lastIndex : Nat) :
    (rf.compact index term ps).isLogUpToDate lastTerm lastIndex =
      rf.isLogUpToDate lastTerm lastIndex := by
  rw [Raft.isLogUpToDate, Raft.isLogUpToDate, getLastLog_compact h]

theorem exists_isLogUpToDate (h : Cuttable rf index) (lastTerm lastIndex : Nat) :
    ∃ b, rf.isLogUpToDate lastTerm lastIndex = some b := by
  obtain ⟨e, he⟩ := exists_getLastLog h
  rw [Raft.isLogUpToDate, he]
  simp only [Option.bind_eq_bind, Option.bind_some]
  split_ifs
  · exact ⟨_, rfl⟩
  · exact ⟨_, rfl⟩

theorem requestVote_compact (h : Cuttable rf index) (term : Nat) (ps : Persister n C D)
    (args : RequestVoteArgs n) :
    Commutes index (rf.requestVote args) ((rf.compact index term ps).requestVote args) := by
  unfold Raft.requestVote
  refine commutes_ite (fun _ => ⟨rf, _, term, ps, rfl, rfl, h⟩) fun _ => ?_
  -- The instance that votes, with its own term or the higher one.
  obtain ⟨rf₁, hrf₁, hrf₁', h₁⟩ : ∃ rf₁ : Raft n C D,
      (if args.term > rf.currentTerm then
        { rf with state := .follower, currentTerm := args.term, votedFor := none }
      else rf) = rf₁ ∧
      (if args.term > (rf.compact index term ps).currentTerm then
        { rf.compact index term ps with
          state := .follower, currentTerm := args.term, votedFor := none }
      else rf.compact index term ps) = rf₁.compact index term ps ∧ Cuttable rf₁ index := by
    by_cases hgt : args.term > rf.currentTerm
    · exact ⟨_, if_pos hgt, if_pos hgt, h.above, h.committed, h.stored⟩
    · exact ⟨_, if_neg hgt, if_neg hgt, h⟩
  obtain ⟨b, hb⟩ := exists_isLogUpToDate h₁ args.lastLogTerm args.lastLogIndex
  simp only [hrf₁, hrf₁', isLogUpToDate_compact h₁, hb, Option.bind_eq_bind, Option.bind_some]
  refine commutes_ite (fun _ => ?_) fun _ => commutes_persist h₁ term ps _
  have h₂ : Cuttable { rf₁ with votedFor := some args.candidateId } index :=
    ⟨h₁.above, h₁.committed, h₁.stored⟩
  exact commutes_persist h₂ term ps _

theorem start_compact (h : Cuttable rf index) (term : Nat) (ps : Persister n C D)
    (command : Option C) :
    Commutes index (some (rf.start command)) (some ((rf.compact index term ps).start command)) := by
  by_cases hl : rf.state = .leader
  · have hl' : ¬ (rf.compact index term ps).state ≠ .leader := not_not.mpr hl
    rw [Raft.start, Raft.start, if_neg (not_not.mpr hl), if_neg hl', h.getLen]
    have habove := h.above
    have hcommitted := h.committed
    have hstored := h.stored
    rw [Raft.getLen] at hstored
    have hlogs : ({ rf.compact index term ps with
        logs := (rf.compact index term ps).logs ++ [⟨rf.getLen, rf.currentTerm, command⟩] } :
          Raft n C D) = Raft.compact { rf with
            logs := rf.logs ++ [⟨rf.getLen, rf.currentTerm, command⟩] } index term ps := by
      simp only [Raft.compact]
      rw [List.drop_append_of_le_length (by omega)]
    have hcut : Cuttable { rf with
        logs := rf.logs ++ [⟨rf.getLen, rf.currentTerm, command⟩] } index := by
      refine ⟨habove, hcommitted, ?_⟩
      simp only [Raft.getLen, List.length_append]
      omega
    have hgoal := commutes_persist hcut term ps (some (rf.getLen, rf.currentTerm))
    rw [← hlogs] at hgoal
    exact hgoal
  · have hl' : (rf.compact index term ps).state ≠ .leader := hl
    rw [Raft.start, Raft.start, if_pos hl, if_pos hl']
    exact ⟨rf, none, term, ps, rfl, rfl, h⟩

theorem genRequestVoteArgs_compact (h : Cuttable rf index) :
    (rf.compact index term ps).genRequestVoteArgs = rf.genRequestVoteArgs := by
  rw [Raft.genRequestVoteArgs, Raft.genRequestVoteArgs, getLastLog_compact h]
  rfl

/-- The end of `startElection`, on an instance that has voted for itself. -/
def Raft.asks (rf : Raft n C D) : Option (Raft n C D × RequestVoteArgs n × Nat) := do
  let args ← rf.genRequestVoteArgs
  some ({ rf with grantedVotes := rf.grantedVotes ++ [1] }, args, rf.grantedVotes.length)

theorem startElection_eq (rf : Raft n C D) : rf.startElection =
    ({ rf with votedFor := some rf.me, currentLeader := none } : Raft n C D).persist.asks := rfl

theorem asks_compact (h : Cuttable rf index) :
    Commutes index rf.asks (rf.compact index term ps).asks := by
  obtain ⟨e, he⟩ := exists_getLastLog h
  rw [Raft.asks, Raft.asks, genRequestVoteArgs_compact h, Raft.genRequestVoteArgs, he]
  exact ⟨_, _, term, ps, rfl, rfl, h.above, h.committed, h.stored⟩

theorem startElection_compact (h : Cuttable rf index) :
    Commutes index rf.startElection (rf.compact index term ps).startElection := by
  have hvoted : Cuttable { rf with votedFor := some rf.me, currentLeader := none } index :=
    ⟨h.above, h.committed, h.stored⟩
  obtain ⟨ps', heq⟩ := persist_compact
    { rf with votedFor := some rf.me, currentLeader := none } index term ps
  rw [startElection_eq, startElection_eq]
  exact heq ▸ asks_compact hvoted.persist

theorem becomeCandidate_compact (h : Cuttable rf index) (term : Nat) (ps : Persister n C D) :
    Commutes index rf.becomeCandidate (rf.compact index term ps).becomeCandidate := by
  have h₁ : Cuttable { rf with state := .candidate, currentTerm := rf.currentTerm + 1 } index :=
    ⟨h.above, h.committed, h.stored⟩
  obtain ⟨ps', heq⟩ := persist_compact
    { rf with state := .candidate, currentTerm := rf.currentTerm + 1 } index term ps
  have hterm : (rf.compact index term ps).becomeCandidateTerm =
      rf.becomeCandidateTerm.compact index term ps' := heq
  rw [Raft.becomeCandidate, Raft.becomeCandidate, hterm]
  exact startElection_compact h₁.persist

/-! ## Replies -/

theorem handleHigherTerm_compact (h : Cuttable rf index) (term : Nat) (ps : Persister n C D)
    (replyTerm : Nat) :
    Commutes index (some (rf.handleHigherTerm replyTerm))
      (some ((rf.compact index term ps).handleHigherTerm replyTerm)) := by
  rcases handleHigherTerm_inv rf replyTerm with ⟨hle, heq⟩ | ⟨hlt, heq⟩
  · rw [heq, Raft.handleHigherTerm,
      if_neg (show ¬ replyTerm > (rf.compact index term ps).currentTerm from Nat.not_lt_of_le hle)]
    exact ⟨rf, false, term, ps, rfl, rfl, h⟩
  · rw [heq, Raft.handleHigherTerm,
      if_pos (show replyTerm > (rf.compact index term ps).currentTerm from hlt)]
    have h₁ : Cuttable
        { rf with currentTerm := replyTerm, votedFor := none, state := .follower } index :=
      ⟨h.above, h.committed, h.stored⟩
    exact commutes_persist h₁ term ps true

theorem advancePeerIndices_compact (rf : Raft n C D) (index term : Nat) (ps : Persister n C D)
    (peer : Fin n) (args : AppendEntriesArgs n C) :
    (rf.compact index term ps).advancePeerIndices peer args =
      (rf.advancePeerIndices peer args).compact index term ps := by
  rw [Raft.advancePeerIndices, Raft.advancePeerIndices, apply_ite (Raft.compact · index term ps)]
  exact ite_congr rfl (fun _ => rfl) (fun _ => rfl)

/-- The loop of `updateCommitIndex` stays above the commit index. -/
theorem updateCommitScan_compact (h : Cuttable rf index) : ∀ i,
    (rf.compact index term ps).updateCommitScan i =
      (rf.updateCommitScan i).map (·.compact index term ps)
  | 0 => rfl
  | i + 1 => by
    have hcommitted := h.committed
    rw [Raft.updateCommitScan, Raft.updateCommitScan]
    by_cases hlt : rf.commitIndex < i + 1
    · rw [if_pos hlt, if_pos (show (rf.compact index term ps).commitIndex < i + 1 from hlt),
        getLog_compact h (by omega)]
      cases rf.getLog (i + 1) with
      | none => rfl
      | some entry =>
        simp only [Option.bind_eq_bind, Option.bind_some]
        rw [apply_ite (Option.map _)]
        exact ite_congr rfl (fun _ => rfl) (fun _ => updateCommitScan_compact h i)
    · rw [if_neg hlt, if_neg (show ¬ (rf.compact index term ps).commitIndex < i + 1 from hlt)]
      rfl

/-- A commit index that was raised stays inside the log. -/
theorem Cuttable.updateCommitIndex (h : Cuttable rf index) :
    ∃ r, rf.updateCommitIndex = some r ∧ Cuttable r index := by
  have habove := h.above
  have hcommitted := h.committed
  have hstored := h.stored
  have hsnap : rf.lastIncludedIndex ≤ rf.commitIndex := by omega
  rcases updateCommitScan_cases hsnap (rf.getLen - 1) (by omega) with
    hs | ⟨k, e, hk, hkl, _, _, _, hs⟩
  · exact ⟨rf, hs, h⟩
  · exact ⟨_, hs, habove, Nat.le_trans hcommitted (Nat.le_of_lt hk),
      show k < rf.getLen by omega⟩

/-- Entries that a peer has accepted are counted in the same way. -/
theorem handleAppendEntriesReply_compact (h : Cuttable rf index) (term : Nat)
    (ps : Persister n C D) (peer : Fin n) (args : AppendEntriesArgs n C)
    {reply : AppendEntriesReply} (hsucc : reply.success = true) :
    ∃ r term' ps', rf.handleAppendEntriesReply peer args reply = some r ∧
      (rf.compact index term ps).handleAppendEntriesReply peer args reply =
        some (r.compact index term' ps') ∧ Cuttable r index := by
  obtain ⟨r, isHigher, term', ps', heq, heq', hr⟩ :=
    handleHigherTerm_compact h term ps reply.term
  simp only [Option.some.injEq] at heq heq'
  unfold Raft.handleAppendEntriesReply Raft.shouldIgnoreReply
  rw [heq, heq']
  cases isHigher with
  | true => exact ⟨r, term', ps', rfl, rfl, hr⟩
  | false =>
    simp only [Bool.false_eq_true, if_false, hsucc, Bool.true_eq_false, decide_eq_true_eq]
    by_cases hignore : r.state ≠ .leader ∨ r.currentTerm ≠ args.term
    · rw [if_pos hignore, if_pos (show (r.compact index term' ps').state ≠ .leader ∨
        (r.compact index term' ps').currentTerm ≠ args.term from hignore)]
      exact ⟨r, term', ps', rfl, rfl, hr⟩
    · rw [if_neg hignore, if_neg (show ¬ ((r.compact index term' ps').state ≠ .leader ∨
        (r.compact index term' ps').currentTerm ≠ args.term) from hignore)]
      have hadvanced : Cuttable (r.advancePeerIndices peer args) index := by
        rw [advancePeerIndices_eq]
        exact ⟨hr.above, hr.committed, hr.stored⟩
      obtain ⟨r', hr', hcut⟩ := hadvanced.updateCommitIndex
      refine ⟨r', term', ps', hr', ?_, hcut⟩
      rw [Raft.updateCommitIndex] at hr' ⊢
      rw [advancePeerIndices_compact, hadvanced.getLen,
        updateCommitScan_compact hadvanced, hr']
      rfl

/-! ## Entries -/

/-- The scan for the conflicting term stops at the cut. -/
theorem conflictScan_compact (h : Cuttable rf index) (t : Nat) : ∀ i, index ≤ i → i < rf.getLen →
    (rf.compact index term ps).conflictScan t i = (rf.conflictScan t i).map (max index)
  | 0, hi, _ => absurd h.above (by omega)
  | i + 1, hi, hlen => by
    have habove := h.above
    rcases Nat.lt_or_ge index (i + 1) with hlt | hge
    · rw [Raft.conflictScan, Raft.conflictScan,
        if_pos (show (rf.compact index term ps).lastIncludedIndex < i + 1 from hlt),
        if_pos (show rf.lastIncludedIndex < i + 1 by omega), getLog_compact h hi]
      obtain ⟨e, he⟩ := exists_getLog (show rf.lastIncludedIndex ≤ i + 1 by omega) hlen
      simp only [he, Option.bind_eq_bind, Option.bind_some]
      by_cases hterm : e.term = t
      · rw [if_pos hterm, if_pos hterm]
        exact conflictScan_compact h t i (by omega) (by omega)
      · rw [if_neg hterm, if_neg hterm, Option.map_some, Nat.max_eq_right hi]
    · -- At the cut the whole log is searched further, but not the compacted one.
      have heq : index = i + 1 := by omega
      obtain ⟨j, hj, hs⟩ := exists_conflictScan rf t (i + 1) hlen
      rw [Raft.conflictScan, if_neg (show ¬ (rf.compact index term ps).lastIncludedIndex < i + 1
        from Nat.not_lt_of_le hge), hs, Option.map_some, Nat.max_eq_left (by omega), heq]

/-- The consistency check finds the same conflict, behind the cut. -/
theorem handleConsistencyConflict_compact (h : Cuttable rf index) {args : AppendEntriesArgs n C}
    (hprev : index ≤ args.prevLogIndex) :
    (rf.compact index term ps).handleConsistencyConflict args =
      (rf.handleConsistencyConflict args).map (Option.map (Prod.map (max (index + 1)) id)) := by
  have habove := h.above
  have hcommitted := h.committed
  have hstored := h.stored
  have hlow : ¬ args.prevLogIndex < rf.lastIncludedIndex := by omega
  have hlow' : ¬ args.prevLogIndex < (rf.compact index term ps).lastIncludedIndex :=
    Nat.not_lt_of_le hprev
  simp only [Raft.handleConsistencyConflict, Raft.hasEntryAt, if_neg hlow, if_neg hlow',
    h.getLen, getLog_compact h hprev]
  by_cases hlen : rf.getLen ≤ args.prevLogIndex
  · rw [if_pos (Or.inr hlen), if_pos (Or.inr hlen)]
    simp only [Option.bind_eq_bind, Option.bind_some, Bool.false_eq_true, if_false, if_pos hlen,
      Option.map_some, Prod.map_apply, id_eq]
    rw [Nat.max_eq_right (by omega)]
  · obtain ⟨e, he⟩ := exists_getLog (Nat.le_of_not_lt hlow) (Nat.lt_of_not_le hlen)
    have hin : ¬ (args.prevLogIndex < rf.lastIncludedIndex ∨ rf.getLen ≤ args.prevLogIndex) := by
      omega
    have hin' : ¬ (args.prevLogIndex < (rf.compact index term ps).lastIncludedIndex ∨
        rf.getLen ≤ args.prevLogIndex) := not_or.mpr ⟨hlow', hlen⟩
    simp only [if_neg hin, if_neg hin', he, Option.bind_eq_bind, Option.bind_some, if_neg hlen]
    by_cases hterm : (e.term == args.prevLogTerm) = true
    · rw [if_pos hterm, if_pos hterm]
      rfl
    · obtain ⟨j, _, hs⟩ := exists_conflictScan rf e.term args.prevLogIndex (Nat.lt_of_not_le hlen)
      rw [if_neg hterm, if_neg hterm,
        conflictScan_compact h e.term args.prevLogIndex hprev (Nat.lt_of_not_le hlen), hs]
      simp only [Option.map_some, Option.bind_some, Prod.map_apply, id_eq]
      rw [Nat.add_max_add_right]

theorem appendNewEntries_compact {p : Nat} {entries : List (Entry C)} (h : Cuttable rf index)
    (term : Nat) (ps : Persister n C D) (hcons : Consecutive p entries) (hp : index ≤ p)
    (hlen : p < rf.getLen) :
    (rf.compact index term ps).appendNewEntries entries =
      (rf.appendNewEntries entries).map (·.compact index term ps) := by
  have habove := h.above
  induction entries generalizing p with
  | nil => rfl
  | cons entry rest ih =>
    have hindex : entry.index = p + 1 := hcons 0 entry rfl
    rw [Raft.appendNewEntries, Raft.appendNewEntries, hindex, h.getLen]
    by_cases hin : p + 1 < rf.getLen
    · obtain ⟨old, hold⟩ := exists_getLog (show rf.lastIncludedIndex ≤ p + 1 by omega) hin
      have hold' : GoSlice.index (rf.compact index term ps).logs
          ((rf.compact index term ps).getPhysicalIndex (p + 1)) = some old :=
        (getLog_compact h (Nat.le_succ_of_le hp)).trans hold
      rw [Raft.getLog] at hold
      rw [if_pos hin, if_pos hin]
      simp only [Option.bind_eq_bind, hold, hold', Option.bind_some]
      by_cases hterm : old.term ≠ entry.term
      · rw [if_pos hterm, if_pos hterm]
        rw [Raft.getLen] at hin
        rw [GoSlice.takeTo_eq_some rf.logs (k := p + 1 - rf.lastIncludedIndex)
            (by rw [Raft.getPhysicalIndex]; omega) (by omega),
          GoSlice.takeTo_eq_some (rf.compact index term ps).logs (k := p + 1 - index)
            (by simp only [Raft.getPhysicalIndex, Raft.compact]; omega)
            (by simp only [Raft.compact, List.length_drop]; omega)]
        simp only [Option.bind_some, Option.map_some, Raft.compact]
        rw [List.drop_append_of_le_length (by rw [List.length_take]; omega), List.drop_take,
          show p + 1 - rf.lastIncludedIndex - (index - rf.lastIncludedIndex) = p + 1 - index by
            omega]
      · rw [if_neg hterm, if_neg hterm]
        exact ih hcons.tail (Nat.le_succ_of_le hp) hin
    · rw [if_neg hin, if_neg hin]
      rw [Raft.getLen] at hlen
      simp only [Option.map_some, Raft.compact]
      rw [List.drop_append_of_le_length (by omega)]

/-- The commit index is compared with the end of the log, which stays. -/
theorem advanceCommitIndex_compact (hlow : rf.lastIncludedIndex ≤ index)
    (hlen : index ≤ rf.getLen) (leaderCommit : Nat) :
    (rf.compact index term ps).advanceCommitIndex leaderCommit =
      (rf.advanceCommitIndex leaderCommit).compact index term ps := by
  rw [Raft.advanceCommitIndex, Raft.advanceCommitIndex, getLen_compact hlow hlen,
    apply_ite (Raft.compact · index term ps)]
  exact ite_congr rfl (fun _ => rfl) (fun _ => rfl)

/-- It does not fall below an index that is committed and stored. -/
theorem le_advanceCommitIndex (leaderCommit : Nat) (hcommitted : index ≤ rf.commitIndex)
    (hlen : index < rf.getLen) : index ≤ (rf.advanceCommitIndex leaderCommit).commitIndex := by
  unfold Raft.advanceCommitIndex
  split_ifs with hlt
  · simp only
    split_ifs <;> omega
  · exact hcommitted

/-- The end of a request that was accepted. -/
theorem commit_compact (habove : rf.lastIncludedIndex < index) (hcommitted : index ≤ rf.commitIndex)
    (hlen : index < rf.getLen) (term : Nat) (ps : Persister n C D) (leaderCommit : Nat) :
    (∃ ps', ((rf.compact index term ps).advanceCommitIndex leaderCommit).persist =
      (rf.advanceCommitIndex leaderCommit).persist.compact index term ps') ∧
    ((rf.advanceCommitIndex leaderCommit).persist.commitIndex <
      (rf.advanceCommitIndex leaderCommit).persist.getLen →
        Cuttable (rf.advanceCommitIndex leaderCommit).persist index) := by
  constructor
  · rw [advanceCommitIndex_compact (Nat.le_of_lt habove) (Nat.le_of_lt hlen)]
    exact persist_compact _ index term ps
  · intro hstored
    have hadvanced := le_advanceCommitIndex leaderCommit hcommitted hlen
    rw [persist_keeps, advanceCommitIndex_eq] at hstored ⊢
    exact ⟨habove, hadvanced, hstored⟩

/-- The reply behind the cut: where the consistency check refuses, the conflict
index is not below the log. -/
def AppendEntriesReply.behind (index : Nat) (args : AppendEntriesArgs n C)
    (reply : AppendEntriesReply) : AppendEntriesReply :=
  if reply.success = false ∧ reply.term ≤ args.term then
    { reply with conflictIndex := max (index + 1) reply.conflictIndex }
  else reply

theorem appendEntries_compact (h : Cuttable rf index) (term : Nat) (ps : Persister n C D)
    {args : AppendEntriesArgs n C} (hprev : index ≤ args.prevLogIndex)
    (hcons : Consecutive args.prevLogIndex args.entries)
    (hafter : ∀ r reply, rf.appendEntries args = some (r, reply) → r.commitIndex < r.getLen) :
    ∃ r reply term' ps', rf.appendEntries args = some (r, reply) ∧
      (rf.compact index term ps).appendEntries args =
        some (r.compact index term' ps', reply.behind index args) ∧ Cuttable r index := by
  by_cases hold : args.term < rf.currentTerm
  · refine ⟨rf, ⟨rf.currentTerm, false, 0, some 0⟩, term, ps, ?_, ?_, h⟩
    · rw [Raft.appendEntries, if_pos hold]
    · rw [Raft.appendEntries,
        if_pos (show args.term < (rf.compact index term ps).currentTerm from hold),
        AppendEntriesReply.behind, if_neg fun hc => Nat.not_le_of_lt hold hc.2]
      rfl
  have heq : rf.appendEntries args = _ := appendEntries_eq hold
  have heq' : (rf.compact index term ps).appendEntries args = _ := appendEntries_eq hold
  have hfollow : Cuttable (rf.follow args.term args.leaderId) index :=
    ⟨h.above, h.committed, h.stored⟩
  have hcheck :
      ((rf.compact index term ps).follow args.term args.leaderId).handleConsistencyConflict args =
        _ := handleConsistencyConflict_compact hfollow hprev
  rw [hcheck] at heq'
  obtain ⟨conflict, hconflict⟩ :=
    exists_handleConsistencyConflict (rf.follow args.term args.leaderId) args
  rw [hconflict] at heq heq'
  obtain _ | ⟨conflictIndex, conflictTerm⟩ := conflict
  · -- The entries go into both logs in the same way.
    obtain ⟨_, hin, _⟩ := handleConsistencyConflict_none hconflict
    have hlow : (rf.follow args.term args.leaderId).lastIncludedIndex ≤ args.prevLogIndex :=
      Nat.le_trans (Nat.le_of_lt h.above) hprev
    obtain ⟨rf₁, happend, habove, hcommitted, hlen⟩ : ∃ rf₁,
        (rf.follow args.term args.leaderId).appendNewEntries args.entries = some rf₁ ∧
          rf₁.lastIncludedIndex < index ∧ index ≤ rf₁.commitIndex ∧ index < rf₁.getLen := by
      obtain ⟨logs, hsplice, happend⟩ := appendNewEntries_splice hcons hlow hin
      exact ⟨_, happend, h.above, h.committed,
        Nat.lt_of_le_of_lt hprev (hsplice.lt_getLen hlow hin)⟩
    have happend' : ((rf.compact index term ps).follow args.term args.leaderId).appendNewEntries
        args.entries = some (rf₁.compact index term ps) := by
      have := appendNewEntries_compact hfollow term ps hcons hprev hin
      rwa [happend] at this
    obtain ⟨⟨ps', hcommit⟩, hcut⟩ :=
      commit_compact habove hcommitted hlen term ps args.leaderCommit
    rw [happend] at heq
    refine ⟨_, _, term, ps', heq, ?_, hcut (hafter _ _ heq)⟩
    rw [heq', AppendEntriesReply.behind, if_neg (by simp)]
    simp only [Option.map_some, Option.map_none, Option.bind_some, happend']
    rw [hcommit]
    rfl
  · -- Both refuse.
    obtain ⟨ps', hpersist⟩ := persist_compact (rf.follow args.term args.leaderId) index term ps
    refine ⟨_, _, term, ps', heq, ?_, hfollow.persist⟩
    rw [heq', AppendEntriesReply.behind, if_pos ⟨rfl, Nat.le_of_not_lt hold⟩]
    simp only [Option.map_some, Option.bind_some, Prod.map_apply, id_eq]
    rw [← hpersist]
    rfl

/-! ## Sequences of actions -/

namespace Raft

/-- What reaches an instance. -/
inductive Action (n : Nat) (C : Type) where
  | requestVote (args : RequestVoteArgs n)
  | appendEntries (args : AppendEntriesArgs n C)
  | start (command : Option C)
  | electionTimeout
  /-- The reply of a peer to `AppendEntries`. -/
  | appendEntriesReply (peer : Fin n) (args : AppendEntriesArgs n C) (reply : AppendEntriesReply)
  deriving DecidableEq, Repr

/-- What the instance answers or asks. -/
inductive Effect (n : Nat) (C : Type) where
  | vote (reply : RequestVoteReply)
  | append (args : AppendEntriesArgs n C) (reply : AppendEntriesReply)
  | started (result : Option (Nat × Nat))
  /-- The request for votes of an election.  A leader starts none. -/
  | election (request : Option (RequestVoteArgs n))
  | silent
  deriving DecidableEq, Repr

/-- One action.  `none` is a panic. -/
def perform (rf : Raft n C D) : Action n C → Option (Raft n C D × Effect n C)
  | .requestVote args => do
    let (rf, reply) ← rf.requestVote args
    some (rf, .vote reply)
  | .appendEntries args => do
    let (rf, reply) ← rf.appendEntries args
    some (rf, .append args reply)
  | .start command =>
    let (rf, result) := rf.start command
    some (rf, .started result)
  | .electionTimeout =>
    if rf.state = .leader then some (rf, .election none)
    else do
      let (rf, args, _) ← rf.becomeCandidate
      some (rf, .election (some args))
  | .appendEntriesReply peer args reply => do
    let rf ← rf.handleAppendEntriesReply peer args reply
    some (rf, .silent)

/-- One action after the other. -/
def performAll (rf : Raft n C D) : List (Action n C) → Option (Raft n C D × List (Effect n C))
  | [] => some (rf, [])
  | action :: actions => do
    let (rf, effect) ← rf.perform action
    let (rf, effects) ← rf.performAll actions
    some (rf, effect :: effects)

/-- The actions that a cut at `index` cannot be seen by: requests with
consecutive entries behind `index` that leave the commit index inside the log,
and replies that accept. -/
def Admissible (index : Nat) (rf : Raft n C D) : Action n C → Prop
  | .appendEntries args => index ≤ args.prevLogIndex ∧
      Consecutive args.prevLogIndex args.entries ∧
      ∀ r reply, rf.appendEntries args = some (r, reply) → r.commitIndex < r.getLen
  | .appendEntriesReply _ _ reply => reply.success = true
  | _ => True

/-- Every action is admissible where it happens. -/
def AllAdmissible (index : Nat) (rf : Raft n C D) : List (Action n C) → Prop
  | [] => True
  | action :: actions => Admissible index rf action ∧
      ∀ r effect, rf.perform action = some (r, effect) → AllAdmissible index r actions

/-- The effect behind the cut. -/
def Effect.behind (index : Nat) : Effect n C → Effect n C
  | .append args reply => .append args (reply.behind index args)
  | effect => effect

end Raft

/-- What the others can see of an instance, from `index` on. -/
structure SameView (index : Nat) (rf rf' : Raft n C D) : Prop where
  currentTerm : rf'.currentTerm = rf.currentTerm
  votedFor : rf'.votedFor = rf.votedFor
  state : rf'.state = rf.state
  commitIndex : rf'.commitIndex = rf.commitIndex
  log : ∀ k, index ≤ k → rf'.getLog k = rf.getLog k

theorem sameView_compact (h : Cuttable rf index) :
    SameView index rf (rf.compact index term ps) :=
  ⟨rfl, rfl, rfl, rfl, fun _ hk => getLog_compact h hk⟩

/-- One action. -/
theorem perform_compact (h : Cuttable rf index) (term : Nat) (ps : Persister n C D)
    {action : Raft.Action n C} (haction : Raft.Admissible index rf action) : ∃ r effect term' ps',
      rf.perform action = some (r, effect) ∧ (rf.compact index term ps).perform action =
        some (r.compact index term' ps', effect.behind index) ∧ Cuttable r index := by
  cases action with
  | requestVote args =>
    obtain ⟨r, reply, term', ps', heq, heq', hcut⟩ :=
      requestVote_compact h term ps args
    exact ⟨r, .vote reply, term', ps', by rw [Raft.perform, heq]; rfl,
      by rw [Raft.perform, heq']; rfl, hcut⟩
  | appendEntries args =>
    obtain ⟨hprev, hcons, hafter⟩ := haction
    obtain ⟨r, reply, term', ps', heq, heq', hcut⟩ :=
      appendEntries_compact h term ps hprev hcons hafter
    exact ⟨r, .append args reply, term', ps', by rw [Raft.perform, heq]; rfl,
      by rw [Raft.perform, heq']; rfl, hcut⟩
  | start command =>
    obtain ⟨r, result, term', ps', heq, heq', hcut⟩ :=
      start_compact h term ps command
    rw [Option.some.injEq] at heq heq'
    exact ⟨r, .started result, term', ps', by rw [Raft.perform, heq],
      by rw [Raft.perform, heq']; rfl, hcut⟩
  | electionTimeout =>
    by_cases hl : rf.state = .leader
    · refine ⟨rf, .election none, term, ps, ?_, ?_, h⟩
      · rw [Raft.perform, if_pos hl]
      · rw [Raft.perform, if_pos (show (rf.compact index term ps).state = .leader from hl)]
        rfl
    · obtain ⟨r, ⟨args, votes⟩, term', ps', heq, heq', hcut⟩ :=
        becomeCandidate_compact h term ps
      refine ⟨r, .election (some args), term', ps', ?_, ?_, hcut⟩
      · rw [Raft.perform, if_neg hl, heq]
        rfl
      · rw [Raft.perform, if_neg (show ¬ (rf.compact index term ps).state = .leader from hl), heq']
        rfl
  | appendEntriesReply peer args reply =>
    obtain ⟨r, term', ps', heq, heq', hcut⟩ :=
      handleAppendEntriesReply_compact h term ps peer args haction
    exact ⟨r, .silent, term', ps', by rw [Raft.perform, heq]; rfl,
      by rw [Raft.perform, heq']; rfl, hcut⟩

/-- A sequence of actions. -/
theorem performAll_compact {actions : List (Raft.Action n C)} :
    ∀ {rf : Raft n C D} (term : Nat) (ps : Persister n C D), Cuttable rf index →
      Raft.AllAdmissible index rf actions → ∃ r effects term' ps',
        rf.performAll actions = some (r, effects) ∧
        (rf.compact index term ps).performAll actions =
          some (r.compact index term' ps', effects.map (Raft.Effect.behind index)) ∧
        Cuttable r index := by
  induction actions with
  | nil => exact fun {rf} term ps h _ => ⟨rf, [], term, ps, rfl, rfl, h⟩
  | cons action actions ih =>
    intro rf term ps h hall
    obtain ⟨r, effect, term₁, ps₁, heq, heq', hcut⟩ :=
      perform_compact h term ps hall.1
    obtain ⟨r', effects, term', ps', hrest, hrest', hcut'⟩ :=
      ih term₁ ps₁ hcut (hall.2 r effect heq)
    refine ⟨r', effect :: effects, term', ps', ?_, ?_, hcut'⟩
    · rw [Raft.performAll, heq]
      simp only [Option.bind_eq_bind, Option.bind_some, hrest]
    · rw [Raft.performAll, heq']
      simp only [Option.bind_eq_bind, Option.bind_some, hrest', List.map_cons]

/-- `Snapshot` at a committed index does not panic, and cuts the log. -/
theorem snapshot_compact (h : Cuttable rf index) (data : Option D) :
    ∃ term ps, rf.snapshot index data = some (rf.compact index term ps) := by
  have habove := h.above
  have hcommitted := h.committed
  have hstored := h.stored
  obtain ⟨e, he⟩ := exists_getLog (Nat.le_of_lt habove)
    (Nat.lt_of_le_of_lt hcommitted hstored)
  have hfirst : GoSlice.index (rf.logs.drop (index - rf.lastIncludedIndex)) 0 = some e := by
    rw [getLog_eq_getElem? rf (Nat.le_of_lt habove)] at he
    rw [GoSlice.index_eq_getElem? (i := 0) _ (k := 0) rfl, List.getElem?_drop]
    exact he
  rw [Raft.getLen] at hstored
  rw [Raft.snapshot, if_neg (by omega), GoSlice.dropFrom_eq_some rf.logs
    (k := index - rf.lastIncludedIndex) (by rw [Raft.getPhysicalIndex]; omega) (by omega)]
  simp only [Option.bind_eq_bind, Option.bind_some, Raft.getFirstLog, hfirst]
  exact ⟨e.term, _, rfl⟩

/-- Compaction at a committed index cannot be seen: the instances before and
after it give the same answers to every admissible sequence of actions, and
look the same afterwards. -/
theorem snapshot_invisible {rf : Raft n C D} {index : Nat}
    (hlow : rf.lastIncludedIndex < index) (hcommit : index ≤ rf.commitIndex)
    (hlast : rf.commitIndex < rf.getLen) (data : Option D) :
    ∃ rf', rf.snapshot index data = some rf' ∧
      ∀ actions, Raft.AllAdmissible index rf actions → ∃ r r' effects,
        rf.performAll actions = some (r, effects) ∧
        rf'.performAll actions = some (r', effects.map (Raft.Effect.behind index)) ∧
        SameView index r r' := by
  have hcut : Cuttable rf index := ⟨hlow, hcommit, hlast⟩
  obtain ⟨term, ps, hsnap⟩ := snapshot_compact hcut data
  refine ⟨_, hsnap, fun actions hall => ?_⟩
  obtain ⟨r, effects, term', ps', heq, heq', hr⟩ := performAll_compact term ps hcut hall
  exact ⟨r, _, effects, heq, heq', sameView_compact hr⟩

/-! ## A conflict that reaches below the cut -/

/-- A follower of term 2 with three committed entries of term 1. -/
def longFollower : Raft 3 Nat Nat :=
  { Raft.blank node0 .empty with
    currentTerm := 2
    logs := [⟨0, 0, none⟩, ⟨1, 1, some 10⟩, ⟨2, 1, some 20⟩, ⟨3, 1, some 30⟩]
    commitIndex := 2 }

/-- A request that is refused, and an election. -/
def refusedThenElection : List (Raft.Action 3 Nat) :=
  [.appendEntries ⟨2, node1, 3, 2, [], 2⟩, .electionTimeout]

theorem refusedThenElection_admissible :
    Raft.AllAdmissible 2 longFollower refusedThenElection := by
  refine ⟨⟨by decide, fun k e he => by simp at he, ?_⟩,
    fun _ _ _ => ⟨trivial, fun _ _ _ => trivial⟩⟩
  intro r reply h
  cases h
  decide

/-- The whole log reports the conflict at index 1, and the compacted one at
index 3. -/
theorem refusedThenElection_invisible :
    longFollower.lastIncludedIndex < 2 ∧ 2 ≤ longFollower.commitIndex ∧
      longFollower.commitIndex < longFollower.getLen ∧
      ∃ rf', longFollower.snapshot 2 (some 7) = some rf' ∧ ∃ r r' effects,
        longFollower.performAll refusedThenElection = some (r, effects) ∧
        rf'.performAll refusedThenElection =
          some (r', effects.map (Raft.Effect.behind 2)) ∧ SameView 2 r r' := by
  refine ⟨by decide, by decide, by decide, ?_⟩
  obtain ⟨rf', hsnap, hview⟩ := snapshot_invisible
    (show longFollower.lastIncludedIndex < 2 by decide) (by decide) (by decide) (some 7)
  exact ⟨rf', hsnap, hview _ refusedThenElection_admissible⟩

end KvRaft
