import KvRaft.Raft.Inversion

/-!
# Log accesses that do not panic

An access between `lastIncludedIndex` and `getLen` finds an entry, whatever the
entries are.  So the functions that search the log and the functions that cut
it have a result as long as they stay in that range, and the lemmas here say
which one.
-/

namespace KvRaft

variable {n : Nat} {C D : Type} {rf : Raft n C D}

theorem exists_getLog {k : Nat} (hlow : rf.lastIncludedIndex ≤ k) (hhigh : k < rf.getLen) :
    ∃ e, rf.getLog k = some e := by
  rw [Raft.getLen] at hhigh
  rw [getLog_eq_getElem? rf hlow]
  exact ⟨_, List.getElem?_eq_getElem (by omega)⟩

theorem lt_getLen_of_getLog {k : Nat} {e : Entry C} (hlow : rf.lastIncludedIndex ≤ k)
    (h : rf.getLog k = some e) : k < rf.getLen := by
  rw [getLog_eq_getElem? rf hlow] at h
  have := (List.getElem?_eq_some_iff.mp h).1
  rw [Raft.getLen]
  omega

/-! ## Searching the log -/

/-- The scan of a follower stays at or below its start. -/
theorem exists_conflictScan (rf : Raft n C D) (t : Nat) :
    ∀ i, i < rf.getLen → ∃ j, j ≤ i ∧ rf.conflictScan t i = some j
  | 0, _ => ⟨0, Nat.le_refl 0, rfl⟩
  | i + 1, hi => by
    rw [Raft.conflictScan]
    split_ifs with hlt
    · obtain ⟨e, he⟩ := exists_getLog (Nat.le_of_lt hlt) hi
      rw [he]
      simp only [Option.bind_eq_bind, Option.bind_some]
      split_ifs
      · obtain ⟨j, hj, hs⟩ := exists_conflictScan rf t i (by omega)
        exact ⟨j, by omega, hs⟩
      · exact ⟨i + 1, Nat.le_refl _, rfl⟩
    · exact ⟨i + 1, Nat.le_refl _, rfl⟩

/-- Above the snapshot it leaves an entry of the conflicting term behind. -/
theorem exists_conflictScan_lt {i : Nat} {e : Entry C} (hlt : rf.lastIncludedIndex < i)
    (he : rf.getLog i = some e) : ∃ j, j < i ∧ rf.conflictScan e.term i = some j := by
  have hlen := lt_getLen_of_getLog (Nat.le_of_lt hlt) he
  obtain ⟨i, rfl⟩ : ∃ k, i = k + 1 := ⟨i - 1, by omega⟩
  obtain ⟨j, hj, hs⟩ := exists_conflictScan rf e.term i (by omega)
  refine ⟨j, by omega, ?_⟩
  rw [Raft.conflictScan, if_pos hlt, he]
  simp only [Option.bind_eq_bind, Option.bind_some, if_true]
  exact hs

/-- The four answers of `handleConsistencyConflict`. -/
theorem handleConsistencyConflict_cases (rf : Raft n C D) (args : AppendEntriesArgs n C) :
    (args.prevLogIndex < rf.lastIncludedIndex ∧
      rf.handleConsistencyConflict args = some (some (rf.lastIncludedIndex + 1, none))) ∨
    rf.lastIncludedIndex ≤ args.prevLogIndex ∧
      (rf.getLen ≤ args.prevLogIndex ∧
        rf.handleConsistencyConflict args = some (some (rf.getLen, none)) ∨
      ∃ e, rf.getLog args.prevLogIndex = some e ∧
        (e.term = args.prevLogTerm ∧ rf.handleConsistencyConflict args = some none ∨
        e.term ≠ args.prevLogTerm ∧ ∃ j, j ≤ args.prevLogIndex ∧
          (rf.lastIncludedIndex < args.prevLogIndex → j < args.prevLogIndex) ∧
          rf.handleConsistencyConflict args = some (some (j + 1, some e.term)))) := by
  unfold Raft.handleConsistencyConflict Raft.hasEntryAt
  by_cases hsnap : args.prevLogIndex < rf.lastIncludedIndex
  · exact Or.inl ⟨hsnap, by rw [if_pos hsnap]⟩
  rw [if_neg hsnap]
  refine Or.inr ⟨Nat.le_of_not_lt hsnap, ?_⟩
  by_cases hlen : rf.getLen ≤ args.prevLogIndex
  · rw [if_pos (Or.inr hlen)]
    simp [hlen]
  obtain ⟨e, he⟩ := exists_getLog (Nat.le_of_not_lt hsnap) (Nat.lt_of_not_le hlen)
  refine Or.inr ⟨e, he, ?_⟩
  rw [if_neg (by omega), he]
  simp only [Option.bind_eq_bind, Option.bind_some, beq_iff_eq, if_neg hlen]
  by_cases hterm : e.term = args.prevLogTerm
  · exact Or.inl ⟨hterm, by rw [if_pos hterm]⟩
  · rw [if_neg hterm]
    refine Or.inr ⟨hterm, ?_⟩
    by_cases hlt : rf.lastIncludedIndex < args.prevLogIndex
    · obtain ⟨j, hj, hs⟩ := exists_conflictScan_lt hlt he
      exact ⟨j, Nat.le_of_lt hj, fun _ => hj, by rw [hs]; rfl⟩
    · obtain ⟨j, hj, hs⟩ := exists_conflictScan rf e.term args.prevLogIndex
        (Nat.lt_of_not_le hlen)
      exact ⟨j, hj, fun h => absurd h hlt, by rw [hs]; rfl⟩

theorem exists_handleConsistencyConflict (rf : Raft n C D) (args : AppendEntriesArgs n C) :
    ∃ conflict, rf.handleConsistencyConflict args = some conflict := by
  rcases handleConsistencyConflict_cases rf args with
    ⟨_, hc⟩ | ⟨_, ⟨_, hc⟩ | ⟨_, _, ⟨_, hc⟩ | ⟨_, _, _, _, hc⟩⟩⟩
  all_goals exact ⟨_, hc⟩

/-- The check passes when the log holds the previous entry. -/
theorem handleConsistencyConflict_none {args : AppendEntriesArgs n C}
    (h : rf.handleConsistencyConflict args = some none) :
    rf.lastIncludedIndex ≤ args.prevLogIndex ∧ args.prevLogIndex < rf.getLen ∧
      ∃ e, rf.getLog args.prevLogIndex = some e ∧ e.term = args.prevLogTerm := by
  rcases handleConsistencyConflict_cases rf args with
    ⟨_, hc⟩ | ⟨hlow, ⟨_, hc⟩ | ⟨e, he, ⟨hterm, _⟩ | ⟨_, _, _, _, hc⟩⟩⟩
  · cases h.symm.trans hc
  · cases h.symm.trans hc
  · exact ⟨hlow, lt_getLen_of_getLog hlow he, e, he, hterm⟩
  · cases h.symm.trans hc

/-- `findLastIndexOfTerm` finds an entry of the term above the snapshot, or
answers `-1`. -/
theorem findLastIndexOfTerm_cases (t : Nat) : ∀ i, i < rf.getLen →
    rf.findLastIndexOfTerm t i = some (-1) ∨
      ∃ k e, rf.lastIncludedIndex < k ∧ k ≤ i ∧ rf.getLog k = some e ∧ e.term = t ∧
        rf.findLastIndexOfTerm t i = some (k : Int)
  | 0, _ => Or.inl rfl
  | i + 1, hi => by
    rw [Raft.findLastIndexOfTerm]
    split_ifs with hlt
    · obtain ⟨e, he⟩ := exists_getLog (Nat.le_of_lt hlt) hi
      rw [he]
      simp only [Option.bind_eq_bind, Option.bind_some]
      split_ifs with hterm
      · exact Or.inr ⟨i + 1, e, hlt, Nat.le_refl _, he, hterm, rfl⟩
      · refine (findLastIndexOfTerm_cases t i (by omega)).imp_right ?_
        rintro ⟨k, e', hk, hki, he', hterm', hs⟩
        exact ⟨k, e', hk, Nat.le_succ_of_le hki, he', hterm', hs⟩
    · exact Or.inl rfl

/-- The loop of `updateCommitIndex`, when it ends above the snapshot, leaves the
commit index or raises it by the rule. -/
theorem updateCommitScan_cases (hsnap : rf.lastIncludedIndex ≤ rf.commitIndex) :
    ∀ i, i < rf.getLen → rf.updateCommitScan i = some rf ∨
      ∃ k e, rf.commitIndex < k ∧ k ≤ i ∧ rf.getLog k = some e ∧ e.term = rf.currentTerm ∧
        rf.countNodesWithLogAt k > n / 2 ∧
        rf.updateCommitScan i = some { rf with commitIndex := k }
  | 0, _ => Or.inl rfl
  | i + 1, hi => by
    rw [Raft.updateCommitScan]
    split_ifs with hlt
    · obtain ⟨e, he⟩ := exists_getLog (k := i + 1) (by omega) hi
      rw [he]
      simp only [Option.bind_eq_bind, Option.bind_some]
      split_ifs with hrule
      · exact Or.inr ⟨i + 1, e, hlt, Nat.le_refl _, he, hrule.1, hrule.2, rfl⟩
      · refine (updateCommitScan_cases hsnap i (by omega)).imp_right ?_
        rintro ⟨k, e', hk, hki, hrest⟩
        exact ⟨k, e', hk, Nat.le_succ_of_le hki, hrest⟩
    · exact Or.inl rfl

theorem exists_updateCommitIndex (hsnap : rf.lastIncludedIndex ≤ rf.commitIndex)
    (hlen : 0 < rf.getLen) : ∃ rf', rf.updateCommitIndex = some rf' := by
  rcases updateCommitScan_cases hsnap (rf.getLen - 1) (by omega) with hs | ⟨_, _, _, _, _, _, _, hs⟩
  · exact ⟨_, hs⟩
  · exact ⟨_, hs⟩

/-! ## Taking and cutting -/

theorem genAppendEntriesArgs_eq {k : Nat} {prev : Entry C} (hlow : rf.lastIncludedIndex ≤ k)
    (hprev : rf.getLog k = some prev) : rf.genAppendEntriesArgs k = some
      { term := rf.currentTerm
        leaderId := rf.me
        prevLogIndex := k
        prevLogTerm := prev.term
        entries := rf.logs.drop (k - rf.lastIncludedIndex + 1)
        leaderCommit := rf.commitIndex } := by
  have hlen := lt_getLen_of_getLog hlow hprev
  rw [Raft.getLen] at hlen
  rw [Raft.getLog] at hprev
  rw [Raft.genAppendEntriesArgs, hprev, GoSlice.dropFrom_eq_some _
    (k := k - rf.lastIncludedIndex + 1) (by rw [Raft.getPhysicalIndex]; omega) (by omega)]
  rfl

/-- `truncateLogWithSnapshot` keeps what lies behind a matching entry, and
otherwise leaves the snapshot alone. -/
theorem truncateLogWithSnapshot_cases (rf : Raft n C D) {index : Nat} (term : Nat)
    (hlow : rf.lastIncludedIndex ≤ index) :
    (∃ e, rf.getLog index = some e ∧ e.term = term ∧
      rf.truncateLogWithSnapshot index term =
        some { rf with logs := rf.logs.drop (index - rf.lastIncludedIndex) }) ∨
      rf.truncateLogWithSnapshot index term =
        some { rf with logs := [⟨index, term, none⟩] } := by
  unfold Raft.truncateLogWithSnapshot
  by_cases hlen : index < rf.getLen
  · obtain ⟨e, he⟩ := exists_getLog hlow hlen
    rw [if_pos hlen, he]
    simp only [Option.bind_eq_bind, Option.bind_some]
    split_ifs with hterm
    · rw [Raft.getLen] at hlen
      rw [GoSlice.dropFrom_eq_some _ (k := index - rf.lastIncludedIndex)
        (by rw [Raft.getPhysicalIndex]; omega) (by omega)]
      exact Or.inl ⟨e, rfl, hterm, rfl⟩
    · exact Or.inr rfl
  · rw [if_neg hlen]
    exact Or.inr rfl

end KvRaft
