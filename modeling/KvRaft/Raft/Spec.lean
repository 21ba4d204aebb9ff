import KvRaft.Raft.Access
import KvRaft.Raft.Repr

/-!
# What the functions of an instance compute

One lemma for each function that reads the log, under `Represents`.  Each says that
the function does not panic, and what it answers in terms of the whole log.

`merge` is `appendNewEntries` on whole logs.  For entries that come from a
log which matches the instance's log, it takes over what the instance does
not hold yet (`merge_eq_adopt`).
-/

namespace KvRaft

open Consensus

variable {n : Nat} {C D : Type} {rf : Raft n C D} {l : Log (Option C)}

/-! ## Searching the log -/

/-- The consistency check passes exactly when the log holds the previous
entry, and a conflict index is not far above the request or the snapshot. -/
theorem handleConsistencyConflict_spec (h : Represents rf l) (args : AppendEntriesArgs n C) :
    (rf.lastIncludedIndex ≤ args.prevLogIndex ∧ args.prevLogIndex ≤ l.length ∧
        termAt l args.prevLogIndex = args.prevLogTerm ∧
        rf.handleConsistencyConflict args = some none) ∨
      ∃ index term, rf.handleConsistencyConflict args = some (some (index, term)) ∧
        (index ≤ args.prevLogIndex + 1 ∨ index = rf.lastIncludedIndex + 1) := by
  rcases handleConsistencyConflict_cases rf args with
    ⟨_, hc⟩ | ⟨hlow, ⟨hlen, hc⟩ | ⟨e, he, ⟨hterm, hc⟩ | ⟨_, j, hj, _, hc⟩⟩⟩
  · exact Or.inr ⟨_, _, hc, Or.inr rfl⟩
  · exact Or.inr ⟨_, _, hc, Or.inl (by omega)⟩
  · have hlen := h.getLen ▸ lt_getLen_of_getLog hlow he
    rw [h.term_of_getLog hlow he] at hterm
    exact Or.inl ⟨hlow, by omega, hterm, hc⟩
  · exact Or.inr ⟨_, _, hc, Or.inl (by omega)⟩

theorem findLastIndexOfTerm_spec (h : Represents rf l) (t i : Nat) (hi : i ≤ l.length) :
    ∃ r : Int, r ≤ i ∧ rf.findLastIndexOfTerm t i = some r := by
  rcases findLastIndexOfTerm_cases t i (by rw [h.getLen]; omega) with hs | ⟨k, _, _, hk, _, _, hs⟩
  · exact ⟨-1, by omega, hs⟩
  · exact ⟨k, by omega, hs⟩

theorem updateCommitIndex_spec (h : Represents rf l)
    (hsnap : rf.lastIncludedIndex ≤ rf.commitIndex) : rf.updateCommitIndex = some rf ∨
      ∃ k, rf.commitIndex < k ∧ k ≤ l.length ∧ termAt l k = rf.currentTerm ∧
        rf.countNodesWithLogAt k > n / 2 ∧
        rf.updateCommitIndex = some { rf with commitIndex := k } := by
  rw [Raft.updateCommitIndex, h.getLen, Nat.add_sub_cancel]
  refine (updateCommitScan_cases hsnap l.length (by rw [h.getLen]; omega)).imp_right ?_
  rintro ⟨k, e, hk, hkl, he, hterm, hcount, hs⟩
  rw [h.term_of_getLog (by omega) he] at hterm
  exact ⟨k, hk, hkl, hterm, hcount, hs⟩

/-- `isLogUpToDate` is the election restriction. -/
theorem isLogUpToDate_spec (h : Represents rf l) (term index : Nat) :
    rf.isLogUpToDate term index =
      some (decide (lastTerm l < term ∨ term = lastTerm l ∧ l.length ≤ index)) := by
  obtain ⟨d, hd⟩ := h.getLastLog
  rw [Raft.isLogUpToDate, hd]
  simp only [Option.bind_eq_bind, Option.bind_some]
  split_ifs with hterm
  · simp [hterm]
  · have heq : term = lastTerm l := not_not.mp hterm
    simp [heq]

theorem genRequestVoteArgs_spec (h : Represents rf l) : rf.genRequestVoteArgs =
    some ⟨rf.currentTerm, rf.me, lastTerm l, l.length⟩ := by
  obtain ⟨d, hd⟩ := h.getLastLog
  rw [Raft.genRequestVoteArgs, hd]
  rfl

theorem becomeLeader_spec (h : Represents rf l) : rf.becomeLeader = some { rf with
    state := .leader
    currentLeader := some rf.me
    nextIndex := fun _ => l.length + 1
    matchIndex := Function.update (fun _ => rf.lastIncludedIndex) rf.me l.length } := by
  obtain ⟨d, hd⟩ := h.getLastLog
  rw [Raft.becomeLeader, hd]
  rfl

/-! ## Changing the log -/

/-- `appendNewEntries` on whole logs: the slots `es` belong after the first
`k` slots. -/
def merge (l : Log (Option C)) (k : Nat) : Log (Option C) → Log (Option C)
  | [] => l
  | e :: es =>
    match l[k]? with
    | none => l ++ e :: es
    | some d => if d.term ≠ e.term then l.take k ++ e :: es else merge l (k + 1) es

/-- `appendNewEntries` computes `merge`, and never cuts below the snapshot. -/
theorem appendNewEntries_spec (h : Represents rf l) : ∀ (es : Log (Option C)) (k : Nat),
    rf.lastIncludedIndex ≤ k → k ≤ l.length →
    ∃ c, rf.logs = stored rf.lastIncludedIndex l c ∧
      rf.appendNewEntries (numbered (k + 1) es) =
        some { rf with logs := stored rf.lastIncludedIndex (merge l k es) c } ∧
      l.take k <+: merge l k es
  | [], k, _, _ => by
    obtain ⟨c, hc⟩ := h.logs
    refine ⟨c, hc, ?_, List.take_prefix k l⟩
    rw [numbered_nil, Raft.appendNewEntries, merge, ← hc]
  | e :: es, k, hk, hkl => by
    obtain ⟨c, hc⟩ := h.logs
    rw [numbered, Raft.appendNewEntries, h.getLen, merge]
    by_cases hlt : k < l.length
    · have he := List.getElem?_eq_getElem hlt
      rw [if_pos (by simpa using hlt), he]
      simp only [Option.bind_eq_bind]
      -- The entry at the position of the new one is the slot of the whole log.
      have hget : GoSlice.index rf.logs (rf.getPhysicalIndex (k + 1)) =
          some ⟨k + 1, l[k].term, l[k].cmd⟩ := h.getLog_of_getElem? hk he
      rw [hget]
      simp only [Option.bind_some]
      split_ifs with hterm
      · have hlen := h.length_logs
        refine ⟨c, hc, ?_, List.prefix_append _ _⟩
        rw [GoSlice.takeTo_eq_some _ (Represents.getPhysicalIndex (Nat.le_succ_of_le hk))
          (by omega)]
        simp only [Option.bind_some, Option.some.injEq]
        rw [hc, show k + 1 - rf.lastIncludedIndex = (k - rf.lastIncludedIndex) + 1 by omega,
          take_stored c (by omega),
          show rf.lastIncludedIndex + (k - rf.lastIncludedIndex) = k by omega,
          ← stored_append c (by rw [List.length_take]; omega), List.length_take,
          Nat.min_eq_left hkl, numbered]
      · obtain ⟨c', hc', hs, hp⟩ := appendNewEntries_spec h es (k + 1) (by omega) hlt
        refine ⟨c', hc', hs, ?_⟩
        exact (List.take_prefix_take_left (Nat.le_succ k)).trans hp
    · have hkeq : k = l.length := by omega
      subst hkeq
      rw [if_neg (by simp), List.getElem?_eq_none (Nat.le_refl _), List.take_length]
      refine ⟨c, hc, ?_, List.prefix_append _ _⟩
      simp only [Option.some.injEq]
      rw [hc, ← stored_append c h.le, numbered]

/-- On two logs that match, merging the slots of one from a common point on is
taking them over. -/
theorem merge_eq_adopt {g : Log (Option C)}
    (hmatch : ∀ k, k ≤ l.length → k ≤ g.length → termAt l k = termAt g k →
      l.take k = g.take k) : ∀ (m k : Nat), k ≤ l.length → k + m ≤ g.length →
      l.take k = g.take k → merge l k ((g.drop k).take m) = adopt l (g.take (k + m))
  | 0, k, _, _, heq => by
    rw [List.take_zero, merge, adopt, if_pos]
    rw [Nat.add_zero, ← heq]
    exact List.take_prefix k l
  | m + 1, k, hk, hkm, heq => by
    have hg : k < g.length := by omega
    -- The slots from `k` on, with the first `k` slots of `l` before them.
    have hsplit : l.take k ++ g[k] :: (g.drop (k + 1)).take m = g.take (k + (m + 1)) := by
      rw [heq, ← List.take_succ_cons, ← List.drop_eq_getElem_cons hg]
      exact List.take_add.symm
    rw [List.drop_eq_getElem_cons hg, List.take_succ_cons, merge]
    by_cases hlt : k < l.length
    · rw [List.getElem?_eq_getElem hlt]
      simp only
      have hl := List.getElem?_eq_getElem hlt
      have hg' := List.getElem?_eq_getElem hg
      split_ifs with hterm
      · rw [hsplit, adopt, if_neg]
        intro hp
        apply hterm
        have hgk : (g.take (k + (m + 1)))[k]? = some g[k] := by
          rw [List.getElem?_take, if_pos (by omega), hg']
        rw [getElem?_of_isPrefix hp hgk] at hl
        rw [Option.some.inj hl]
      · have hterm' : termAt l (k + 1) = termAt g (k + 1) := by
          rw [termAt_succ_of_getElem? hl, termAt_succ_of_getElem? hg']
          exact not_not.mp hterm
        rw [merge_eq_adopt hmatch m (k + 1) hlt (by omega)
          (hmatch (k + 1) hlt hg hterm'), show k + 1 + m = k + (m + 1) by omega]
    · rw [List.getElem?_eq_none (by omega)]
      simp only
      rw [← List.take_of_length_le (Nat.le_of_not_lt hlt), hsplit, adopt, if_neg]
      intro hp
      have := hp.length_le
      simp only [List.length_take] at this
      omega

theorem truncateLogWithSnapshot_spec (h : Represents rf l) {index : Nat} (term : Nat)
    (hidx : rf.lastIncludedIndex < index) :
    (index ≤ l.length ∧ termAt l index = term ∧ ∃ c,
        rf.truncateLogWithSnapshot index term = some { rf with logs := stored index l c }) ∨
      (¬ (index ≤ l.length ∧ termAt l index = term) ∧
        rf.truncateLogWithSnapshot index term =
          some { rf with logs := [⟨index, term, none⟩] }) := by
  rw [Raft.truncateLogWithSnapshot, h.getLen]
  by_cases hlen : index < l.length + 1
  · obtain ⟨d, hd⟩ := h.getLog (k := index) (by omega) (by omega)
    rw [if_pos hlen, hd]
    simp only [Option.bind_eq_bind, Option.bind_some]
    split_ifs with hterm
    · obtain ⟨c, hc⟩ := h.dropFrom (k := index) (by omega) (by omega)
      refine Or.inl ⟨by omega, hterm, c, ?_⟩
      rw [hc]
      rfl
    · exact Or.inr ⟨fun hh => hterm hh.2, rfl⟩
  · rw [if_neg hlen]
    exact Or.inr ⟨fun hh => by omega, rfl⟩

theorem snapshot_spec (h : Represents rf l) (index : Nat) (data : Option D)
    (hidx : rf.lastIncludedIndex < index) (hcommit : index ≤ rf.commitIndex)
    (hle : rf.commitIndex ≤ l.length) :
    ∃ c, rf.snapshot index data = some { rf with
      logs := stored index l c
      lastIncludedIndex := index
      lastIncludedTerm := termAt l index
      persister := rf.persister.save
        ⟨rf.currentTerm, rf.votedFor, stored index l c, index, termAt l index⟩ data } := by
  obtain ⟨c, hc⟩ := h.dropFrom (k := index) (by omega) (by omega)
  refine ⟨c, ?_⟩
  rw [Raft.snapshot, if_neg (by omega), hc]
  rfl

theorem genAppendEntriesArgs_spec (h : Represents rf l) {k : Nat}
    (hk : rf.lastIncludedIndex ≤ k) (hkl : k ≤ l.length) :
    rf.genAppendEntriesArgs k = some
      { term := rf.currentTerm
        leaderId := rf.me
        prevLogIndex := k
        prevLogTerm := termAt l k
        entries := numbered (k + 1) (l.drop k)
        leaderCommit := rf.commitIndex } := by
  obtain ⟨c, hc⟩ := h.logs
  obtain ⟨d, hd⟩ := h.getLog hk hkl
  rw [genAppendEntriesArgs_eq hk hd, hc, stored, List.drop_succ_cons, drop_numbered,
    List.drop_drop]
  rw [show rf.lastIncludedIndex + 1 + (k - rf.lastIncludedIndex) = k + 1 by omega,
    show rf.lastIncludedIndex + (k - rf.lastIncludedIndex) = k by omega]

/-- The batch that the applier copies: the slots after `lastApplied` up to
`commitIndex`. -/
theorem applierSlice_spec (h : Represents rf l) {j k : Nat} (hj : rf.lastIncludedIndex ≤ j)
    (hjk : j ≤ k) (hk : k ≤ l.length) :
    GoSlice.slice rf.logs (rf.getPhysicalIndex (j + 1)) (rf.getPhysicalIndex k + 1) =
      some (numbered (j + 1) ((l.drop j).take (k - j))) := by
  obtain ⟨c, hc⟩ := h.logs
  have hlen := h.length_logs
  rw [GoSlice.slice_eq_some (k := j - rf.lastIncludedIndex + 1) (l := k - j) _
    (by rw [Represents.getPhysicalIndex (Nat.le_succ_of_le hj)]; omega)
    (by rw [Represents.getPhysicalIndex (Nat.le_trans hj hjk)]; omega) (by omega),
    hc, stored, List.drop_succ_cons, drop_numbered, List.drop_drop, take_numbered]
  rw [show rf.lastIncludedIndex + 1 + (j - rf.lastIncludedIndex) = j + 1 by omega,
    show rf.lastIncludedIndex + (j - rf.lastIncludedIndex) = j by omega]

end KvRaft
